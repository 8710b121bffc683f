import StyleLang.Proofs.Pass.Equations
import StyleLang.Proofs.Pass.Faults
import StyleLang.Proofs.Typing.Soundness

/-!
# Folding as arithmetic

What an expression folds to, said by its type and by its number apart from each other. The type
comes from the types of the operands alone, the number from their numbers alone. Main statement: an
expression folds without a defect exactly if it has a type, then to a literal of that type, and a
literal that is a number has the number that whole-number arithmetic gives.
-/

namespace StyleLang

/-- The whole number that the expression gives if nothing but the numbers of its literals, and of
the literals that its names stand for, is looked at; none if one of these has no number. -/
def Node.magnitude? (values : Env Constant) : Node → Option Int
  | literal _ (.number _ n) => some n
  | reference _ name =>
    match values name with
    | some { value := .number _ n, .. } => some n
    | _ => none
  | operation _ op lhs rhs => do
    let a ← lhs.magnitude? values
    let b ← rhs.magnitude? values
    match op with
    | .add => some (a + b)
    | .subtract => some (a - b)
    | .multiply => some (a * b)
  | _ => none

theorem Value.type_eq_number_iff {v : Value} {m : Measure} :
    v.type = .number m ↔ ∃ n, v = .number m n := by
  cases v with
  | number m' n => simp only [type_number, ValueType.number.injEq, number.injEq, exists_and_left,
      exists_eq', and_true]
  | color code => simp
  | bool b => simp

namespace Operator

/-- Only numbers have operations. -/
theorem numbers_of_measure {op : Operator} {l r : ValueType} {m : Measure}
    (h : op.measure l r = .ok m) : (∃ a, l = .number a) ∧ ∃ b, r = .number b := by
  cases op <;> cases l <;> cases r <;>
    simp_all [measure, sumMeasure, productMeasure]

/-- Operands that combine are numbers, and give the number of the operation on these. -/
theorem combine_eq_ok {op : Operator} {l r v : Value} (h : op.combine l r = .ok v) :
    ∃ m m₁ m₂ a b, op.measure l.type r.type = .ok m ∧ l = .number m₁ a ∧ r = .number m₂ b ∧
      v = .number m (op.compute a b) := by
  unfold combine at h
  cases hm : op.measure l.type r.type with
  | error reason =>
    rw [hm] at h
    cases h
  | ok m =>
    rw [hm] at h
    obtain ⟨⟨m₁, hl⟩, ⟨m₂, hr⟩⟩ := numbers_of_measure hm
    obtain ⟨a, rfl⟩ := Value.type_eq_number_iff.1 hl
    obtain ⟨b, rfl⟩ := Value.type_eq_number_iff.1 hr
    exact ⟨m, m₁, m₂, a, b, rfl, rfl, rfl, (Except.ok.inj h).symm⟩

end Operator

theorem Node.magnitude?_operation {values : Env Constant} {lhs rhs : Node} {a b : Int}
    (hl : lhs.magnitude? values = some a) (hr : rhs.magnitude? values = some b) (pos : Position)
    (op : Operator) : (operation pos op lhs rhs).magnitude? values = some (op.compute a b) := by
  unfold magnitude?
  rw [hl, hr]
  cases op <;> rfl

namespace Evaluate

open Typing

variable {values : Env Constant}

/-- What folds without a defect has the type of the literal, and if that is a number, its number. -/
theorem typed_of_fold : ∀ {e : Node} {c : Constant}, (fold values e).Yields (fun _ => False) c →
    HasType values.types e c.value.type ∧
      ∀ m n, c.value = .number m n → e.magnitude? values = some n
  | .literal _ value, c, h => by
    rw [Report.yields_ok.1 h]
    refine ⟨.literal value, fun m n hnumber => ?_⟩
    dsimp only at hnumber
    rw [hnumber, Node.magnitude?]
  | .reference _ name, c, h => by
    rw [fold] at h
    cases hname : values name with
    | none =>
      rw [hname] at h
      obtain ⟨_, hnote, -⟩ := Report.yields_andThen.1 h
      exact (Report.yields_note.1 hnote).elim
    | some c' =>
      rw [hname] at h
      obtain rfl := Report.yields_ok.1 h
      have htype : values.types name = some c.value.type := by rw [Env.types, hname]; rfl
      refine ⟨.reference htype, fun m n hnumber => ?_⟩
      obtain ⟨value, pos⟩ := c
      dsimp only at hnumber
      rw [Node.magnitude?, hname, hnumber]
  | .operation pos op lhs rhs, c, h => by
    rw [fold_operation] at h
    obtain ⟨left, hleft, h⟩ := Report.yields_andThen.1 h
    obtain ⟨right, hright, h⟩ := Report.yields_andThen.1 h
    obtain ⟨hl, hnl⟩ := typed_of_fold (Report.yields_under.1 hleft)
    obtain ⟨hr, hnr⟩ := typed_of_fold (Report.yields_under.1 hright)
    unfold operation at h
    cases hcombine : op.combine left.value right.value with
    | error reason =>
      rw [hcombine] at h
      obtain ⟨_, hnote, -⟩ := Report.yields_andThen.1 h
      exact (Report.yields_note.1 hnote).elim
    | ok value =>
      rw [hcombine] at h
      rw [Report.yields_ok.1 h]
      obtain ⟨m, _, _, a, b, hm, ha, hb, rfl⟩ := Operator.combine_eq_ok hcombine
      refine ⟨.operation hl hr hm, fun m' n hnumber => ?_⟩
      obtain ⟨-, rfl⟩ := Value.number.inj hnumber
      exact Node.magnitude?_operation (hnl _ _ ha) (hnr _ _ hb) pos op
  | .selector _ _ _, _, h | .declaration _ _ _, _, h | .assignment _ _ _, _, h
  | .conditional _ _ _ _, _, h | .rule _ _ _, _, h | .sheet _ _, _, h =>
    absurd h Report.not_yields_fault

/-- **Folding is exact.** An expression folds without a defect exactly if the types of its operands
give it a type. It then folds to a literal of that type, and if that is the type of a number, every
literal and every name in the expression stands for a number, and arithmetic on these gives the
number of the literal. -/
theorem fold_exact {e : Node} (he : e.PlacedExpression) :
    ((fold values e).findings = [] ↔ ∃ t, HasType values.types e t) ∧
    ((fold values e).findings = [] → ∃ c, (fold values e).result = .ok c ∧
      HasType values.types e c.value.type ∧
      ∀ m, c.value.type = .number m →
        ∃ n, e.magnitude? values = some n ∧ c.value = .number m n) := by
  obtain ⟨c, hc⟩ := @exists_result_fold values e he
  have htyped : (fold values e).findings = [] → HasType values.types e c.value.type ∧
      ∀ m n, c.value = .number m n → e.magnitude? values = some n := fun hnone =>
    typed_of_fold ⟨hc, fun f hf => by rw [hnone] at hf; cases hf⟩
  refine ⟨⟨fun hnone => ⟨_, (htyped hnone).1⟩, ?_⟩, fun hnone => ?_⟩
  · rintro ⟨t, ht⟩
    obtain ⟨c, hfold, -⟩ := fold_of_hasType ht
    rw [hfold]
    rfl
  · refine ⟨c, hc, (htyped hnone).1, fun m hm => ?_⟩
    obtain ⟨n, hn⟩ := Value.type_eq_number_iff.1 hm
    exact ⟨n, (htyped hnone).2 m n hn, hn⟩

/-- From a variable that stands for a negative length, a product beyond any machine word is
subtracted. -/
theorem fold_exact_negative :
    let values : Env Constant := Env.empty.set "Wide" { value := .number .pixel (-3) }
    let product : Node := .operation {} .multiply (.literal {} (.number .scalar 4294967296))
      (.literal {} (.number .pixel 4294967296))
    let e : Node := .operation {} .subtract (.reference {} "Wide") product
    e.PlacedExpression ∧ (fold values e).findings = [] ∧
      ∃ c, (fold values e).result = .ok c ∧ HasType values.types e (.number .pixel) ∧
        e.magnitude? values = some (-18446744073709551619) ∧
        c.value = .number .pixel (-18446744073709551619) := by
  intro values product e
  have he : e.PlacedExpression := ⟨trivial, trivial, trivial⟩
  have hnone : (fold values e).findings = [] := by rfl
  obtain ⟨c, hc, htype, hnumber⟩ := (fold_exact he).2 hnone
  obtain rfl := Except.ok.inj hc
  obtain ⟨n, hn, hvalue⟩ := hnumber .pixel rfl
  obtain ⟨-, rfl⟩ := Value.number.inj hvalue
  exact ⟨he, hnone, _, hc, htype, hn, rfl⟩

end Evaluate

end StyleLang
