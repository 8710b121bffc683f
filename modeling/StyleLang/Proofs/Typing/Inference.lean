import StyleLang.Proofs.Pass.Faults
import StyleLang.Proofs.Pass.Sites

/-!
# Inference

An expression that has no type has something wrong in it, and the checker has said so by the time it
goes on. This is why nothing more needs to be said of a bare reference that is unknown, and why an
assignment may leave its name unbound where its expression has no type. Main statement: inference
gives a type exactly if it finds nothing; if it gives none, its last finding is about the expression
itself; all it finds is about the expression and its parts, and it changes no scope.
-/

namespace StyleLang

namespace Report

variable {α : Type} {pos : Position}

/-- There is no type, and the last finding says so of the node that the report is about. -/
def Untyped (pos : Position) (r : Report (Option ValueType)) : Prop :=
  ∃ inner problem, r = ⟨inner ++ [{ severity := .error, problem, pos }], .ok none⟩

/-- There is a type and nothing was found, or there is none, which is the last thing found. -/
inductive Decides (pos : Position) (r : Report (Option ValueType)) : Prop where
  | typed (t : ValueType) (h : r = ok (some t))
  | untyped (h : r.Untyped pos)

theorem untyped_note (pos : Position) (problem : Problem) :
    ((note .error pos problem).andThen fun _ => ok none).Untyped pos := ⟨[], problem, rfl⟩

/-- Whatever was found before comes before the last finding. -/
theorem Untyped.after {r : Report α} {a : α} {next : α → Report (Option ValueType)}
    (h : (next a).Untyped pos) (ha : r.result = .ok a) : (r.andThen next).Untyped pos := by
  obtain ⟨findings, result⟩ := r
  obtain rfl : result = .ok a := ha
  obtain ⟨inner, problem, hnext⟩ := h
  refine ⟨findings ++ inner, problem, ?_⟩
  simp only [andThen, hnext, List.append_assoc]

theorem Untyped.result {r : Report (Option ValueType)} (h : r.Untyped pos) :
    r.result = .ok none := by
  obtain ⟨inner, problem, rfl⟩ := h
  rfl

namespace Decides

variable {r : Report (Option ValueType)}

theorem exists_result (h : r.Decides pos) : ∃ type, r.result = .ok type := by
  cases h with
  | typed t h => exact ⟨some t, by rw [h]; rfl⟩
  | untyped h => exact ⟨none, h.result⟩

theorem isSome_iff (h : r.Decides pos) {type : Option ValueType} (hr : r.result = .ok type) :
    type.isSome = true ↔ r.findings = [] := by
  cases h with
  | typed t h =>
    subst h
    obtain rfl : some t = type := Except.ok.inj hr
    exact iff_of_true rfl rfl
  | untyped h =>
    obtain ⟨inner, problem, rfl⟩ := h
    obtain rfl : none = type := Except.ok.inj hr
    exact iff_of_false Bool.false_ne_true (List.concat_ne_nil _ _)

theorem exists_last (h : r.Decides pos) (hr : r.result = .ok none) :
    ∃ inner f, r.findings = inner ++ [f] ∧ f.path = [] ∧ f.pos = pos := by
  cases h with
  | typed t h =>
    subst h
    cases hr
  | untyped h =>
    obtain ⟨inner, problem, rfl⟩ := h
    exact ⟨inner, _, rfl, rfl, rfl⟩

end Decides

end Report

namespace Check

open Report

variable {types : Env ValueType}

theorem decides_operationType (pos : Position) (op : Operator) (l r : ValueType) :
    (operationType pos op (some l) (some r)).Decides pos := by
  unfold operationType
  cases hm : op.measure l r with
  | ok m => simpa only [hm] using .typed (.number m) rfl
  | error reason => simpa only [hm] using .untyped (untyped_note pos (.operands reason))

theorem untyped_operationType (pos : Position) (op : Operator) {left right : Option ValueType}
    (h : left = none ∨ right = none) : (operationType pos op left right).Untyped pos := by
  have hnote := untyped_note pos (.untypedOperand op)
  rcases h with rfl | rfl
  · exact hnote
  · cases left with
    | none => exact hnote
    | some l => exact hnote

/-- What is found in the operands comes before what is found of the operation. -/
theorem decides_operation {lpos rpos : Position} {left right : Report (Option ValueType)}
    (hl : left.Decides lpos) (hr : right.Decides rpos) (pos : Position) (op : Operator) :
    ((left.under .lhs).andThen fun l =>
      (right.under .rhs).andThen fun r => operationType pos op l r).Decides pos := by
  cases hl with
  | typed t hl =>
    subst hl
    rw [under_ok, ok_andThen]
    cases hr with
    | typed t' hr =>
      subst hr
      rw [under_ok, ok_andThen]
      exact decides_operationType pos op t t'
    | untyped hr =>
      exact .untyped (Untyped.after (untyped_operationType pos op (.inr rfl)) hr.result)
  | untyped hl =>
    -- the right operand is entered all the same, but its type no longer counts
    obtain ⟨r, hright⟩ := hr.exists_result
    refine .untyped (Untyped.after ?_ hl.result)
    exact Untyped.after (untyped_operationType pos op (.inl rfl)) hright

/-- By induction on the expression: an operation without a type has the last word on itself. -/
theorem decides_infer : ∀ {e : Node}, e.PlacedExpression → (infer types e).Decides e.position
  | .literal _ value, _ => .typed value.type rfl
  | .reference pos name, _ => by
    rw [infer]
    cases types name with
    | some t => exact .typed t rfl
    | none => exact .untyped (untyped_note pos (.unknownVariable name))
  | .operation pos op lhs rhs, he => by
    rw [infer]
    exact decides_operation (decides_infer he.1) (decides_infer he.2) pos op

/-- Inference returns from expressions and from no other node. -/
theorem exists_result_infer_iff {e : Node} :
    (∃ type, (infer types e).result = .ok type) ↔ e.PlacedExpression := by
  constructor
  · rintro ⟨type, h⟩
    exact placed_of_infer h
  · intro h
    exact (decides_infer h).exists_result

/-- An expression without a type is never passed over in silence: inference gives a type exactly if
it finds nothing, what it finds last in giving none is about the expression itself, and all that it
finds is about the expression or an expression in it. It returns from every expression and leaves
the scopes as they are. -/
theorem inference_never_silent (scopes : Scopes ValueType) (e : Node) :
    ∃ report, (Walk.reading fun types => infer types e) scopes = (report, scopes) ∧
      ((∃ type, report.result = .ok type) ↔ e.PlacedExpression) ∧
      ∀ type, report.result = .ok type →
        (type.isSome = true ↔ report.findings = []) ∧
        (type = none → ∃ inner f, report.findings = inner ++ [f] ∧ f.path = [] ∧
          f.pos = e.position) ∧
        ∀ f ∈ report.findings, ∃ m, e.at? f.path = some m ∧ m.PlacedExpression ∧
          f.pos = m.position := by
  refine ⟨infer scopes.lookup e, rfl, exists_result_infer_iff, fun type hresult => ?_⟩
  have hplaced : e.PlacedExpression := exists_result_infer_iff.1 ⟨type, hresult⟩
  have hdecides : (infer scopes.lookup e).Decides e.position := decides_infer hplaced
  refine ⟨hdecides.isSome_iff hresult, ?_, fun f hf => ?_⟩
  · rintro rfl
    exact hdecides.exists_last hresult
  · obtain ⟨m, hat, hpos, -⟩ := sited_infer e f hf
    exact ⟨m, hat, hplaced.at? hat, hpos.symm⟩

end Check

end StyleLang
