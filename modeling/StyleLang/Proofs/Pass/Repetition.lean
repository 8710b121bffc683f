import StyleLang.Proofs.Pass.Flattening
import StyleLang.Proofs.Pass.NormalForm
import StyleLang.Proofs.Pass.Session
import StyleLang.Transform

/-!
# Evaluating again

What the evaluator leaves is a normal form. Main statement: evaluating it again changes nothing, so
it does not matter how often evaluators run between transforms that keep the normal form.
-/

namespace StyleLang

/-! ## What is left -/

namespace Remnant

mutual

theorem evaluated_toNode : ∀ r : Remnant, r.toNode.Evaluated
  | declaration _ _ _ _ => .declaration
  | rule _ _ _ body => .rule (evaluated_toNodes body)

theorem evaluated_toNodes : ∀ (rs : List Remnant), ∀ n ∈ toNodes rs, n.Evaluated
  | [] => fun _ hn => absurd hn List.not_mem_nil
  | r :: rs => List.forall_mem_cons.2 ⟨evaluated_toNode r, evaluated_toNodes rs⟩

end

end Remnant

namespace Node

/-- A declaration of a literal. -/
def IsConstant : Node → Prop
  | declaration _ _ (literal _ _) => True
  | _ => False

/-- A rule of declarations of literals. -/
def IsConstantRule : Node → Prop
  | rule _ _ body => ∀ n ∈ body, n.IsConstant
  | _ => False

end Node

namespace Stylesheet

variable {sheet : Stylesheet} {e : Evaluation}

theorem isEvaluated_of_evaluate (he : sheet.evaluate = .ok e) : e.stylesheet.IsEvaluated := by
  obtain ⟨rs, values, -, hleft⟩ := trace_of_evaluate he
  rw [hleft]
  exact Remnant.evaluated_toNodes rs

/-- Of a program a list of rules is left, with declarations of literals only. -/
theorem isConstantRule_of_evaluate (h : sheet.IsProgram) (he : sheet.evaluate = .ok e) :
    ∀ n ∈ e.stylesheet.items, n.IsConstantRule := by
  obtain ⟨hlength, hleft⟩ := List.forall₂_iff_get.1 (leftOf_of_evaluate h he)
  intro n hn
  obtain ⟨i, rfl⟩ := List.mem_iff_get.1 hn
  obtain ⟨pos, selectors, body, lines, -, hrule, hlines⟩ :=
    hleft i (Nat.lt_of_lt_of_eq i.2 hlength.symm) i.2
  rw [hrule]
  intro line hline
  rw [Remnant.toNodes_eq_map] at hline
  obtain ⟨r, hr, rfl⟩ := List.mem_map.1 hline
  obtain ⟨_, _, _, _, _, _, rfl, -⟩ := hlines.folded r hr
  trivial

end Stylesheet

/-! ## Transforms -/

namespace Transform

/-- The transform makes normal forms of normal forms. -/
def KeepsNormalForm (t : Transform) : Prop :=
  ∀ sheet sheet', sheet.IsEvaluated → t sheet = .ok sheet' → sheet'.IsEvaluated

/-- A pass of an evaluator, which may have been used before. -/
def pass (e : Evaluator) : Transform := fun sheet => (e.apply sheet).1

/-- The second list is the first one with passes of evaluators in between. -/
inductive Interleaves : List Transform → List Transform → Prop where
  | nil : Interleaves [] []
  | keep {ts ts' : List Transform} (t : Transform) (h : Interleaves ts ts') :
      Interleaves (t :: ts) (t :: ts')
  | insert {ts ts' : List Transform} (e : Evaluator) (h : Interleaves ts ts') :
      Interleaves ts (pass e :: ts')

variable {sheet : Stylesheet}

theorem pass_eq (e : Evaluator) (sheet : Stylesheet) :
    pass e sheet = sheet.evaluate.map Evaluation.stylesheet := by
  unfold pass
  rw [e.apply_eq]

theorem pass_of_isEvaluated (h : sheet.IsEvaluated) (e : Evaluator) : pass e sheet = .ok sheet := by
  rw [pass_eq, h.evaluate]
  rfl

/-- On a normal form passes of evaluators between the transforms do nothing. -/
theorem Interleaves.sequence_eq {ts ts' : List Transform} (h : Interleaves ts ts')
    (hkeep : ∀ t ∈ ts, t.KeepsNormalForm) (hsheet : sheet.IsEvaluated) :
    sequence ts' sheet = sequence ts sheet := by
  induction h generalizing sheet with
  | nil => rfl
  | keep t _ ih =>
    obtain ⟨ht, hts⟩ := List.forall_mem_cons.1 hkeep
    rw [sequence, sequence]
    cases hresult : t sheet with
    | error e => rfl
    | ok sheet' => exact ih hts (ht sheet sheet' hsheet hresult)
  | insert e _ ih =>
    rw [sequence, pass_of_isEvaluated hsheet]
    exact ih hkeep hsheet

end Transform

namespace Stylesheet

open Transform

/-- Once a tree is evaluated, further passes of evaluators do nothing. -/
theorem transform_of_interleaves (sheet : Stylesheet) {ts ts' : List Transform}
    (h : Interleaves ts ts') (hkeep : ∀ t ∈ ts, t.KeepsNormalForm) :
    sheet.transform ts' = sheet.transform ts := by
  have hfirst : Transform.evaluation sheet = sheet.evaluate.map Evaluation.stylesheet :=
    pass_eq {} sheet
  unfold transform
  rw [Transform.sequence, Transform.sequence, hfirst]
  cases he : sheet.evaluate with
  | error e => rfl
  | ok e => exact h.sequence_eq hkeep (isEvaluated_of_evaluate he)

/-- **Evaluating again changes nothing.** What the evaluator leaves of a tree is a normal form:
outside selectors there are only rules, declarations of literals and these literals in it, and what
is left of a program is a list of rules of declarations of literals. The evaluator leaves a normal
form as it is, with its positions, and finds no defect in it. So between transforms that keep the
normal form, passes of evaluators may be put in anywhere or left out. -/
theorem evaluating_again (sheet : Stylesheet) :
    (∀ e, sheet.evaluate = .ok e →
      e.stylesheet.IsEvaluated ∧
      (∀ (path : Path) (n : Node), path ≠ [] → path.OutsideSelectors →
        e.stylesheet.toNode.at? path = some n → n.IsNormal) ∧
      (sheet.IsProgram → ∀ n ∈ e.stylesheet.items, n.IsConstantRule) ∧
      e.stylesheet.evaluate = .ok ⟨e.stylesheet, []⟩) ∧
    ∀ ts, (∀ t ∈ ts, t.KeepsNormalForm) → ∀ ts' ts'', Interleaves ts ts' → Interleaves ts ts'' →
      sheet.transform ts' = sheet.transform ts'' := by
  refine ⟨fun e he => ?_, fun ts hkeep ts' ts'' h' h'' => ?_⟩
  · have hnormal := isEvaluated_of_evaluate he
    exact ⟨hnormal, fun path n => hnormal.at?, fun h => isConstantRule_of_evaluate h he,
      hnormal.evaluate⟩
  · rw [sheet.transform_of_interleaves h' hkeep, sheet.transform_of_interleaves h'' hkeep]

/-- A declaration at the top level and a rule in a rule, which are no program, with a defect; and
evaluators before and after a transform. -/
theorem evaluating_again_misplaced :
    let width (e : Node) : Node := .declaration ⟨some 1, some 1⟩ "width" e
    let sheet (e : Node) : Stylesheet := { items := [width e, .rule {} [] [.rule {} [] [width e]]] }
    let zero : Node := .literal {} (.number .scalar 0)
    let evaluated : Stylesheet := sheet zero
    (∃ e, (sheet (.reference {} "B")).evaluate = .ok e ∧ e.stylesheet = evaluated) ∧
      evaluated.IsEvaluated ∧ evaluated.evaluate = .ok ⟨evaluated, []⟩ ∧
      Transform.reverse.KeepsNormalForm ∧
      (sheet (.reference {} "B")).transform [pass {}, .reverse, pass {}, pass {}] =
        (sheet (.reference {} "B")).transform [.reverse] := by
  intro width sheet zero evaluated
  have he : (sheet (.reference {} "B")).evaluate = .ok ⟨evaluated, _⟩ := rfl
  have hkeep : Transform.reverse.KeepsNormalForm := by
    intro sheet sheet' h hresult
    obtain rfl := Except.ok.inj hresult
    exact fun n hn => h n (List.mem_reverse.1 hn)
  obtain ⟨hevaluated, hpasses⟩ := evaluating_again (sheet (.reference {} "B"))
  obtain ⟨hnormal, -, -, hagain⟩ := hevaluated _ he
  refine ⟨⟨_, he, rfl⟩, hnormal, hagain, hkeep, ?_⟩
  refine hpasses [.reverse] (by simpa using hkeep) _ _ ?_ (.keep _ .nil)
  exact .insert _ (.keep _ (.insert _ (.insert _ .nil)))

end Stylesheet

end StyleLang
