import StyleLang.Proofs.Pass.Lexical
import StyleLang.Proofs.Syntax.Place

/-!
# Normal forms

A tree in normal form has nothing to evaluate: there are only rules and declarations of literals in
it. Main statement: the evaluator leaves it as it is, with its positions, and finds no defect.
-/

namespace StyleLang

/-- A declaration of a literal, or a rule of such statements. -/
inductive Node.Evaluated : Node → Prop where
  | declaration {pos pos' : Position} {property : String} {value : Value} :
      Evaluated (.declaration pos property (.literal pos' value))
  | rule {pos : Position} {selectors body : List Node} (h : ∀ n ∈ body, Evaluated n) :
      Evaluated (.rule pos selectors body)

namespace Node

/-- A rule, a declaration of a literal, or a literal. -/
def IsNormal : Node → Prop
  | rule _ _ _ => True
  | declaration _ _ (literal _ _) => True
  | literal _ _ => True
  | _ => False

theorem Evaluated.isNormal {n : Node} (h : n.Evaluated) : n.IsNormal := by
  cases h <;> trivial

/-- Outside selectors there are only normal nodes. -/
theorem Evaluated.at? {n m : Node} (h : n.Evaluated) {path : Path} (hp : path.OutsideSelectors)
    (hat : n.at? path = some m) : m.IsNormal := by
  induction path generalizing n with
  | nil =>
    obtain rfl := Option.some.inj hat
    exact h.isNormal
  | cons step path ih =>
    obtain ⟨child, hchild, hrest⟩ := Option.bind_eq_some_iff.1 hat
    cases h with
    | rule h =>
      cases step with
      | body i => exact ih (h child (List.mem_of_getElem? hchild)) hp.tail hrest
      | selector i => exact absurd rfl (hp.head_ne i)
      | _ => cases hchild
    | declaration =>
      cases step with
      | expression =>
        obtain rfl := Option.some.inj hchild
        cases path with
        | nil =>
          obtain rfl := Option.some.inj hrest
          trivial
        | cons step path => cases step <;> cases hrest
      | _ => cases hchild

end Node

/-! ## Evaluating a normal form -/

namespace Evaluate

/-- What leaves each statement as it is leaves a block of them as it is. -/
theorem block_of_kept {nodes : List Node}
    (h : ∀ n ∈ nodes, ∀ values, Lexical.statement n values = Report.ok ([n], values))
    (edge : Nat → Step) (index : Nat) (values : Env Constant) :
    Lexical.block edge index nodes values = Report.ok (nodes, values) := by
  induction nodes generalizing index with
  | nil =>
    rw [Lexical.block]
    rfl
  | cons n nodes ih =>
    have hn := h n List.mem_cons_self values
    have hrest := ih (fun m hm => h m (List.mem_cons_of_mem _ hm)) (index + 1)
    rw [Lexical.block]
    simp only [Passing.bind_def, Passing.andThen, Passing.under, hn, hrest, Report.under_ok,
      Report.ok_andThen, Passing.pure_def, Passing.ok]
    rfl

theorem statement_of_evaluated {n : Node} (h : n.Evaluated) (values : Env Constant) :
    Lexical.statement n values = Report.ok ([n], values) := by
  induction h generalizing values with
  | declaration =>
    rw [Lexical.statement]
    rfl
  | rule _ ih =>
    have hbody := block_of_kept ih .body 0 values
    rw [Lexical.statement]
    simp only [Passing.bind_def, Passing.andThen, Passing.child, hbody, Report.ok_andThen,
      Passing.pure_def, Passing.ok]

end Evaluate

namespace Stylesheet

/-- There is nothing to evaluate in the tree. -/
def IsEvaluated (sheet : Stylesheet) : Prop := ∀ n ∈ sheet.items, n.Evaluated

variable {sheet : Stylesheet}

theorem IsEvaluated.at? (h : sheet.IsEvaluated) {path : Path} {n : Node} (hroot : path ≠ [])
    (hp : path.OutsideSelectors) (hat : sheet.toNode.at? path = some n) : n.IsNormal := by
  cases path with
  | nil => exact absurd rfl hroot
  | cons step path =>
    obtain ⟨child, hchild, hrest⟩ := Option.bind_eq_some_iff.1 hat
    cases step with
    | item i => exact (h child (List.mem_of_getElem? hchild)).at? hp.tail hrest
    | _ => cases hchild

/-- The evaluator leaves a normal form as it is. -/
theorem IsEvaluated.evaluate (h : sheet.IsEvaluated) : sheet.evaluate = .ok ⟨sheet, []⟩ := by
  have hblock : sheet.evaluateReport = Report.ok (sheet.items, .empty) :=
    Evaluate.block_of_kept (fun n hn => Evaluate.statement_of_evaluated (h n hn)) .item 0 .empty
  rw [evaluate_eq, hblock]
  rfl

end Stylesheet

end StyleLang
