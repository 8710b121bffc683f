import StyleLang.Proofs.Pass.Lexical
import StyleLang.Proofs.Pass.Yields

/-!
# What is left of the items

Of the items of a program the evaluator drops the assignments and keeps the rules. Main statement:
what is left are the rules of the source one by one, each with its position and its selectors.
-/

namespace StyleLang

namespace Node

/-- An assignment or a rule. -/
def IsTopLevel : Node → Prop
  | assignment _ _ _ => True
  | rule _ _ _ => True
  | _ => False

/-- The position and the selectors of a rule. -/
def heading? : Node → Option (Position × List Node)
  | rule pos selectors _ => some (pos, selectors)
  | _ => none

end Node

namespace Evaluate

variable {admits : Problem → Prop} {values values' : Env Constant} {out : List Node}

/-- Of an assignment nothing is left, and of a rule one with its heading. -/
theorem headings_item {node : Node} (h : node.IsTopLevel)
    (hy : (Lexical.statement node values).Yields admits (out, values')) :
    out.map Node.heading? = ([node].filter Node.isRule).map Node.heading? := by
  cases node with
  | assignment pos name e =>
    rw [Lexical.statement] at hy
    simp only [Passing.bind_def, Passing.yields_andThen, Passing.pure_def, Passing.yields_ok] at hy
    obtain ⟨c, mid, -, u, mid', -, rfl, -⟩ := hy
    rfl
  | rule pos selectors body =>
    rw [Lexical.statement] at hy
    simp only [Passing.bind_def, Passing.yields_andThen, Passing.pure_def, Passing.yields_ok] at hy
    obtain ⟨body', mid, -, rfl, -⟩ := hy
    rfl
  | _ => exact h.elim

theorem headings_items {edge : Nat → Step} {index : Nat} {nodes : List Node}
    (h : ∀ n ∈ nodes, n.IsTopLevel)
    (hy : (Lexical.block edge index nodes values).Yields admits (out, values')) :
    out.map Node.heading? = (nodes.filter Node.isRule).map Node.heading? := by
  induction nodes generalizing index values values' out with
  | nil =>
    rw [Lexical.block, Passing.pure_def, Passing.yields_ok] at hy
    rw [hy.1]
    rfl
  | cons node nodes ih =>
    rw [Lexical.block] at hy
    simp only [Passing.bind_def, Passing.yields_andThen, Passing.yields_under, Passing.pure_def,
      Passing.yields_ok] at hy
    obtain ⟨first, mid, hfirst, rest, mid', hrest, rfl, -⟩ := hy
    have hnode := headings_item (h node List.mem_cons_self) hfirst
    have hnodes := ih (fun n hn => h n (List.mem_cons_of_mem _ hn)) hrest
    rw [List.map_append, hnode, hnodes, ← List.map_append, ← List.filter_append]
    rfl

end Evaluate

namespace Stylesheet

variable {sheet : Stylesheet} {e : Evaluation}

/-- What is left are the rules of the source, with their positions and selectors. -/
theorem headings_of_evaluate (h : ∀ n ∈ sheet.items, n.IsTopLevel) (he : sheet.evaluate = .ok e) :
    e.stylesheet.items.map Node.heading? = sheet.rules.map Node.heading? := by
  obtain ⟨items, values, hreport, hleft⟩ := evaluate_ok_iff.1 he
  rw [hleft]
  have hy : sheet.evaluateReport.Yields (fun _ => True) (items, values) :=
    ⟨congrArg Report.result hreport, fun _ _ => trivial⟩
  exact Evaluate.headings_items h hy

/-- As many rules are left as the source has. -/
theorem length_of_evaluate (h : ∀ n ∈ sheet.items, n.IsTopLevel) (he : sheet.evaluate = .ok e) :
    e.stylesheet.items.length = sheet.rules.length := by
  have hlength := congrArg List.length (headings_of_evaluate h he)
  rwa [List.length_map, List.length_map] at hlength

end Stylesheet

end StyleLang
