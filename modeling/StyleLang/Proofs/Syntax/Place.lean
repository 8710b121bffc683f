import StyleLang.Syntax.Node
import StyleLang.Syntax.Path

/-!
# Nodes at paths

What stands at the end of a path, so that a statement about every node of a tree, at whatever depth,
can be made. Evaluation and checking never look into selectors; a path that leads through none of
them stays among statements and expressions.
-/

namespace StyleLang

namespace Node

/-- The node at the end of one edge. -/
def child? : Node → Step → Option Node
  | sheet _ items, .item i => items[i]?
  | rule _ selectors _, .selector i => selectors[i]?
  | rule _ _ body, .body i => body[i]?
  | conditional _ condition _ _, .condition => some condition
  | conditional _ _ body _, .body i => body[i]?
  | conditional _ _ _ (some elseBody), .elseBody i => elseBody[i]?
  | declaration _ _ expression, .expression => some expression
  | assignment _ _ expression, .expression => some expression
  | operation _ _ lhs _, .lhs => some lhs
  | operation _ _ _ rhs, .rhs => some rhs
  | _, _ => none

/-- The node at the end of a path. -/
def at? (node : Node) : Path → Option Node
  | [] => some node
  | step :: path => (node.child? step).bind fun child => child.at? path

theorem at?_nil (node : Node) : node.at? [] = some node := rfl

theorem at?_cons (node : Node) (step : Step) (path : Path) :
    node.at? (step :: path) = (node.child? step).bind fun child => child.at? path := rfl

theorem at?_append (node : Node) (path rest : Path) :
    node.at? (path ++ rest) = (node.at? path).bind fun n => n.at? rest := by
  induction path generalizing node with
  | nil => rfl
  | cons step path ih =>
    rw [List.cons_append, at?_cons, at?_cons, Option.bind_assoc]
    exact congrArg _ (funext fun child => ih child)

end Node

/-- The path leads through no selector. -/
def Path.OutsideSelectors (path : Path) : Prop := ∀ i, Step.selector i ∉ path

namespace Path.OutsideSelectors

theorem tail {step : Step} {path : Path} (h : OutsideSelectors (step :: path)) :
    OutsideSelectors path := fun i hi => h i (List.mem_cons_of_mem _ hi)

theorem head_ne {step : Step} {path : Path} (h : OutsideSelectors (step :: path)) (i : Nat) :
    step ≠ .selector i := fun he => h i (he ▸ List.mem_cons_self)

theorem cons {step : Step} {path : Path} (hstep : ∀ i, step ≠ .selector i)
    (h : OutsideSelectors path) : OutsideSelectors (step :: path) := fun i hi =>
  (List.mem_cons.1 hi).elim (fun he => hstep i he.symm) (h i)

theorem of_append {path rest : Path} (h : OutsideSelectors (path ++ rest)) :
    OutsideSelectors rest := fun i hi => h i (List.mem_append_right path hi)

end Path.OutsideSelectors

end StyleLang
