import Mathlib.Order.Defs.Unbundled
import StyleLang.Syntax.Path

/-!
# The order of the nodes

The order in which a tree is gone through: the operands of an operation from left to right and then
the operation, an expression before the statement that holds it, a condition before its conditional,
that before its branches, and the statements of a block one after the other. Main statement: places
are strictly ordered by it.
-/

namespace StyleLang

/-- When the node at the end of the edge has its turn, while the node that the edge leads from has
its own at stage 2. -/
def Step.stage : Step → Nat
  | lhs | condition | expression => 0
  | rhs => 1
  | item _ | body _ => 3
  | elseBody _ => 4
  | selector _ => 5

/-- The turn within a stage. -/
def Step.index : Step → Nat
  | item i | selector i | body i | elseBody i => i
  | _ => 0

namespace Path

/-- When the node at the end of the path has its turn among those at and below its beginning. -/
def stage : Path → Nat
  | [] => 2
  | step :: _ => step.stage

def index : Path → Nat
  | [] => 0
  | step :: _ => step.index

/-- The node at the end of the first path has its turn before the one at the end of the second. -/
inductive Earlier : Path → Path → Prop where
  | apart {p q : Path} (h : p.stage < q.stage ∨ p.stage = q.stage ∧ p.index < q.index) :
      Earlier p q
  | inside (step : Step) {p q : Path} (h : Earlier p q) : Earlier (step :: p) (step :: q)

theorem not_earlier_self (p : Path) : ¬ Earlier p p := by
  induction p with
  | nil =>
    intro h
    cases h with
    | apart h => omega
  | cons step p ih =>
    intro h
    cases h with
    | apart h => omega
    | inside _ h => exact ih h

theorem Earlier.trans {p q r : Path} (h : Earlier p q) (h' : Earlier q r) : Earlier p r := by
  induction h generalizing r with
  | apart h =>
    cases h' with
    | apart h' => exact .apart (by omega)
    | inside => exact .apart h
  | inside step h ih =>
    cases h' with
    | apart h' => exact .apart h'
    | inside _ h' => exact .inside step (ih h')

instance : IsStrictOrder Path Earlier where
  irrefl := not_earlier_self
  trans _ _ _ := Earlier.trans

end Path

end StyleLang
