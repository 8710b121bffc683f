/-!
# Places in a tree

A path leads from the root of a tree to one of its nodes, a step per edge.
-/

namespace StyleLang

inductive Step where
  | item (index : Nat)
  | selector (index : Nat)
  | body (index : Nat)
  | elseBody (index : Nat)
  | condition
  | expression
  | lhs
  | rhs
  deriving DecidableEq, Repr

/-- The steps to a node, the first one from the root. -/
abbrev Path := List Step

def Step.text : Step → String
  | item i => s!"items[{i}]"
  | selector i => s!"selectors[{i}]"
  | body i => s!"body[{i}]"
  | elseBody i => s!"else_body[{i}]"
  | condition => "condition"
  | expression => "expression"
  | lhs => "lhs"
  | rhs => "rhs"

def Path.text (path : Path) : String := ".".intercalate (path.map Step.text)

end StyleLang
