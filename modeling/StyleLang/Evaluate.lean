import StyleLang.Pass.Walk

/-!
# The evaluator

The evaluator folds every expression to a literal and takes out assignments and conditionals, so
that style rules with declarations of literals are left. It fails on no problem of a program: each
one is a defect, and the fallback, a scalar zero, stands in for what has no value. A literal keeps
the position at which it was written, also where a variable brings it to another place; a computed
one has none.
-/

namespace StyleLang

/-- The literal that a name stands for. -/
structure Constant where
  value : Value
  pos : Position := {}
  deriving DecidableEq, Repr

namespace Constant

def fallback : Constant := { value := .number .scalar 0 }

def toNode (c : Constant) : Node := .literal c.pos c.value

end Constant

namespace Evaluate

/-- The literal that an expression folds to, under the literals of the names. -/
def fold (values : String → Option Constant) : Node → Report Constant
  | .literal pos value => pure { value, pos }
  | .reference pos name =>
    match values name with
    | some c => pure c
    | none => do
      Report.note .defect pos (.unknownVariable name)
      pure .fallback
  | .operation pos op lhs rhs => do
    let left ← (fold values lhs).under .lhs
    let right ← (fold values rhs).under .rhs
    match op.combine left.value right.value with
    | .ok value => pure { value }
    | .error reason => do
      Report.note .defect pos (.operands reason)
      pure .fallback
  | node => Report.fault (.ofNode node)

/-- The branch that a conditional takes, if that branch is there: the first one only if the
condition is true, the other one also if the condition is no truth value. -/
def choose (values : String → Option Constant) (pos : Position) (condition : Node) :
    Report Bool := do
  let c ← (fold values condition).under .condition
  match c.value with
  | .bool b => pure b
  | value => do
    Report.note .defect pos (.conditionType (some value.type))
    pure false

mutual

/-- What is left of a statement. -/
def statement : Node → Walk Constant (List Node)
  | .assignment _ name expression => do
    let c ← Walk.reading fun values => (fold values expression).under .expression
    Walk.assign name c
    pure []
  | .conditional pos cond body elseBody => do
    if ← Walk.reading fun values => choose values pos cond then
      Walk.child (block .body 0 body)
    else
      match elseBody with
      | none => pure []
      | some elseBody => Walk.child (block .elseBody 0 elseBody)
  | .declaration pos property expression => do
    let c ← Walk.reading fun values => (fold values expression).under .expression
    pure [.declaration pos property c.toNode]
  | .rule pos selectors body => do
    let body ← Walk.child (block .body 0 body)
    pure [.rule pos selectors body]
  | node => Walk.fault (.ofNode node)

/-- What is left of the statements of a block; `edge` leads to the one at an index. -/
def block (edge : Nat → Step) (index : Nat) : List Node → Walk Constant (List Node)
  | [] => pure []
  | node :: nodes => do
    let first ← (statement node).under (edge index)
    let rest ← block edge (index + 1) nodes
    pure (first ++ rest)

end

end Evaluate

/-- An evaluator may run more than once. It keeps the scopes and the defects of its last run, and a
new run clears them first. -/
structure Evaluator where
  scopes : Scopes Constant := {}
  defects : List Finding := []

/-- The evaluated tree, or the fault that stopped the run; the defects stay with the evaluator. -/
def Evaluator.apply (e : Evaluator) (sheet : Stylesheet) : Except Fault Stylesheet × Evaluator :=
  let (report, scopes) := Evaluate.block .item 0 sheet.items (e.scopes.clear.push {})
  (report.result.map fun items => { sheet with items }, ⟨scopes.clear, report.findings⟩)

/-- An evaluated tree and the defects met on the way. -/
structure Evaluation where
  stylesheet : Stylesheet
  defects : List Finding

def Evaluation.isClean (e : Evaluation) : Bool := e.defects.isEmpty

def Stylesheet.evaluate (sheet : Stylesheet) : Except Fault Evaluation :=
  let (result, e) := ({} : Evaluator).apply sheet
  result.map fun stylesheet => { stylesheet, defects := e.defects }

end StyleLang
