import StyleLang.Pass.Walk

/-!
# The checker

The checker gives every expression a type where it has one, and reports each type and scoping
problem of a tree. It does not stop at a problem: a node that has one is still entered. An
expression without a type has at least one finding in it, so nothing is reported a second time about
a bare reference that is unknown, and an assignment of such an expression binds nothing.
-/

namespace StyleLang

namespace Check

/-- Where nothing more is said about the lack of a type: a bare reference. -/
def alreadyReported (expression : Node) (type : Option ValueType) : Bool :=
  match expression, type with
  | .reference _ _, none => true
  | _, _ => false

/-- The type of an operation whose operands may have none. -/
def operationType (pos : Position) (op : Operator) (left right : Option ValueType) :
    Report (Option ValueType) :=
  match left, right with
  | some l, some r =>
    match op.measure l r with
    | .ok m => pure (some (.number m))
    | .error reason => do
      Report.note .error pos (.operands reason)
      pure none
  | _, _ => do
    Report.note .error pos (.untypedOperand op)
    pure none

/-- The type of an expression, if it has one, under the types of the names. -/
def infer (types : String → Option ValueType) : Node → Report (Option ValueType)
  | .literal _ value => pure (some value.type)
  | .reference pos name =>
    match types name with
    | some t => pure (some t)
    | none => do
      Report.note .error pos (.unknownVariable name)
      pure none
  | .operation pos op lhs rhs => do
    let left ← (infer types lhs).under .lhs
    let right ← (infer types rhs).under .rhs
    operationType pos op left right
  | node => Report.fault (.ofNode node)

/-- A declaration sets a property that may be set, to a value of a type that it expects. -/
def declaration (types : String → Option ValueType) (pos : Position) (property : String)
    (expression : Node) : Report Unit := do
  let type ← (infer types expression).under .expression
  match Property.types? property with
  | none => Report.note .error pos (.unknownProperty property)
  | some allowed =>
    if type.any (fun t => decide (t ∈ allowed)) || alreadyReported expression type then pure ()
    else Report.note .error pos (.propertyType property type)

/-- A condition is a truth value. -/
def condition (types : String → Option ValueType) (pos : Position) (expression : Node) :
    Report Unit := do
  let type ← (infer types expression).under .condition
  if type = some .bool || alreadyReported expression type then pure ()
  else Report.note .error pos (.conditionType type)

/-- An assignment binds its name to the type of its expression. -/
def assignment (pos : Position) (name : String) (expression : Node) : Walk ValueType Unit := do
  match ← Walk.reading fun types => (infer types expression).under .expression with
  | some t => Walk.assign name t
  | none => Walk.note .error pos (.untypedAssignment name)

mutual

def statement : Node → Walk ValueType Unit
  | .rule _ _ body => Walk.child (block .body 0 body)
  | .assignment pos name expression => assignment pos name expression
  | .declaration pos property expression =>
    Walk.reading fun types => declaration types pos property expression
  | .conditional pos cond body elseBody => do
    Walk.reading fun types => condition types pos cond
    Walk.child (block .body 0 body)
    match elseBody with
    | none => pure ()
    | some elseBody => Walk.child (block .elseBody 0 elseBody)
  | node => Walk.fault (.ofNode node)

/-- The statements of a block in order; `edge` leads to the one at an index. -/
def block (edge : Nat → Step) (index : Nat) : List Node → Walk ValueType Unit
  | [] => pure ()
  | node :: nodes => do
    (statement node).under (edge index)
    block edge (index + 1) nodes

end

end Check

/-- A checker may run more than once. It keeps the scopes and the findings of its last run, and a
new run clears them first. -/
structure Checker where
  scopes : Scopes ValueType := {}
  findings : List Finding := []

namespace Checker

/-- Everything that is wrong with a tree, or the fault that stopped the run. -/
def check (c : Checker) (sheet : Stylesheet) : Except Fault (List Finding) × Checker :=
  let (report, scopes) := Check.block .item 0 sheet.items (c.scopes.clear.push {})
  (report.result.map fun _ => report.findings, ⟨scopes.clear, report.findings⟩)

end Checker

/-- Everything that is wrong with a tree. -/
def Stylesheet.check (sheet : Stylesheet) : Except Fault (List Finding) :=
  (({} : Checker).check sheet).1

/-- The words for a tree that has findings, if they can be written. -/
def checkFailure? (findings : List Finding) : Option String :=
  (Finding.summary? findings).map fun summary =>
    s!"Check failed with {findings.length} error(s): {summary}"

end StyleLang
