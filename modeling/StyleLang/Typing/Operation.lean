import StyleLang.Syntax.Node
import StyleLang.Typing.Operand

/-!
# The type of a node as an operation

The type that an operation node has for given types of its operands, whatever its operands are.
-/

namespace StyleLang

inductive OperationError where
  | notOperation (kind : String)
  | operands (reason : OperandError)
  deriving DecidableEq, Repr

def OperationError.message : OperationError → String
  | notOperation kind => s!"Not an operation: {kind}"
  | operands reason => reason.message

/-- The measure of an operation node on operands of the given types. -/
def Node.operationMeasure (node : Node) (left right : ValueType) :
    Except OperationError Measure :=
  match node with
  | .operation _ op _ _ =>
    match op.measure left right with
    | .ok m => .ok m
    | .error reason => .error (.operands reason)
  | node => .error (.notOperation node.kindName)

end StyleLang
