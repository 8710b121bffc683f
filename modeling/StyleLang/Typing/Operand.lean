import StyleLang.Syntax.Value

/-!
# Types of operations

An operation always yields a number. A product takes a scalar and a number of any measure, in either
order; a sum or a difference takes two numbers of one measure. Values are combined under the same
rules as their types.
-/

namespace StyleLang

/-- Why two operands do not combine. -/
inductive OperandError where
  | colorFactor
  | mixedFactors (left right : ValueType)
  | colorTerm
  | mixedTerms (left : ValueType) (symbol : String) (right : ValueType)
  deriving DecidableEq, Repr

def OperandError.message : OperandError → String
  | colorFactor => "multiplication with color is not allowed"
  | mixedFactors l r => s!"invalid multiplication: {l.name} * {r.name}"
  | colorTerm => "color is not allowed in addition or subtraction"
  | mixedTerms l symbol r =>
    s!"invalid addition/subtraction: {l.name} {symbol} {r.name} are not compatible"

/-- The measure of a product. -/
def productMeasure (left right : ValueType) : Except OperandError Measure :=
  match left, right with
  | .number .scalar, .number m => .ok m
  | .number m, .number .scalar => .ok m
  | _, _ =>
    if left = .color ∨ right = .color then .error .colorFactor
    else .error (.mixedFactors left right)

/-- The measure of a sum or a difference; the symbol is that of the message. -/
def sumMeasure (symbol : String) (left right : ValueType) : Except OperandError Measure :=
  if left = .color ∨ right = .color then .error .colorTerm
  else
    match left, right with
    | .number m, .number n =>
      if m = n then .ok m else .error (.mixedTerms left symbol right)
    | _, _ => .error (.mixedTerms left symbol right)

namespace Operator

/-- The measure of an operation on operands of the given types. -/
def measure (op : Operator) (left right : ValueType) : Except OperandError Measure :=
  match op with
  | multiply => productMeasure left right
  | add => sumMeasure add.symbol left right
  | subtract => sumMeasure subtract.symbol left right

/-- The operation on values: a number of the measure that their types give. -/
def combine (op : Operator) (left right : Value) : Except OperandError Value :=
  match op.measure left.type right.type with
  | .ok m => .ok (.number m (op.compute left.amount right.amount))
  | .error e => .error e

end Operator

end StyleLang
