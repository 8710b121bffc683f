import StyleLang.Syntax.Node
import StyleLang.Syntax.Path
import StyleLang.Typing.Operand
import StyleLang.Typing.Property

/-!
# Findings

A finding is a problem with the node that has it. The checker finds errors; the evaluator finds
defects, each of which it replaced by a fallback. Two findings are alike if they have the same
severity, rule and message, wherever they were found. The text of a finding shows its position, so
that it can be written only if no number in the position is over the limit on digits.
-/

namespace StyleLang

/-- What can be wrong with a node. -/
inductive Problem where
  | unknownVariable (name : String)
  | untypedOperand (op : Operator)
  | operands (reason : OperandError)
  | untypedAssignment (name : String)
  | unknownProperty (property : String)
  | propertyType (property : String) (got : Option ValueType)
  | conditionType (got : Option ValueType)
  /-- A problem that comes with its own words. -/
  | custom (rule message : String)
  deriving DecidableEq, Repr

namespace Problem

/-- The rule that the problem breaks. -/
def rule : Problem → String
  | unknownVariable _ => "unknown_variable"
  | untypedOperand _ => "operand_types"
  | operands _ => "operand_types"
  | untypedAssignment _ => "unresolved_assignment"
  | unknownProperty _ => "property_not_allowed"
  | propertyType _ _ => "property_type"
  | conditionType _ => "condition_type"
  | custom rule _ => rule

def message : Problem → String
  | unknownVariable name => s!"unknown variable: {name}"
  | untypedOperand op => s!"invalid operand(s) for {op.symbol}"
  | operands reason => reason.message
  | untypedAssignment name =>
    s!"cannot determine the type of the expression assigned to '{name}'"
  | unknownProperty property => s!"property '{property}' is not allowed"
  | propertyType property got =>
    let expected := ValueType.describe (Property.expectedTypes property)
    let found := ValueType.nameOrUnknown got
    s!"property '{Property.canonical property}' expects {expected}, got {found}"
  | conditionType got =>
    let found := ValueType.nameOrUnknown got
    s!"if-condition must be bool, got {found}"
  | custom _ message => message

end Problem

inductive Severity where
  | error
  | defect
  deriving DecidableEq, Repr

def Severity.label : Severity → String
  | error => "ERROR"
  | defect => "DEFECT"

/-- A problem, the position of the node that has it, and the way to that node. -/
structure Finding where
  severity : Severity
  problem : Problem
  pos : Position := {}
  path : Path := []
  deriving DecidableEq, Repr

namespace Finding

def rule (f : Finding) : String := f.problem.rule

def message (f : Finding) : String := f.problem.message

/-- Where a finding is, in brackets; nothing if its line is not known. -/
def location (pos : Position) : String :=
  match pos.line, pos.column with
  | none, _ => ""
  | some line, some column => s!" [line {line}:{column}]"
  | some line, none => s!" [line {line}:None]"

def text (f : Finding) : String :=
  f.severity.label ++ location f.pos ++ ": " ++ f.message

/-- The text of the finding can be written. -/
def printable (f : Finding) : Bool := f.pos.printable

/-- The text of the finding, if it can be written. -/
def print? (f : Finding) : Option String := if f.printable then some f.text else none

/-- The finding seen from one edge further up. -/
def under (step : Step) (f : Finding) : Finding := { f with path := step :: f.path }

def alike (f g : Finding) : Bool :=
  decide (f.severity = g.severity ∧ f.rule = g.rule ∧ f.message = g.message)

/-- The texts of findings in one line, if all of them can be written. -/
def summary? (fs : List Finding) : Option String :=
  (fs.mapM print?).map fun texts => "; ".intercalate texts

@[simp] theorem under_problem (step : Step) (f : Finding) : (f.under step).problem = f.problem :=
  rfl

@[simp] theorem under_pos (step : Step) (f : Finding) : (f.under step).pos = f.pos := rfl

@[simp] theorem under_path (step : Step) (f : Finding) :
    (f.under step).path = step :: f.path := rfl

@[simp] theorem under_text (step : Step) (f : Finding) : (f.under step).text = f.text := rfl

end Finding

end StyleLang
