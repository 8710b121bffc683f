import StyleLang.Syntax.Value

/-!
# Syntax trees

A node may stand at any place of a tree. Only some trees are programs: those a reader builds, and
those that put statements where statements belong and expressions where expressions belong. Two
nodes are the same if they differ in their positions only. Selectors and expressions have texts of
their own; any other node is written as a record, its kind with all its fields.
-/

namespace StyleLang

/-- Where something stands in a text, counted from one, as far as it is known. -/
structure Position where
  line : Option Int := none
  column : Option Int := none
  deriving DecidableEq, Repr

/-- The line and the column can be written; nothing is written where the line is not known. -/
def Position.printable (pos : Position) : Bool :=
  match pos.line with
  | none => true
  | some line => withinLimit line && pos.column.all withinLimit

inductive SelectorKind where
  | tag
  | className
  | id
  deriving DecidableEq, Repr

/-- What stands before the name in a selector. -/
def SelectorKind.mark : SelectorKind → String
  | tag => ""
  | className => "."
  | id => "#"

/-- What the name in a selector is called in a record. -/
def SelectorKind.field : SelectorKind → String
  | tag => "tag"
  | className => "name"
  | id => "id"

inductive Node where
  | selector (pos : Position) (kind : SelectorKind) (name : String)
  | literal (pos : Position) (value : Value)
  | reference (pos : Position) (name : String)
  | operation (pos : Position) (op : Operator) (lhs rhs : Node)
  | declaration (pos : Position) (property : String) (expression : Node)
  | assignment (pos : Position) (name : String) (expression : Node)
  | conditional (pos : Position) (condition : Node) (body : List Node)
      (elseBody : Option (List Node))
  | rule (pos : Position) (selectors body : List Node)
  | sheet (pos : Position) (items : List Node)
  deriving Repr

/-- The root of a tree. -/
structure Stylesheet where
  pos : Position := {}
  items : List Node := []
  deriving Repr

namespace Node

def position : Node → Position
  | selector pos _ _ => pos
  | literal pos _ => pos
  | reference pos _ => pos
  | operation pos _ _ _ => pos
  | declaration pos _ _ => pos
  | assignment pos _ _ => pos
  | conditional pos _ _ _ => pos
  | rule pos _ _ => pos
  | sheet pos _ => pos

/-- The name of a node's kind in messages. -/
def kindName : Node → String
  | selector _ .tag _ => "TagSelector"
  | selector _ .className _ => "ClassSelector"
  | selector _ .id _ => "IdSelector"
  | literal _ (.number .pixel _) => "PixelLiteral"
  | literal _ (.number .percentage _) => "PercentageLiteral"
  | literal _ (.number .scalar _) => "ScalarLiteral"
  | literal _ (.color _) => "ColorLiteral"
  | literal _ (.bool _) => "BoolLiteral"
  | reference _ _ => "VariableReference"
  | operation _ .add _ _ => "AddOperation"
  | operation _ .subtract _ _ => "SubtractOperation"
  | operation _ .multiply _ _ => "MultiplyOperation"
  | declaration _ _ _ => "Declaration"
  | assignment _ _ _ => "VariableAssignment"
  | conditional _ _ _ _ => "IfClause"
  | rule _ _ _ => "StyleRule"
  | sheet _ _ => "Stylesheet"

/-- A kind and its fields, each by its name. -/
def record (kind : String) (fields : List (String × String)) : String :=
  kind ++ "(" ++ ", ".intercalate (fields.map fun f => f.1 ++ "=" ++ f.2) ++ ")"

/-- A row of members; a comma after a single one tells it from that member in parentheses. -/
def row : List String → String
  | [member] => "(" ++ member ++ ",)"
  | members => "(" ++ ", ".intercalate members ++ ")"

mutual

/-- The node with all its fields, its position left out. -/
def description : Node → String
  | selector pos kind name =>
    record (selector pos kind name).kindName [(kind.field, Quoted.text name)]
  | literal pos value => record (literal pos value).kindName [("value", value.description)]
  | reference _ name => record "VariableReference" [("name", Quoted.text name)]
  | operation pos op lhs rhs =>
    record (operation pos op lhs rhs).kindName
      [("lhs", lhs.description), ("rhs", rhs.description)]
  | declaration _ property expression =>
    record "Declaration"
      [("property", Quoted.text property), ("expression", expression.description)]
  | assignment _ name expression =>
    record "VariableAssignment"
      [("name", Quoted.text name), ("expression", expression.description)]
  | conditional _ condition body none =>
    record "IfClause" [("condition", condition.description), ("body", row (descriptions body)),
      ("else_body", "None")]
  | conditional _ condition body (some elseBody) =>
    record "IfClause" [("condition", condition.description), ("body", row (descriptions body)),
      ("else_body", row (descriptions elseBody))]
  | rule _ selectors body =>
    record "StyleRule"
      [("selectors", row (descriptions selectors)), ("body", row (descriptions body))]
  | sheet _ items => record "Stylesheet" [("items", row (descriptions items))]

/-- `description`, member by member. -/
def descriptions : List Node → List String
  | [] => []
  | n :: ns => n.description :: descriptions ns

end

/-- The text of a selector or an expression; operations are written without brackets. A node of
another kind has no text of its own and is described. -/
def text : Node → String
  | selector _ kind name => kind.mark ++ name
  | literal _ value => value.text
  | reference _ name => name
  | operation _ op lhs rhs => lhs.text ++ " " ++ op.symbol ++ " " ++ rhs.text
  | node => node.description

mutual

/-- No number in the node is over the limit on digits, so that its text and its description can be
written. -/
def printable : Node → Bool
  | selector _ _ _ => true
  | literal _ value => value.printable
  | reference _ _ => true
  | operation _ _ lhs rhs => lhs.printable && rhs.printable
  | declaration _ _ expression => expression.printable
  | assignment _ _ expression => expression.printable
  | conditional _ condition body none => condition.printable && allPrintable body
  | conditional _ condition body (some elseBody) =>
    condition.printable && allPrintable body && allPrintable elseBody
  | rule _ selectors body => allPrintable selectors && allPrintable body
  | sheet _ items => allPrintable items

/-- `printable`, member by member. -/
def allPrintable : List Node → Bool
  | [] => true
  | n :: ns => n.printable && allPrintable ns

end

/-- The type of a literal. -/
def literalType? : Node → Option ValueType
  | literal _ value => some value.type
  | _ => none

def isRule : Node → Bool
  | rule _ _ _ => true
  | _ => false

mutual

/-- The nodes are of the same kinds with the same fields, wherever they stand. -/
def same : Node → Node → Bool
  | selector _ k a, selector _ k' a' => decide (k = k' ∧ a = a')
  | literal _ v, literal _ v' => decide (v = v')
  | reference _ a, reference _ a' => decide (a = a')
  | operation _ o l r, operation _ o' l' r' => decide (o = o') && same l l' && same r r'
  | declaration _ a e, declaration _ a' e' => decide (a = a') && same e e'
  | assignment _ a e, assignment _ a' e' => decide (a = a') && same e e'
  | conditional _ c b none, conditional _ c' b' none => same c c' && sameAll b b'
  | conditional _ c b (some e), conditional _ c' b' (some e') =>
    same c c' && sameAll b b' && sameAll e e'
  | rule _ s b, rule _ s' b' => sameAll s s' && sameAll b b'
  | sheet _ is, sheet _ is' => sameAll is is'
  | _, _ => false

/-- `same`, member by member. -/
def sameAll : List Node → List Node → Bool
  | [], [] => true
  | n :: ns, n' :: ns' => same n n' && sameAll ns ns'
  | _, _ => false

end

end Node

namespace Stylesheet

def toNode (sheet : Stylesheet) : Node := .sheet sheet.pos sheet.items

/-- The style rules at the top level. -/
def rules (sheet : Stylesheet) : List Node := sheet.items.filter Node.isRule

end Stylesheet

end StyleLang
