import StyleLang.Syntax.Node

/-!
# CSS

An evaluated tree as text: the rules in order, an empty line between two of them, a declaration to a
line. A tree that still has something to evaluate is refused at the first such place, and a number
is refused if its text is over the limit on digits.
-/

namespace StyleLang

/-- Why a tree has no CSS. -/
inductive CssError where
  | notRule (kind : String)
  | notDeclaration (kind : String)
  | notLiteral (property kind : String)
  | numberTooLong
  deriving DecidableEq, Repr

def CssError.message : CssError → String
  | notRule kind => s!"Expected a style rule at top level, got {kind} (run the evaluator first)"
  | notDeclaration kind =>
    s!"Expected a declaration in rule body, got {kind} (run the evaluator first)"
  | notLiteral property kind =>
    s!"Declaration '{property}' has an unevaluated expression {kind} (run the evaluator first)"
  | numberTooLong => overLimit

namespace Css

/-- The text of a node, if its numbers can be printed. -/
def print (node : Node) : Except CssError String :=
  if node.printable then .ok node.text else .error .numberTooLong

def declaration : Node → Except CssError String
  | .declaration _ property (.literal pos value) => do
    let value ← print (.literal pos value)
    pure s!"{property}: {value};"
  | .declaration _ property expression => .error (.notLiteral property expression.kindName)
  | node => .error (.notDeclaration node.kindName)

/-- A rule from its selectors to the end of the line of its closing brace. -/
def rule (indent : String) : Node → Except CssError String
  | .rule _ selectors body => do
    let selectors ← selectors.mapM print
    let lines ← body.mapM declaration
    let body := String.join (lines.map fun line => indent ++ line ++ "\n")
    pure (", ".intercalate selectors ++ " \x7b\n" ++ body ++ "\x7d\n")
  | node => .error (.notRule node.kindName)

end Css

/-- The CSS of an evaluated tree. -/
def Stylesheet.css (sheet : Stylesheet) (indent : String := "  ") : Except CssError String := do
  let rules ← sheet.items.mapM (Css.rule indent)
  pure ("\n".intercalate rules)

end StyleLang
