import StyleLang.Read.Token

/-!
# Places

Where a reader stands between two tokens: what comes next, and the unfinished statement there. After
some tokens more classes are looked for than can come: after an assignment those of both kinds of
places where one can stand, and after an operand all that can follow one in any expression.
-/

namespace StyleLang

inductive Bracket where
  | square
  | round
  deriving DecidableEq, Repr

/-- What an expression is read for. -/
inductive Goal where
  | assignment (name : Token)
  | declaration (property : Token)
  | condition (pos : Position) (bracket : Bracket)
  deriving DecidableEq, Repr

/-- The token that ends the expression. -/
def Goal.closer : Goal → TokenKind
  | assignment _ => .semicolon
  | declaration _ => .semicolon
  | condition _ .square => .rightBracket
  | condition _ .round => .rightParen

/-- An expression up to an operator. `sum` holds the terms before the product that is being read,
`factor` what that product has to the left of a star. -/
structure Pending where
  sum : Option (Node × Operator) := none
  factor : Option Node := none
  deriving Repr

/-- An operation stands where its left operand stands. -/
def Node.operate (op : Operator) (lhs rhs : Node) : Node := .operation lhs.position op lhs rhs

/-- A product with one more factor. -/
def Node.timesAfter (factor : Option Node) (atom : Node) : Node :=
  match factor with
  | none => atom
  | some l => .operate .multiply l atom

/-- A sum with one more term. -/
def Node.addedTo (sum : Option (Node × Operator)) (product : Node) : Node :=
  match sum with
  | none => product
  | some (l, op) => .operate op l product

/-- What an open block belongs to. -/
inductive Holder where
  | rule (pos : Position) (selectors : List Node)
  | thenBranch (pos : Position) (condition : Node)
  | elseBranch (pos : Position) (condition : Node) (body : List Node)
  deriving Repr

structure OpenBlock where
  holder : Holder
  /-- The finished statements of the block, the latest first. -/
  done : List Node := []
  deriving Repr

/-- What comes next. -/
inductive Place where
  | item
  /-- After an assignment, among items or in a block. -/
  | afterAssignment
  /-- After a name that starts an item. -/
  | named (name : Token)
  /-- After a comma; the selectors so far, the latest first. -/
  | selector (selectors : List Node)
  | afterSelector (selectors : List Node)
  | statement
  /-- After a name that starts a statement. -/
  | label (name : Token)
  /-- After the word that starts a conditional. -/
  | condition (pos : Position)
  | operand (goal : Goal) (pending : Pending)
  /-- After an operand; the product so far and the sum before it. -/
  | operator (goal : Goal) (sum : Option (Node × Operator)) (product : Node)
  | thenBlock (pos : Position) (condition : Node)
  /-- After the first branch of a conditional. -/
  | afterThen (pos : Position) (condition : Node) (body : List Node)
  | elseBlock (pos : Position) (condition : Node) (body : List Node)
  deriving Repr

/-- The classes of tokens that are looked for at a place. -/
def Place.allows : Place → TokenKind → Bool
  | item, k => [.name, .classSelector, .idSelector].contains k
  | afterAssignment, k => [.name, .classSelector, .idSelector, .ifWord, .rightBrace].contains k
  | named _, k => [.becomes, .comma, .leftBrace].contains k
  | selector _, k => [.name, .classSelector, .idSelector].contains k
  | afterSelector _, k => [.comma, .leftBrace].contains k
  | statement, k => [.name, .ifWord, .rightBrace].contains k
  | label _, k => [.becomes, .colon].contains k
  | condition _, k => [.leftBracket, .leftParen].contains k
  | operand _ _, k =>
    [.pixel, .percentage, .reference, .scalar, .color, .falseCapital, .falseSmall, .trueCapital,
      .trueSmall].contains k
  | operator _ _ _, k =>
    [.plus, .minus, .star, .semicolon, .rightBracket, .rightParen].contains k
  | thenBlock _ _, k => k = .leftBrace
  | afterThen _ _ _, k => [.elseWord, .name, .ifWord, .rightBrace].contains k
  | elseBlock _ _ _, k => k = .leftBrace

end StyleLang
