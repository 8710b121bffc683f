import StyleLang.Syntax.Node

/-!
# Tokens

The classes of tokens, with the names that messages give them, and places in a source. A keyword is
a word that is read as a name elsewhere.
-/

namespace StyleLang

inductive TokenKind where
  | pixel
  | percentage
  | classSelector
  | name
  | reference
  | idSelector
  | scalar
  | color
  | falseCapital
  | falseSmall
  | elseWord
  | trueCapital
  | trueSmall
  | ifWord
  | becomes
  | colon
  | semicolon
  | comma
  | leftBrace
  | rightBrace
  | leftBracket
  | rightBracket
  | leftParen
  | rightParen
  | plus
  | minus
  | star
  deriving DecidableEq, Repr

namespace TokenKind

/-- The name of the class in messages. -/
def label : TokenKind → String
  | pixel => "PIXEL"
  | percentage => "PERCENTAGE"
  | classSelector => "CLASS_SELECTOR"
  | name => "NAME"
  | reference => "VARIABLE"
  | idSelector => "ID_SELECTOR"
  | scalar => "SCALAR"
  | color => "COLOR"
  | falseCapital => "FALSE"
  | falseSmall => "__ANON_2"
  | elseWord => "ELSE"
  | trueCapital => "TRUE"
  | trueSmall => "__ANON_1"
  | ifWord => "IF"
  | becomes => "__ANON_0"
  | colon => "COLON"
  | semicolon => "SEMICOLON"
  | comma => "COMMA"
  | leftBrace => "LBRACE"
  | rightBrace => "RBRACE"
  | leftBracket => "LSQB"
  | rightBracket => "RSQB"
  | leftParen => "LPAR"
  | rightParen => "RPAR"
  | plus => "PLUS"
  | minus => "MINUS"
  | star => "STAR"

/-- The keywords and their spelling. -/
def keywords : List (TokenKind × List Char) :=
  [(falseCapital, ['F', 'A', 'L', 'S', 'E']), (falseSmall, ['f', 'a', 'l', 's', 'e']),
    (elseWord, ['e', 'l', 's', 'e']), (trueCapital, ['T', 'R', 'U', 'E']),
    (trueSmall, ['t', 'r', 'u', 'e']), (ifWord, ['i', 'f'])]

end TokenKind

/-- A place in a source: line and column, counted from one in code points. -/
structure Cursor where
  line : Nat := 1
  column : Nat := 1
  deriving DecidableEq, Repr

namespace Cursor

/-- The place after a character; a line feed ends a line. -/
def next (cursor : Cursor) (c : Char) : Cursor :=
  if c = '\n' then ⟨cursor.line + 1, 1⟩ else ⟨cursor.line, cursor.column + 1⟩

/-- The place after a text. -/
def after (cursor : Cursor) (cs : List Char) : Cursor := cs.foldl next cursor

def position (cursor : Cursor) : Position := ⟨some cursor.line, some cursor.column⟩

@[simp] theorem after_nil (cursor : Cursor) : cursor.after [] = cursor := rfl

theorem after_append (cursor : Cursor) (xs ys : List Char) :
    cursor.after (xs ++ ys) = (cursor.after xs).after ys := by
  simp [after]

end Cursor

structure Token where
  kind : TokenKind
  chars : List Char
  start : Cursor
  deriving DecidableEq, Repr

namespace Token

def text (t : Token) : String := String.ofList t.chars

def position (t : Token) : Position := t.start.position

end Token

end StyleLang
