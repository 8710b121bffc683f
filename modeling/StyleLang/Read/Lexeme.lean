import StyleLang.Read.Scan
import StyleLang.Read.Token
import StyleLang.Text.Digit

/-!
# Lexemes

How the classes of tokens are spelled. Which classes are tried depends on what may come next, and
the first class in order that matches wins, also over one that matches more. Only if no such class
matches, all of them are tried. Main statement: a match splits its text, and its rest is shorter.
-/

namespace StyleLang

def isWordStart (c : Char) : Bool := c.isAlpha || c == '_'

def isWordChar (c : Char) : Bool := c.isAlphanum || c == '_'

def isNameChar (c : Char) : Bool := isWordChar c || c == '-'

def isHexDigit (c : Char) : Bool :=
  c.isDigit || ('a' ≤ c && c ≤ 'f') || ('A' ≤ c && c ≤ 'F')

/-- Decimal digits and a unit. -/
def Scan.number (m : Measure) : Scan := both (word isDigit isDigit) (exactly m.unit.toList)

/-- The spelling of a class of tokens. Keywords are spelled as words. -/
def TokenKind.scan : TokenKind → Scan
  | pixel => Scan.number .pixel
  | percentage => Scan.number .percentage
  | scalar => Scan.number .scalar
  | classSelector => .both (.exactly ['.']) (.word isWordStart isNameChar)
  | name => .word isWordStart isNameChar
  | reference => .word isWordStart isWordChar
  | idSelector => .both (.exactly ['#']) (.word isNameChar isNameChar)
  | color => .both (.exactly ['#']) (.times isHexDigit 6)
  | falseCapital | falseSmall | elseWord | trueCapital | trueSmall | ifWord => fun _ => none
  | becomes => .exactly [':', '=']
  | colon => .exactly [':']
  | semicolon => .exactly [';']
  | comma => .exactly [',']
  | leftBrace => .exactly ['{']
  | rightBrace => .exactly ['}']
  | leftBracket => .exactly ['[']
  | rightBracket => .exactly [']']
  | leftParen => .exactly ['(']
  | rightParen => .exactly [')']
  | plus => .exactly ['+']
  | minus => .exactly ['-']
  | star => .exactly ['*']

/-- The classes in the order in which they are tried. -/
def TokenKind.trialOrder : List TokenKind :=
  [pixel, percentage, classSelector, name, reference, idSelector, scalar, color, becomes, colon,
    semicolon, comma, leftBrace, rightBrace, leftBracket, rightBracket, leftParen, rightParen, plus,
    minus, star]

/-- A word that is spelled like a keyword is that keyword where the keyword may stand. -/
def TokenKind.orKeyword (kind : TokenKind) (allowed : TokenKind → Bool) (lexeme : List Char) :
    TokenKind :=
  match kind with
  | name | reference =>
    match keywords.find? fun k => allowed k.1 && decide (k.2 = lexeme) with
    | some k => k.1
    | none => kind
  | _ => kind

/-- A class, a lexeme of it and the rest of the text. -/
structure Match where
  kind : TokenKind
  lexeme : List Char
  rest : List Char
  deriving DecidableEq, Repr

namespace Match

/-- The first allowed class that matches. -/
def first? (allowed : TokenKind → Bool) (cs : List Char) : Option Match :=
  TokenKind.trialOrder.findSome? fun kind =>
    if allowed kind then
      (kind.scan cs).map fun r => ⟨kind.orKeyword allowed r.1, r.1, r.2⟩
    else none

/-- The token at the front of a text: one that may come next, else any. -/
def ofText? (allowed : TokenKind → Bool) (cs : List Char) : Option Match :=
  (first? allowed cs).or (first? (fun _ => true) cs)

end Match

/-! ## A match splits its text -/

theorem Scan.splits_number (m : Measure) : (number m).Splits :=
  (splits_word _ _).both (splits_exactly _)

theorem Scan.proper_number (m : Measure) : (number m).Proper := (proper_word _ _).both _

theorem TokenKind.splits_scan (kind : TokenKind) : kind.scan.Splits := by
  cases kind with
  | pixel => exact Scan.splits_number _
  | percentage => exact Scan.splits_number _
  | scalar => exact Scan.splits_number _
  | name => exact Scan.splits_word _ _
  | reference => exact Scan.splits_word _ _
  | classSelector => exact (Scan.splits_exactly _).both (Scan.splits_word _ _)
  | idSelector => exact (Scan.splits_exactly _).both (Scan.splits_word _ _)
  | color => exact (Scan.splits_exactly _).both (Scan.splits_times _ _)
  | falseCapital | falseSmall | elseWord | trueCapital | trueSmall | ifWord =>
    intro cs l r h; cases h
  | _ => exact Scan.splits_exactly _

theorem TokenKind.proper_scan (kind : TokenKind) : kind.scan.Proper := by
  cases kind with
  | pixel => exact Scan.proper_number _
  | percentage => exact Scan.proper_number _
  | scalar => exact Scan.proper_number _
  | name => exact Scan.proper_word _ _
  | reference => exact Scan.proper_word _ _
  | classSelector => exact (Scan.proper_exactly _ _).both _
  | idSelector => exact (Scan.proper_exactly _ _).both _
  | color => exact (Scan.proper_exactly _ _).both _
  | falseCapital | falseSmall | elseWord | trueCapital | trueSmall | ifWord =>
    intro cs l r h; cases h
  | _ => exact Scan.proper_exactly _ _

namespace Match

theorem first?_scan {allowed : TokenKind → Bool} {cs : List Char} {m : Match}
    (h : first? allowed cs = some m) :
    ∃ kind : TokenKind, kind.scan cs = some (m.lexeme, m.rest) := by
  obtain ⟨kind, _, hk⟩ := List.exists_of_findSome?_eq_some h
  split at hk
  · obtain ⟨r, hr, rfl⟩ := Option.map_eq_some_iff.1 hk
    exact ⟨kind, hr⟩
  · cases hk

theorem ofText?_scan {allowed : TokenKind → Bool} {cs : List Char} {m : Match}
    (h : ofText? allowed cs = some m) :
    ∃ kind : TokenKind, kind.scan cs = some (m.lexeme, m.rest) := by
  rcases Option.or_eq_some_iff.1 h with h | ⟨_, h⟩
  · exact first?_scan h
  · exact first?_scan h

theorem splits {allowed : TokenKind → Bool} {cs : List Char} {m : Match}
    (h : ofText? allowed cs = some m) : cs = m.lexeme ++ m.rest := by
  obtain ⟨kind, hk⟩ := ofText?_scan h
  exact kind.splits_scan _ _ _ hk

theorem length_rest_lt {allowed : TokenKind → Bool} {cs : List Char} {m : Match}
    (h : ofText? allowed cs = some m) : m.rest.length < cs.length := by
  obtain ⟨kind, hk⟩ := ofText?_scan h
  exact Scan.length_lt kind.splits_scan kind.proper_scan hk

end Match

end StyleLang
