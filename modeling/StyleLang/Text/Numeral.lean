import StyleLang.Syntax.Value
import StyleLang.Text.Blank
import StyleLang.Text.Digit

/-!
# Numerals

A whole number as a person types it: a sign or none, digits of any script, single underscores
between digits, blanks around, but no separators of information. Numerals with more digits than
numbers may have are refused.
-/

namespace StyleLang

/-- Digits with single underscores between them, as the digits alone. -/
def joinDigits : List Char → Option (List Char)
  | [] => none
  | [c] => if isDigit c then some [c] else none
  | c :: '_' :: cs => if isDigit c then (joinDigits cs).map (c :: ·) else none
  | c :: cs => if isDigit c then (joinDigits cs).map (c :: ·) else none

/-- A sign, if there is one, and what follows it. -/
def takeSign : List Char → Bool × List Char
  | '-' :: cs => (true, cs)
  | '+' :: cs => (false, cs)
  | cs => (false, cs)

/-- The blanks that may stand around a numeral. -/
def isMargin (c : Char) : Bool := isBlank c && !(0x1c ≤ c.toNat && c.toNat ≤ 0x1f)

def readNumeral? (text : String) : Option Int :=
  let (negative, cs) := takeSign (trimWhere isMargin text.toList)
  match joinDigits cs with
  | none => none
  | some ds =>
    if digitLimit < ds.length then none
    else some (if negative then -readDigits ds else readDigits ds)

end StyleLang
