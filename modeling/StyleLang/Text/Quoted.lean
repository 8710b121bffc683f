import StyleLang.Text.Shape

/-!
# Quoted text

A text between quotes, as messages show what was typed. The quotes are single, unless the text has
single quotes and no double ones. The backslash, the quote and all that has no shape of its own are
written with a backslash.
-/

namespace StyleLang.Quoted

/-- A number in base sixteen, with at least `width` digits. -/
def hex (width n : Nat) : String :=
  let digits := Nat.toDigits 16 n
  String.ofList (List.replicate (width - digits.length) '0' ++ digits)

/-- A character by its code point, in the shortest of three forms. -/
def byCode (n : Nat) : String :=
  if n ≤ 0xff then "\\x" ++ hex 2 n
  else if n ≤ 0xffff then "\\u" ++ hex 4 n
  else "\\U" ++ hex 8 n

def char (quote c : Char) : String :=
  if c = quote ∨ c = '\\' then String.ofList ['\\', c]
  else if c = '\t' then "\\t"
  else if c = '\n' then "\\n"
  else if c = '\r' then "\\r"
  else if isShapeless c then byCode c.toNat
  else c.toString

def quoteFor (cs : List Char) : Char :=
  if '\'' ∈ cs ∧ '"' ∉ cs then '"' else '\''

/-- The text between quotes. -/
def text (s : String) : String :=
  let quote := quoteFor s.toList
  quote.toString ++ String.join (s.toList.map (char quote)) ++ quote.toString

end StyleLang.Quoted
