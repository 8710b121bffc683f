import StyleLang.Read.Token
import StyleLang.Text.Line

/-!
# Reading errors

A text that is not grammatical has a syntax error: a token or a character that cannot come next, or
an end that comes too early. A grammatical text may still hold a name or a number that the tree does
not take. A notice is what is shown of an error: a headline, and a position where one makes sense.
-/

namespace StyleLang

inductive SyntaxError where
  | unexpectedToken (token : Token)
  /-- The end of the text, with the place where its last token starts. -/
  | unexpectedEnd (last : Cursor)
  /-- A character that no token starts with. -/
  | unknownCharacter (c : Char) (place : Cursor)
  deriving DecidableEq, Repr

inductive BuildError where
  /-- A variable has no hyphen in its name, since a reference to it would be a difference. -/
  | hyphenatedName (name : String) (place : Cursor)
  | numberTooLong (measure : Measure) (digits : Nat)
  deriving DecidableEq, Repr

inductive ReadError where
  | grammar (reason : SyntaxError)
  | build (reason : BuildError)
  deriving DecidableEq, Repr

/-- A one-line message with a position, as far as it is known. -/
structure Notice where
  message : String
  line : Option Int := none
  column : Option Int := none
  deriving DecidableEq, Repr

/-- The notice of a message of any length. Lines are counted from one, so a position with a smaller
line is none. -/
def Notice.ofMessage (message : String) (line column : Option Int) : Notice :=
  if line.any fun l => decide (l < 1) then { message := headline message }
  else { message := headline message, line, column }

namespace SyntaxError

def place : SyntaxError → Cursor
  | unexpectedToken token => token.start
  | unexpectedEnd last => last
  | unknownCharacter _ place => place

/-- The error in words, before it is cut to its headline. -/
def message : SyntaxError → String
  | unexpectedToken ⟨kind, chars, start⟩ =>
    let text := String.ofList chars
    s!"Unexpected token Token('{kind.label}', '{text}') at " ++
      s!"line {start.line}, column {start.column}."
  | unexpectedEnd last =>
    s!"Unexpected token Token('$END', '') at line {last.line}, column {last.column}."
  | unknownCharacter c place =>
    let context := "in the current parser context"
    s!"No terminal matches '{c}' {context}, at line {place.line} col {place.column}"

def notice (e : SyntaxError) : Notice :=
  .ofMessage e.message (some e.place.line) (some e.place.column)

end SyntaxError

def BuildError.message : BuildError → String
  | hyphenatedName name _ => s!"variable name '{name}' must not contain '-'"
  | numberTooLong measure digits =>
    s!"Error trying to process rule \"{measure.name}\":\n\n" ++
      s!"Exceeds the limit ({digitLimit} digits) for integer string conversion: " ++
      s!"value has {digits} digits; " ++
      "use sys.set_int_max_str_digits() to increase the limit"

end StyleLang
