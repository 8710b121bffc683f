import StyleLang.Text.Blank

/-!
# Lines

Where a line ends depends on who asks. Positions in a source count line feeds only. A headline, the
first line of a longer message, ends at any of ten characters that break lines, and the last line of
a message starts after one of them. A text read from a file has all its line ends turned into line
feeds.
-/

namespace StyleLang

/-- The characters that end a line of a message. -/
def isLineBreak (c : Char) : Bool :=
  ['\n', '\r', '\x0b', '\x0c', '\x1c', '\x1d', '\x1e', '\x85', '\u2028', '\u2029'].contains c

/-- The headline of a message: its first line, blanks at the ends of the message left out, and
"syntax error" if there is nothing else. -/
def headline (message : String) : String :=
  match trim message.toList with
  | [] => "syntax error"
  | c :: cs => String.ofList ((c :: cs).takeWhile fun c => !isLineBreak c)

/-- What a text has after its last line break. -/
def lastLine (text : String) : String :=
  String.ofList (text.toList.reverse.takeWhile fun c => !isLineBreak c).reverse

/-- Every carriage return, alone or before a line feed, becomes one line feed. -/
def unifyLineEnds : List Char → List Char
  | [] => []
  | '\r' :: '\n' :: cs => '\n' :: unifyLineEnds cs
  | c :: cs => (if c = '\r' then '\n' else c) :: unifyLineEnds cs

theorem isBlank_of_isLineBreak {c : Char} (h : isLineBreak c = true) : isBlank c = true := by
  simp only [isLineBreak, List.contains_cons, List.contains_nil, Bool.or_eq_true, beq_iff_eq,
    Bool.or_false] at h
  rcases h with rfl | rfl | rfl | rfl | rfl | rfl | rfl | rfl | rfl | rfl <;> decide

end StyleLang
