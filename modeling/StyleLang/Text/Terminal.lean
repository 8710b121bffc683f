/-!
# Terminal sequences

An escape character, a square bracket, parameters and a letter tell a terminal how to show what
follows. They are left out of a text that is not shown on a terminal. Main statement: a text
without the escape character stays as it is.
-/

namespace StyleLang.Terminal

def isParameter (c : Char) : Bool := c.isDigit || c == ';' || c == '?'

/-- What follows the sequence at the front of a text, if there is one. -/
def afterSequence? : List Char → Option (List Char)
  | '\x1b' :: '[' :: cs =>
    match cs.dropWhile isParameter with
    | c :: rest => if c.isAlpha then some rest else none
    | [] => none
  | _ => none

theorem length_afterSequence?_lt {cs rest : List Char} (h : afterSequence? cs = some rest) :
    rest.length < cs.length := by
  unfold afterSequence? at h
  split at h
  · next cs =>
    have hl := (List.dropWhile_suffix (l := cs) isParameter).length_le
    split at h
    · next c r hd =>
      rw [hd, List.length_cons] at hl
      split at h
      · cases h
        simp only [List.length_cons]
        omega
      · cases h
    · cases h
  · cases h

/-- A text without its sequences. -/
def plain (cs : List Char) : List Char :=
  match cs with
  | [] => []
  | c :: cs =>
    match _h : afterSequence? (c :: cs) with
    | some rest => plain rest
    | none => c :: plain cs
termination_by cs.length
decreasing_by
  · exact length_afterSequence?_lt _h
  · exact Nat.lt_succ_self _

end StyleLang.Terminal
