/-!
# Indents

An indent of a width is that many spaces, if a text may be so long and memory can hold it. Main
statement: an indent has its width in spaces and nothing else.
-/

namespace StyleLang

/-- Why there is no indent of a width. -/
inductive IndentError where
  /-- The width is more than the length of any text. -/
  | tooWide
  /-- There is not enough memory. -/
  | noMemory
  deriving DecidableEq, Repr

namespace Indent

/-- No text has this length or more. -/
def lengthLimit : Nat := 0x8000000000000000

/-- An assumption about the machine: no text that has this length or more fits into memory. -/
def memoryLimit : Nat := 0x100000000

def ofWidth (width : Nat) : Except IndentError String :=
  if lengthLimit ≤ width then .error .tooWide
  else if memoryLimit ≤ width then .error .noMemory
  else .ok ("".pushn ' ' width)

theorem toList_pushn (s : String) (c : Char) (n : Nat) :
    (s.pushn c n).toList = s.toList ++ List.replicate n c := by
  induction n with
  | zero => simp [String.pushn, Nat.repeat]
  | succ n ih =>
    rw [List.replicate_succ', ← List.append_assoc, ← ih]
    exact String.toList_push c

theorem ofWidth_eq_ok_iff {width : Nat} {indent : String} :
    ofWidth width = .ok indent ↔
      width < memoryLimit ∧ indent.toList = List.replicate width ' ' := by
  have hl : memoryLimit ≤ lengthLimit := by decide
  have hp : ("".pushn ' ' width).toList = List.replicate width ' ' := toList_pushn "" ' ' width
  simp only [ofWidth]
  split
  · constructor
    · intro h; cases h
    · intro h; omega
  · split
    · constructor
      · intro h; cases h
      · intro h; omega
    · constructor
      · intro h
        cases h
        exact ⟨by omega, hp⟩
      · intro h
        rw [← hp] at h
        exact congrArg _ (String.toList_inj.1 h.2.symm)

end Indent

end StyleLang
