import StyleLang.Read.Scan

/-!
# Between tokens

Spaces and comments may stand between any two tokens. A comment ends at the first mark that can end
it. Main statement: what is skipped and what is left are the text.
-/

namespace StyleLang

def isSpace (c : Char) : Bool := c == ' ' || c == '\t' || c == '\x0c' || c == '\r' || c == '\n'

namespace Scan

/-- A text up to the end of a comment, which is not nested. -/
def commentEnd : Scan
  | '*' :: '/' :: cs => some (['*', '/'], cs)
  | c :: cs => (commentEnd cs).map fun r => (c :: r.1, r.2)
  | [] => none

def comment : Scan := both (exactly ['/', '*']) commentEnd

theorem splits_commentEnd : commentEnd.Splits := by
  intro cs
  fun_induction commentEnd cs with
  | case1 cs =>
    intro l r h
    obtain ⟨rfl, rfl⟩ := Prod.mk.inj (Option.some.inj h)
    rfl
  | case2 c cs _ ih =>
    intro l r h
    obtain ⟨⟨l', r'⟩, h', he⟩ := Option.map_eq_some_iff.1 h
    obtain ⟨rfl, rfl⟩ := Prod.mk.inj he
    exact congrArg (c :: ·) (ih _ _ h')
  | case3 => intro l r h; cases h

theorem splits_comment : comment.Splits := (splits_exactly _).both splits_commentEnd

theorem length_comment_lt {cs : List Char} {p : List Char × List Char}
    (h : comment cs = some p) : p.2.length < cs.length :=
  length_lt splits_comment ((proper_exactly _ _).both _) h

end Scan

/-- The spaces and comments at the front of a text, and the rest. A comment without an end is left
where it is. -/
def skip (cs : List Char) : List Char × List Char :=
  match cs with
  | [] => ([], [])
  | c :: cs =>
    if isSpace c then
      let r := skip cs
      (c :: r.1, r.2)
    else
      match _h : Scan.comment (c :: cs) with
      | none => ([], c :: cs)
      | some p =>
        let r := skip p.2
        (p.1 ++ r.1, r.2)
termination_by cs.length
decreasing_by
  · exact Nat.lt_succ_self _
  · exact Scan.length_comment_lt _h

theorem skip_append (cs : List Char) : (skip cs).1 ++ (skip cs).2 = cs := by
  fun_induction skip cs with
  | case1 => rfl
  | case2 c cs _ _ ih => exact congrArg (c :: ·) ih
  | case3 => rfl
  | case4 c cs _ p h _ ih =>
    rw [Scan.splits_comment _ _ _ h]
    simpa [List.append_assoc] using ih

theorem length_skip_le (cs : List Char) : (skip cs).2.length ≤ cs.length := by
  have := congrArg List.length (skip_append cs)
  rw [List.length_append] at this
  omega

end StyleLang
