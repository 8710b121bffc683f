/-!
# Scans

A scan takes a lexeme off the front of a text, or fails. Main statements: the scans that are built
here split their text without losing anything, and the lexeme of a proper scan has a character at
least, so the rest is shorter.
-/

namespace StyleLang

/-- A lexeme at the front of a text, and the rest of the text. -/
abbrev Scan := List Char → Option (List Char × List Char)

namespace Scan

/-- One character of a class. -/
def one (p : Char → Bool) : Scan
  | [] => none
  | c :: cs => if p c then some ([c], cs) else none

/-- All leading characters of a class, possibly none. -/
def many (p : Char → Bool) : Scan := fun cs => some (cs.takeWhile p, cs.dropWhile p)

/-- One lexeme and another after it. -/
def both (first second : Scan) : Scan := fun cs =>
  match first cs with
  | none => none
  | some (l, rest) =>
    match second rest with
    | none => none
    | some (l', rest') => some (l ++ l', rest')

/-- As many characters of a class as asked for. -/
def times (p : Char → Bool) : Nat → Scan
  | 0 => fun cs => some ([], cs)
  | n + 1 => both (one p) (times p n)

/-- The given characters. -/
def exactly : List Char → Scan
  | [] => fun cs => some ([], cs)
  | c :: word => both (one fun d => d == c) (exactly word)

/-- A character of one class, then all that follow of another. -/
def word (start rest : Char → Bool) : Scan := both (one start) (many rest)

end Scan

/-! ## Nothing is lost -/

/-- A scan that splits its text. -/
def Scan.Splits (scan : Scan) : Prop := ∀ cs l r, scan cs = some (l, r) → cs = l ++ r

namespace Scan

theorem splits_one (p : Char → Bool) : (one p).Splits := by
  intro cs l r h
  cases cs with
  | nil => simp [one] at h
  | cons c cs =>
    simp only [one] at h
    split at h
    · obtain ⟨rfl, rfl⟩ := Prod.mk.inj (Option.some.inj h)
      rfl
    · cases h

theorem splits_many (p : Char → Bool) : (many p).Splits := by
  intro cs l r h
  obtain ⟨rfl, rfl⟩ := Prod.mk.inj (Option.some.inj h)
  exact List.takeWhile_append_dropWhile.symm

theorem both_eq_some {first second : Scan} {cs l r : List Char}
    (h : both first second cs = some (l, r)) :
    ∃ a b m, first cs = some (a, m) ∧ second m = some (b, r) ∧ l = a ++ b := by
  simp only [both] at h
  split at h
  · cases h
  · next a m ha =>
    split at h
    · cases h
    · next b m' hb =>
      obtain ⟨rfl, rfl⟩ := Prod.mk.inj (Option.some.inj h)
      exact ⟨a, b, m, ha, hb, rfl⟩

theorem Splits.both {first second : Scan} (h1 : first.Splits) (h2 : second.Splits) :
    (Scan.both first second).Splits := by
  intro cs l r h
  obtain ⟨a, b, m, ha, hb, rfl⟩ := both_eq_some h
  rw [h1 _ _ _ ha, h2 _ _ _ hb, List.append_assoc]

theorem splits_nil : Splits fun cs => some ([], cs) := by
  intro cs l r h
  obtain ⟨rfl, rfl⟩ := Prod.mk.inj (Option.some.inj h)
  rfl

theorem splits_times (p : Char → Bool) : ∀ n, (times p n).Splits
  | 0 => splits_nil
  | n + 1 => (splits_one p).both (splits_times p n)

theorem splits_exactly : ∀ word, (exactly word).Splits
  | [] => splits_nil
  | _ :: word => (splits_one _).both (splits_exactly word)

theorem splits_word (start rest : Char → Bool) : (word start rest).Splits :=
  (splits_one start).both (splits_many rest)

end Scan

/-! ## Lexemes are not empty -/

/-- A scan whose lexemes have a character at least. -/
def Scan.Proper (scan : Scan) : Prop := ∀ cs l r, scan cs = some (l, r) → l ≠ []

namespace Scan

theorem proper_one (p : Char → Bool) : (one p).Proper := by
  intro cs l r h
  cases cs with
  | nil => simp [one] at h
  | cons c cs =>
    simp only [one] at h
    split at h
    · obtain ⟨rfl, rfl⟩ := Prod.mk.inj (Option.some.inj h)
      simp
    · cases h

theorem Proper.both {first : Scan} (h1 : first.Proper) (second : Scan) :
    (Scan.both first second).Proper := by
  intro cs l r h
  obtain ⟨a, b, m, ha, _, rfl⟩ := both_eq_some h
  simp [h1 _ _ _ ha]

theorem proper_exactly (c : Char) (word : List Char) : (exactly (c :: word)).Proper :=
  (proper_one _).both _

theorem proper_word (start rest : Char → Bool) : (word start rest).Proper :=
  (proper_one start).both _

end Scan

theorem Scan.length_lt {scan : Scan} (hs : scan.Splits) (hp : scan.Proper) {cs l r : List Char}
    (h : scan cs = some (l, r)) : r.length < cs.length := by
  have hne := List.length_pos_iff.2 (hp _ _ _ h)
  have := congrArg List.length (hs _ _ _ h)
  rw [List.length_append] at this
  omega

end StyleLang
