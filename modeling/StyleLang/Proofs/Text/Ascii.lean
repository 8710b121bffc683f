import StyleLang.Proofs.Grammar.Words
import StyleLang.Proofs.Text.Decimal

/-!
# ASCII texts

The letters and digits of the grammar are those of ASCII, but for the digits of a number, which may
be of any script. Main statements: what is put together from ASCII texts is one, and names, colors
and the texts of values are such.
-/

namespace StyleLang

/-- What holds of the characters of a separator and of all parts holds of those of the whole. -/
theorem forall_mem_intercalate {p : Char → Prop} {separator : String} {parts : List String}
    (hseparator : ∀ c ∈ separator.toList, p c) (hparts : ∀ s ∈ parts, ∀ c ∈ s.toList, p c) :
    ∀ c ∈ (separator.intercalate parts).toList, p c := by
  induction parts with
  | nil => exact fun c hc => absurd hc List.not_mem_nil
  | cons s parts ih =>
    obtain ⟨hs, hparts⟩ := List.forall_mem_cons.1 hparts
    cases parts with
    | nil =>
      rw [String.intercalate_singleton]
      exact hs
    | cons t parts =>
      rw [String.intercalate_cons_cons, String.toList_append, String.toList_append]
      exact List.forall_mem_append.2 ⟨List.forall_mem_append.2 ⟨hs, hseparator⟩, ih hparts⟩

def IsAscii (s : String) : Prop := ∀ c ∈ s.toList, c.toNat < 128

instance (s : String) : Decidable (IsAscii s) :=
  decidable_of_iff ((s.toList.all fun c => c.toNat < 128) = true) <| by
    simp only [IsAscii, List.all_eq_true, decide_eq_true_eq]

@[simp] theorem isAscii_append {s t : String} : IsAscii (s ++ t) ↔ IsAscii s ∧ IsAscii t := by
  unfold IsAscii
  rw [String.toList_append]
  exact List.forall_mem_append

theorem isAscii_intercalate {separator : String} {parts : List String}
    (hseparator : IsAscii separator) (hparts : ∀ s ∈ parts, IsAscii s) :
    IsAscii (separator.intercalate parts) := forall_mem_intercalate hseparator hparts

theorem isAscii_join {parts : List String} (h : ∀ s ∈ parts, IsAscii s) :
    IsAscii (String.join parts) := by
  intro c hc
  rw [String.toList_join] at hc
  obtain ⟨s, hs, hmem⟩ := List.mem_flatMap.1 hc
  exact h s hs c hmem

/-! ## Words -/

theorem lt_of_isDigit {c : Char} (h : c.isDigit = true) : c.toNat < 128 :=
  Nat.lt_of_le_of_lt (Char.isDigit_iff_toNat.1 h).2 (by decide)

theorem lt_of_isNameChar {c : Char} (h : isNameChar c = true) : c.toNat < 128 := by
  unfold isNameChar isWordChar Char.isAlphanum at h
  simp only [Bool.or_eq_true, beq_iff_eq] at h
  rcases h with ((h | h) | rfl) | rfl
  · have hletter : isWordStart c = true := by rw [isWordStart, h, Bool.true_or]
    have := toNat_of_isWordStart hletter
    omega
  · exact lt_of_isDigit h
  · decide
  · decide

theorem lt_of_isHexDigit {c : Char} (h : isHexDigit c = true) : c.toNat < 128 := by
  have hle : ∀ d : Char, c ≤ d → c.toNat ≤ d.toNat := fun d hd => UInt32.le_iff_toNat_le.1 hd
  unfold isHexDigit at h
  simp only [Bool.or_eq_true, Bool.and_eq_true, decide_eq_true_eq] at h
  rcases h with (h | ⟨-, h⟩) | ⟨-, h⟩
  · exact lt_of_isDigit h
  · exact Nat.lt_of_le_of_lt (hle 'f' h) (by decide)
  · exact Nat.lt_of_le_of_lt (hle 'F' h) (by decide)

theorem IsName.lt {w : List Char} (h : IsName w) : ∀ c ∈ w, c.toNat < 128 := by
  obtain ⟨c, cs, rfl, hc, hcs⟩ := h
  have hstart : isNameChar c = true := isNameChar_of_isWordChar (isWordChar_of_isWordStart hc)
  exact List.forall_mem_cons.2 ⟨lt_of_isNameChar hstart, fun d hd => lt_of_isNameChar (hcs d hd)⟩

theorem IsColor.lt {w : List Char} (h : IsColor w) : ∀ c ∈ w, c.toNat < 128 := by
  obtain ⟨hex, rfl, -, hhex⟩ := h
  exact List.forall_mem_cons.2 ⟨by decide, fun d hd => lt_of_isHexDigit (hhex d hd)⟩

/-- A number is written with ASCII digits, whatever digits it was read from. -/
theorem isAscii_number (m : Measure) (n : Int) : IsAscii (Value.number m n).text := by
  have hdigits : ∀ n : Nat, ∀ c ∈ Nat.toDigits 10 n, c.toNat < 128 := fun n c hc =>
    lt_of_isDigit (isDigit_of_mem_toDigits hc)
  have hunit : IsAscii m.unit := by cases m <;> decide
  unfold IsAscii
  cases n with
  | ofNat n =>
    rw [Int.ofNat_eq_natCast, Value.text_natural]
    exact List.forall_mem_append.2 ⟨hdigits n, hunit⟩
  | negSucc n =>
    rw [Value.text_negative]
    exact List.forall_mem_cons.2
      ⟨by decide, List.forall_mem_append.2 ⟨hdigits (n + 1), hunit⟩⟩

end StyleLang
