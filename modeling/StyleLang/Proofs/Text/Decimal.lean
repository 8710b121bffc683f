import Mathlib.Algebra.Group.Nat.Defs
import StyleLang.Proofs.Grammar.Words

/-!
# Numbers in decimal

A number is written with ASCII digits and without zeros in front. Main statements: the digits are
read back as the number, a number that was read is written with no more digits than it was read
from, and of all numbers the negative ones start with a hyphen.
-/

namespace StyleLang

/-- An ASCII digit stands in the first block of digits. -/
theorem digitValue?_of_isDigit {c : Char} (h : c.isDigit = true) :
    digitValue? c = some (c.toNat - 48) := by
  have hrange : 48 ≤ c.toNat ∧ c.toNat ≤ 57 := Char.isDigit_iff_toNat.1 h
  have hblock : digitZeros.find? (fun z => z ≤ c.toNat && c.toNat < z + 10) = some 48 := by
    unfold digitZeros
    rw [List.find?_cons_of_pos]
    simp only [Bool.and_eq_true, decide_eq_true_eq]
    omega
  unfold digitValue?
  rw [hblock, Option.map_some]

theorem readDigits_eq_ofDigitChars {ds : List Char} (h : ∀ c ∈ ds, c.isDigit = true) :
    readDigits ds = Nat.ofDigitChars 10 ds 0 := by
  have hfold : ∀ n, ds.foldl (fun n c => 10 * n + (digitValue? c).getD 0) n =
      ds.foldl (fun n c => 10 * n + (c.toNat - '0'.toNat)) n := by
    induction ds with
    | nil => intro n; rfl
    | cons c ds ih =>
      intro n
      have hc := digitValue?_of_isDigit (h c List.mem_cons_self)
      rw [List.foldl_cons, List.foldl_cons, hc, Option.getD_some]
      exact ih (fun d hd => h d (List.mem_cons_of_mem _ hd)) _
  exact (hfold 0).trans Nat.ofDigitChars_eq_foldl.symm

theorem isDigit_of_mem_toDigits {n : Nat} {c : Char} (h : c ∈ Nat.toDigits 10 n) :
    c.isDigit = true := Nat.isDigit_of_mem_toDigits (by decide) (by decide) h

theorem readDigits_toDigits (n : Nat) : readDigits (Nat.toDigits 10 n) = n := by
  rw [readDigits_eq_ofDigitChars fun _ => isDigit_of_mem_toDigits, Nat.ofDigitChars_ten_toDigits]

theorem isDigits_toDigits (n : Nat) : IsDigits (Nat.toDigits 10 n) :=
  ⟨Nat.toDigits_ne_nil, fun _ hc => isDigit_of_isDigit (isDigit_of_mem_toDigits hc)⟩

theorem readDigits_lt (ds : List Char) : readDigits ds < 10 ^ ds.length := by
  have hfold : ∀ n, ds.foldl (fun n c => 10 * n + (digitValue? c).getD 0) n <
      (n + 1) * 10 ^ ds.length := by
    induction ds with
    | nil => intro n; simp
    | cons c ds ih =>
      intro n
      have hdigit : (digitValue? c).getD 0 < 10 := by
        cases h : digitValue? c with
        | none => decide
        | some d => exact digitValue?_lt h
      calc _ < (10 * n + (digitValue? c).getD 0 + 1) * 10 ^ ds.length := ih _
        _ ≤ 10 * (n + 1) * 10 ^ ds.length := Nat.mul_le_mul_right _ (by omega)
        _ = (n + 1) * 10 ^ (c :: ds).length := by
          rw [List.length_cons, Nat.pow_succ]
          ac_rfl
  have hzero := hfold 0
  rwa [Nat.zero_add, Nat.one_mul] at hzero

/-- A number is written with no more digits than it was read from. -/
theorem length_toDigits_readDigits {ds : List Char} (h : IsDigits ds) :
    (Nat.toDigits 10 (readDigits ds)).length ≤ ds.length :=
  (Nat.length_toDigits_le_iff (by decide) (List.length_pos_iff.2 h.1)).2 (readDigits_lt ds)

namespace Value

theorem text_natural (m : Measure) (n : Nat) :
    (number m n).text.toList = Nat.toDigits 10 n ++ m.unit.toList := by
  unfold text
  rw [String.toList_append]
  congr 1
  exact Nat.toList_repr

theorem text_negative (m : Measure) (n : Nat) :
    (number m (Int.negSucc n)).text.toList =
      '-' :: (Nat.toDigits 10 (n + 1) ++ m.unit.toList) := by
  unfold text
  rw [String.toList_append]
  have htext : (toString (Int.negSucc n)).toList = '-' :: Nat.toDigits 10 (n + 1) := by
    rw [Int.toString_eq_repr, Int.repr, String.toList_append, Nat.toList_repr]
    rfl
  rw [htext, List.cons_append]

end Value

end StyleLang
