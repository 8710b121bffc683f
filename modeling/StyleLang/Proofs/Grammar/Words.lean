import StyleLang.Read.Lexeme
import StyleLang.Read.Skip

/-!
# Words

What the words of each class of tokens look like, said without a scan, and what may stand between
two words. A number is a run of decimal digits with or without a unit; a keyword and a symbol are
spelled in one way. Main statements: a scan finds words of its class, and it finds all of a word if
the text goes on with a character that cannot belong to it.
-/

namespace StyleLang

/-- A letter or an underscore, then letters, digits, underscores and hyphens. -/
def IsName (w : List Char) : Prop :=
  ∃ c cs, w = c :: cs ∧ isWordStart c = true ∧ ∀ d ∈ cs, isNameChar d = true

/-- A name without hyphens. -/
def IsVariable (w : List Char) : Prop :=
  ∃ c cs, w = c :: cs ∧ isWordStart c = true ∧ ∀ d ∈ cs, isWordChar d = true

def IsIdName (w : List Char) : Prop := w ≠ [] ∧ ∀ c ∈ w, isNameChar c = true

def IsDigits (w : List Char) : Prop := w ≠ [] ∧ ∀ c ∈ w, isDigit c = true

def IsColor (w : List Char) : Prop :=
  ∃ hex, w = '#' :: hex ∧ hex.length = 6 ∧ ∀ c ∈ hex, isHexDigit c = true

/-- What the words of a class have for a first character. -/
inductive WordStart where
  | digit
  | letter
  | only (c : Char)
  deriving DecidableEq, Repr

def WordStart.has : WordStart → Char → Bool
  | digit, c => isDigit c
  | letter, c => isWordStart c
  | only d, c => c == d

namespace TokenKind

/-- The words of a class. -/
def Word : TokenKind → List Char → Prop
  | pixel, w => ∃ ds, IsDigits ds ∧ w = ds ++ Measure.pixel.unit.toList
  | percentage, w => ∃ ds, IsDigits ds ∧ w = ds ++ Measure.percentage.unit.toList
  | scalar, w => ∃ ds, IsDigits ds ∧ w = ds ++ Measure.scalar.unit.toList
  | classSelector, w => ∃ n, IsName n ∧ w = '.' :: n
  | name, w => IsName w
  | reference, w => IsVariable w
  | idSelector, w => ∃ n, IsIdName n ∧ w = '#' :: n
  | color, w => IsColor w
  | falseCapital, w => w = ['F', 'A', 'L', 'S', 'E']
  | falseSmall, w => w = ['f', 'a', 'l', 's', 'e']
  | elseWord, w => w = ['e', 'l', 's', 'e']
  | trueCapital, w => w = ['T', 'R', 'U', 'E']
  | trueSmall, w => w = ['t', 'r', 'u', 'e']
  | ifWord, w => w = ['i', 'f']
  | becomes, w => w = [':', '=']
  | colon, w => w = [':']
  | semicolon, w => w = [';']
  | comma, w => w = [',']
  | leftBrace, w => w = ['{']
  | rightBrace, w => w = ['}']
  | leftBracket, w => w = ['[']
  | rightBracket, w => w = [']']
  | leftParen, w => w = ['(']
  | rightParen, w => w = [')']
  | plus, w => w = ['+']
  | minus, w => w = ['-']
  | star, w => w = ['*']

/-- The characters that the words of a class start with. -/
def start : TokenKind → WordStart
  | pixel | percentage | scalar => .digit
  | name | reference => .letter
  | falseCapital | falseSmall | elseWord | trueCapital | trueSmall | ifWord => .letter
  | classSelector => .only '.'
  | idSelector | color => .only '#'
  | becomes | colon => .only ':'
  | semicolon => .only ';'
  | comma => .only ','
  | leftBrace => .only '{'
  | rightBrace => .only '}'
  | leftBracket => .only '['
  | rightBracket => .only ']'
  | leftParen => .only '('
  | rightParen => .only ')'
  | plus => .only '+'
  | minus => .only '-'
  | star => .only '*'

/-- The characters that may come right after a word of the class without changing how it is read. -/
def stopsAt : TokenKind → Char → Bool
  | name, c | classSelector, c | idSelector, c | ifWord, c | elseWord, c => !isNameChar c
  | reference, c | falseCapital, c | falseSmall, c | trueCapital, c | trueSmall, c => !isWordChar c
  | scalar, c => !isDigit c && c != 'p' && c != '%'
  | colon, c => c != '='
  | _, _ => true

end TokenKind

/-- The text is empty or goes on with a character of the class. -/
def Follows (ok : Char → Bool) (rest : List Char) : Prop := ∀ c, rest.head? = some c → ok c = true

theorem follows_nil (ok : Char → Bool) : Follows ok [] := fun _ h => by cases h

theorem follows_cons {ok : Char → Bool} {c : Char} (h : ok c = true) (cs : List Char) :
    Follows ok (c :: cs) := by
  intro d hd
  rw [← Option.some.inj hd]
  exact h

theorem Follows.mono {ok ok' : Char → Bool} {rest : List Char} (h : Follows ok rest)
    (hok : ∀ c, ok c = true → ok' c = true) : Follows ok' rest := fun c hc => hok c (h c hc)

/-! ## Characters -/

theorem isWordChar_of_isWordStart {c : Char} (h : isWordStart c = true) : isWordChar c = true := by
  unfold isWordStart at h
  unfold isWordChar Char.isAlphanum
  rcases Bool.or_eq_true_iff.1 h with h | h <;> simp [h]

theorem isNameChar_of_isWordChar {c : Char} (h : isWordChar c = true) : isNameChar c = true := by
  unfold isNameChar
  rw [h, Bool.true_or]

theorem IsVariable.isName {w : List Char} (h : IsVariable w) : IsName w := by
  obtain ⟨c, cs, rfl, hc, hcs⟩ := h
  exact ⟨c, cs, rfl, hc, fun d hd => isNameChar_of_isWordChar (hcs d hd)⟩

theorem takeWhile_isDigit {ds : List Char} (h : IsDigits ds) (m : Measure) :
    (ds ++ m.unit.toList).takeWhile isDigit = ds := by
  rw [List.takeWhile_append_of_pos h.2]
  cases m <;> simp [Measure.unit] <;> decide

/-- The code points of letters and of the underscore. -/
theorem toNat_of_isWordStart {c : Char} (h : isWordStart c = true) :
    65 ≤ c.toNat ∧ c.toNat ≤ 122 := by
  unfold isWordStart Char.isAlpha Char.isUpper Char.isLower at h
  simp only [Bool.or_eq_true, Bool.and_eq_true, decide_eq_true_eq, beq_iff_eq, ge_iff_le,
    UInt32.le_iff_toNat_le] at h
  change ((65 ≤ c.toNat ∧ c.toNat ≤ 90) ∨ (97 ≤ c.toNat ∧ c.toNat ≤ 122)) ∨ c = '_' at h
  rcases h with (h | h) | rfl
  · omega
  · omega
  · decide

/-- The code points of decimal digits: those of ASCII, and those far above it. -/
theorem toNat_of_isDigit {c : Char} (h : isDigit c = true) :
    (48 ≤ c.toNat ∧ c.toNat ≤ 57) ∨ 1632 ≤ c.toNat := by
  unfold isDigit digitValue? at h
  rw [Option.isSome_map, List.find?_isSome] at h
  obtain ⟨z, hz, hc⟩ := h
  have hrange : ∀ z ∈ digitZeros, z = 48 ∨ 1632 ≤ z := by decide
  simp only [Bool.and_eq_true, decide_eq_true_eq] at hc
  have := hrange z hz
  omega

theorem toNat_of_isSpace {c : Char} (h : isSpace c = true) : c.toNat ≤ 32 := by
  unfold isSpace at h
  simp only [Bool.or_eq_true, beq_iff_eq] at h
  rcases h with (((rfl | rfl) | rfl) | rfl) | rfl <;> decide

/-- Spaces and the slash come before the digits. -/
theorem not_gap_of_toNat {c : Char} (h : 48 ≤ c.toNat) : isSpace c = false ∧ c ≠ '/' := by
  have hslash : '/'.toNat = 47 := rfl
  constructor
  · by_cases hs : isSpace c = true
    · have := toNat_of_isSpace hs
      omega
    · exact Bool.eq_false_iff.2 hs
  · intro he
    rw [he, hslash] at h
    omega

theorem isDigit_eq_false_of_isWordStart {c : Char} (h : isWordStart c = true) :
    isDigit c = false := by
  have hc := toNat_of_isWordStart h
  by_cases hd : isDigit c = true
  · have := toNat_of_isDigit hd
    omega
  · exact Bool.eq_false_iff.2 hd

namespace TokenKind

theorem start_only {k : TokenKind} {d : Char} (h : k.start = .only d) :
    isDigit d = false ∧ isWordStart d = false ∧ isSpace d = false ∧ d ≠ '/' := by
  cases k <;> cases h <;> decide

/-- The start of a word tells its class, up to classes with the same start. -/
theorem start_unique {k k' : TokenKind} {c : Char} (h : k.start.has c = true)
    (h' : k'.start.has c = true) : k.start = k'.start := by
  cases hk : k.start with
  | digit =>
    rw [hk] at h
    cases hk' : k'.start with
    | digit => rfl
    | letter =>
      rw [hk'] at h'
      exact absurd h (by rw [WordStart.has, isDigit_eq_false_of_isWordStart h']; decide)
    | only d =>
      rw [hk'] at h'
      have hd := start_only hk'
      rw [← eq_of_beq h'] at hd
      exact absurd h (by rw [WordStart.has, hd.1]; decide)
  | letter =>
    rw [hk] at h
    cases hk' : k'.start with
    | digit =>
      rw [hk'] at h'
      exact absurd h' (by rw [WordStart.has, isDigit_eq_false_of_isWordStart h]; decide)
    | letter => rfl
    | only d =>
      rw [hk'] at h'
      have hd := start_only hk'
      rw [← eq_of_beq h'] at hd
      exact absurd h (by rw [WordStart.has, hd.2.1]; decide)
  | only d =>
    rw [hk] at h
    have hd := start_only hk
    rw [← eq_of_beq h] at hd
    cases hk' : k'.start with
    | digit => rw [hk', WordStart.has, hd.1] at h'; cases h'
    | letter => rw [hk', WordStart.has, hd.2.1] at h'; cases h'
    | only d' => rw [hk'] at h'; rw [← eq_of_beq h, eq_of_beq h']

/-- No word starts with what may stand before it. -/
theorem not_gap_of_start {k : TokenKind} {c : Char} (h : k.start.has c = true) :
    isSpace c = false ∧ c ≠ '/' := by
  cases hk : k.start with
  | digit =>
    rw [hk] at h
    have hc := toNat_of_isDigit h
    exact not_gap_of_toNat (by omega)
  | letter =>
    rw [hk] at h
    have hc := toNat_of_isWordStart h
    exact not_gap_of_toNat (by omega)
  | only d =>
    rw [hk] at h
    rw [eq_of_beq h]
    exact (start_only hk).2.2

theorem stopsAt_space {c : Char} (h : isSpace c = true) (k : TokenKind) : k.stopsAt c = true := by
  unfold isSpace at h
  simp only [Bool.or_eq_true, beq_iff_eq] at h
  rcases h with (((rfl | rfl) | rfl) | rfl) | rfl <;> cases k <;> decide

theorem stopsAt_slash (k : TokenKind) : k.stopsAt '/' = true := by cases k <;> decide

end TokenKind

end StyleLang
