import Mathlib.Data.List.TakeWhile
import StyleLang.Read.Error

/-!
# Headlines

A message can have any text. Its headline is the first line of what is left of it without the blanks
at its two ends. Every character that breaks lines is a blank, so what is left does not start with
one, and if anything is left there is a first line, which is not empty. Main statement: whatever
text a notice is made of, its message is one line that is not empty and starts with no blank.
-/

namespace StyleLang

/-! ## Blanks at the ends -/

theorem isBlank_eq_false_of_isDigit {c : Char} (h : c.isDigit = true) : isBlank c = false := by
  have hrange : 48 ≤ c.toNat ∧ c.toNat ≤ 57 := Char.isDigit_iff_toNat.1 h
  simp [isBlank, blankRanges]
  omega

theorem trimWhere_eq_self {p : Char → Bool} {cs : List Char}
    (hfirst : ∀ c, cs.head? = some c → p c = false)
    (hlast : ∀ c, cs.getLast? = some c → p c = false) : trimWhere p cs = cs := by
  have hstays : ∀ ds : List Char, (∀ c, ds.head? = some c → p c = false) → ds.dropWhile p = ds := by
    intro ds hds
    cases ds with
    | nil => rfl
    | cons d ds => rw [List.dropWhile_cons, hds d rfl, if_neg Bool.false_ne_true]
  rw [← List.head?_reverse] at hlast
  rw [trimWhere, hstays cs hfirst, hstays cs.reverse hlast, List.reverse_reverse]

/-- The inner text is the text without the blanks at its two ends. -/
structure IsTrimmed (inner cs : List Char) : Prop where
  around : ∃ before after, cs = before ++ inner ++ after ∧ (∀ c ∈ before, isBlank c = true) ∧
    ∀ c ∈ after, isBlank c = true
  first : ∀ c, inner.head? = some c → isBlank c = false
  last : ∀ c, inner.getLast? = some c → isBlank c = false

theorem isBlank_of_head?_dropWhile {cs : List Char} {c : Char}
    (h : (cs.dropWhile isBlank).head? = some c) : isBlank c = false := by
  have hnot := List.head?_dropWhile_not isBlank cs
  rw [h] at hnot
  simpa using hnot

theorem isTrimmed_trim (cs : List Char) : IsTrimmed (trim cs) cs := by
  generalize hrest : cs.dropWhile isBlank = rest
  have hfront : cs.takeWhile isBlank ++ rest = cs := hrest ▸ List.takeWhile_append_dropWhile
  have hback : trim cs ++ (rest.reverse.takeWhile isBlank).reverse = rest := by
    unfold trim trimWhere
    rw [hrest, ← List.reverse_append, List.takeWhile_append_dropWhile, List.reverse_reverse]
  constructor
  · refine ⟨cs.takeWhile isBlank, (rest.reverse.takeWhile isBlank).reverse, ?_, ?_, ?_⟩
    · rw [List.append_assoc, hback, hfront]
    · exact fun c hc => List.mem_takeWhile_imp hc
    · exact fun c hc => List.mem_takeWhile_imp (List.mem_reverse.1 hc)
  · intro c hc
    refine @isBlank_of_head?_dropWhile cs c ?_
    rw [hrest, ← hback, List.head?_append, hc, Option.some_or]
  · intro c hc
    unfold trim trimWhere at hc
    rw [List.getLast?_reverse] at hc
    exact isBlank_of_head?_dropWhile hc

/-- Nothing is left exactly of a text of blanks. -/
theorem IsTrimmed.eq_nil_iff {inner cs : List Char} (h : IsTrimmed inner cs) :
    inner = [] ↔ ∀ c ∈ cs, isBlank c = true := by
  obtain ⟨before, after, rfl, hbefore, hafter⟩ := h.around
  constructor
  · rintro rfl c hc
    rw [List.append_nil] at hc
    exact (List.mem_append.1 hc).elim (hbefore c) (hafter c)
  · intro hall
    cases inner with
    | nil => rfl
    | cons c inner =>
      have hmem : c ∈ before ++ c :: inner ++ after := by simp
      exact absurd (hall c hmem) (Bool.eq_false_iff.1 (h.first c rfl))

/-! ## Lines -/

/-- A text without line breaks. -/
def IsUnbroken (cs : List Char) : Prop := ∀ c ∈ cs, isLineBreak c = false

theorem isUnbroken_append {xs ys : List Char} :
    IsUnbroken (xs ++ ys) ↔ IsUnbroken xs ∧ IsUnbroken ys := List.forall_mem_append

theorem isUnbroken_of_all {cs : List Char} (h : cs.all fun c => !isLineBreak c) :
    IsUnbroken cs := by
  intro c hc
  simpa using List.all_eq_true.1 h c hc

/-- The lines of a text, without the characters that break them. A carriage return and a line feed
after it are one break, and there is no line after the last break of a text that ends with one. -/
def lines : List Char → List (List Char)
  | [] => []
  | '\r' :: '\n' :: cs => [] :: lines cs
  | c :: cs =>
    if isLineBreak c then [] :: lines cs
    else
      match lines cs with
      | [] => [[c]]
      | line :: rest => (c :: line) :: rest

/-- A text that is not empty has a first line, which ends where the text first breaks. -/
theorem head?_lines {cs : List Char} (h : cs ≠ []) :
    (lines cs).head? = some (cs.takeWhile fun c => !isLineBreak c) := by
  fun_induction lines cs with
  | case1 => exact absurd rfl h
  | case2 cs ih => rfl
  | case3 c cs _ hc ih => simp [hc]
  | case4 c cs _ hc hnil ih =>
    -- no line after the character: it is the last one
    have hcs : cs = [] := by
      by_contra hne
      rw [hnil] at ih
      cases ih hne
    subst hcs
    simp [hc]
  | case5 c cs _ hc line rest hlines ih =>
    have hne : cs ≠ [] := by
      rintro rfl
      cases hlines
    rw [hlines] at ih
    obtain rfl := Option.some.inj (ih hne)
    simp [hc]

example : lines ['a', '\r', '\n', '\n', 'b', '\x0b'] = [['a'], [], ['b']] := by decide

/-! ## Headlines -/

theorem headline_eq_of_trim_nil {message : String} (h : trim message.toList = []) :
    headline message = "syntax error" := by
  unfold headline
  rw [h]

/-- The headline of a message that has more than blanks is the first line of what is left. -/
theorem toList_headline_eq {message : String} (h : trim message.toList ≠ []) :
    (headline message).toList = (trim message.toList).takeWhile fun c => !isLineBreak c := by
  unfold headline
  split
  · next hnil => exact absurd hnil h
  · next hcons => rw [hcons, String.toList_ofList]

/-- The headline of a message without blanks at its ends is its first line. -/
theorem toList_headline {message : String} (hne : message ≠ "")
    (hfirst : ∀ c, message.toList.head? = some c → isBlank c = false)
    (hlast : ∀ c, message.toList.getLast? = some c → isBlank c = false) :
    (headline message).toList = message.toList.takeWhile fun c => !isLineBreak c := by
  have htrim : trim message.toList = message.toList := trimWhere_eq_self hfirst hlast
  have htrimmed : trim message.toList ≠ [] := by
    rw [htrim]
    exact fun hnil => hne (String.toList_eq_nil_iff.1 hnil)
  rw [toList_headline_eq htrimmed, htrim]

/-- What is left of a message is its headline and what follows the first break in it. -/
theorem exists_trim_eq_headline_append {message : String} (h : trim message.toList ≠ []) :
    ∃ rest, trim message.toList = (headline message).toList ++ rest ∧
      (rest = [] ∨ ∃ c cs, rest = c :: cs ∧ isLineBreak c = true) := by
  rw [toList_headline_eq h]
  refine ⟨_, List.takeWhile_append_dropWhile.symm, ?_⟩
  have hstop := List.head?_dropWhile_not (fun c => !isLineBreak c) (trim message.toList)
  generalize (trim message.toList).dropWhile (fun c => !isLineBreak c) = rest at hstop ⊢
  cases rest with
  | nil => exact .inl rfl
  | cons c cs => exact .inr ⟨c, cs, rfl, by simpa using hstop⟩

/-- What is left of a message starts with no blank, so with no line break, and the headline starts
in the same way. -/
theorem head?_headline {message : String} (h : trim message.toList ≠ []) :
    (headline message).toList.head? = (trim message.toList).head? := by
  rw [toList_headline_eq h]
  have hfirst := (isTrimmed_trim message.toList).first
  generalize trim message.toList = inner at h hfirst
  cases inner with
  | nil => exact absurd rfl h
  | cons c inner =>
    have hbreak : isLineBreak c = false := Bool.eq_false_iff.2 fun hbreak =>
      Bool.eq_false_iff.1 (hfirst c rfl) (isBlank_of_isLineBreak hbreak)
    simp [hbreak]

theorem isUnbroken_headline (message : String) : IsUnbroken (headline message).toList := by
  by_cases h : trim message.toList = []
  · rw [headline_eq_of_trim_nil h]
    exact isUnbroken_of_all rfl
  · rw [toList_headline_eq h]
    exact fun c hc => by simpa using List.mem_takeWhile_imp hc

theorem headline_ne_empty (message : String) : headline message ≠ "" := by
  by_cases h : trim message.toList = []
  · rw [headline_eq_of_trim_nil h]
    decide
  · intro hempty
    have hhead := head?_headline h
    rw [hempty] at hhead
    exact h (List.head?_eq_none_iff.1 hhead.symm)

theorem isBlank_head_headline {message : String} {c : Char}
    (hc : (headline message).toList.head? = some c) : isBlank c = false := by
  by_cases h : trim message.toList = []
  · rw [headline_eq_of_trim_nil h] at hc
    obtain rfl : 's' = c := Option.some.inj hc
    decide
  · rw [head?_headline h] at hc
    exact (isTrimmed_trim message.toList).first c hc

namespace Notice

theorem message_ofMessage (message : String) (line column : Option Int) :
    (ofMessage message line column).message = headline message := by
  unfold ofMessage
  split <;> rfl

theorem ofMessage_eq_of_lt {line : Int} (h : line < 1) (message : String)
    (column : Option Int) :
    ofMessage message (some line) column = { message := headline message } := by
  unfold ofMessage
  rw [Option.any_some, decide_eq_true h]
  rfl

theorem ofMessage_eq {line : Option Int} (h : ∀ l, line = some l → 1 ≤ l) (message : String)
    (column : Option Int) :
    ofMessage message line column = { message := headline message, line, column } := by
  have hline : (line.any fun l => decide (l < 1)) = false := by
    cases line with
    | none => rfl
    | some l => simpa using h l rfl
  unfold ofMessage
  rw [hline]
  rfl

/-- Any text makes a clean notice. The message is not empty, has no line break and starts with no
blank. If the text has nothing but blanks it is "syntax error", and else it is the first line of
the text without the blanks at its ends: it starts where that does, and goes on to the first line
break or to the end. A position is kept unless its line is before the first. -/
theorem clean_notice (text : String) (line column : Option Int) :
    ∃ n, ofMessage text line column = n ∧
      n.message ≠ "" ∧ IsUnbroken n.message.toList ∧
      (∀ c, n.message.toList.head? = some c → isBlank c = false) ∧
      ((∀ c ∈ text.toList, isBlank c = true) → n.message = "syntax error") ∧
      ((∃ c ∈ text.toList, isBlank c = false) →
        ∃ inner rest, IsTrimmed inner text.toList ∧ (lines inner).head? = some n.message.toList ∧
          inner = n.message.toList ++ rest ∧
          (rest = [] ∨ ∃ c cs, rest = c :: cs ∧ isLineBreak c = true)) ∧
      ((∃ l, line = some l ∧ l < 1) → n.line = none ∧ n.column = none) ∧
      ((∀ l, line = some l → 1 ≤ l) → n.line = line ∧ n.column = column) := by
  have htrimmed : IsTrimmed (trim text.toList) text.toList := isTrimmed_trim text.toList
  refine ⟨_, rfl, ?_⟩
  rw [message_ofMessage]
  refine ⟨headline_ne_empty text, isUnbroken_headline text, fun c => isBlank_head_headline,
    fun hblank => ?_, ?_, ?_, fun h => ?_⟩
  · exact headline_eq_of_trim_nil (htrimmed.eq_nil_iff.2 hblank)
  · rintro ⟨c, hmem, hc⟩
    have hne : trim text.toList ≠ [] := fun hnil =>
      Bool.eq_false_iff.1 hc (htrimmed.eq_nil_iff.1 hnil c hmem)
    obtain ⟨rest, hrest, hstop⟩ := exists_trim_eq_headline_append hne
    refine ⟨trim text.toList, rest, htrimmed, ?_, hrest, hstop⟩
    rw [head?_lines hne, toList_headline_eq hne]
  · rintro ⟨l, rfl, hl⟩
    rw [ofMessage_eq_of_lt hl]
    exact ⟨rfl, rfl⟩
  · rw [ofMessage_eq h]
    exact ⟨rfl, rfl⟩

end Notice

end StyleLang
