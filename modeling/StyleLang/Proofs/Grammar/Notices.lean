import Mathlib.Data.List.TakeWhile
import StyleLang.Proofs.Grammar.Derivation
import StyleLang.Proofs.Grammar.Prefixes
import StyleLang.Proofs.Text.Decimal
import StyleLang.Proofs.Text.Headline

/-!
# Notices of syntax errors

What is shown of a syntax error is a position and a message, and where only the message is shown, it
has to tell the position too. It does so at its end. But a message about an unknown character has
that character in it, and if the character breaks lines, the end of the message is cut off. Main
statement: the position of a notice is one in the text, its message is one line, and the message
tells the position unless the error is an unknown character that breaks lines.
-/

namespace StyleLang

/-! ## Characters of tokens -/

/-- The characters that tokens consist of. -/
def isTokenChar (c : Char) : Bool :=
  isNameChar c || isDigit c || isHexDigit c ||
    ['.', '#', '%', ':', '=', ';', ',', '{', '}', '[', ']', '(', ')', '+', '*'].contains c

theorem isLineBreak_eq_false_of_isTokenChar {c : Char} (h : isTokenChar c = true) :
    isLineBreak c = false := by
  refine Bool.eq_false_iff.2 fun hbreak => ?_
  simp only [isLineBreak, List.contains_cons, List.contains_nil, Bool.or_eq_true, beq_iff_eq,
    Bool.or_false] at hbreak
  rcases hbreak with rfl | rfl | rfl | rfl | rfl | rfl | rfl | rfl | rfl | rfl <;>
    exact absurd h (by decide)

theorem isTokenChar_of_isNameChar {c : Char} (h : isNameChar c = true) : isTokenChar c = true := by
  simp [isTokenChar, h]

theorem isTokenChar_of_isDigit {c : Char} (h : isDigit c = true) : isTokenChar c = true := by
  simp [isTokenChar, h]

theorem isTokenChar_of_isHexDigit {c : Char} (h : isHexDigit c = true) : isTokenChar c = true := by
  simp [isTokenChar, h]

theorem isTokenChar_of_word {k : TokenKind} {w : List Char} (h : k.Word w) :
    ∀ c ∈ w, isTokenChar c = true := by
  have hname : ∀ {n : List Char}, IsName n → ∀ c ∈ n, isTokenChar c = true := by
    rintro _ ⟨c, cs, rfl, hc, hcs⟩
    refine List.forall_mem_cons.2 ⟨?_, fun d hd => isTokenChar_of_isNameChar (hcs d hd)⟩
    exact isTokenChar_of_isNameChar (isNameChar_of_isWordChar (isWordChar_of_isWordStart hc))
  have hnumber : ∀ m : Measure, ∀ {ds : List Char}, IsDigits ds →
      ∀ c ∈ ds ++ m.unit.toList, isTokenChar c = true := by
    intro m ds hds
    refine List.forall_mem_append.2 ⟨fun c hc => isTokenChar_of_isDigit (hds.2 c hc), ?_⟩
    cases m <;> exact List.all_eq_true.1 rfl
  cases k with
  | pixel => obtain ⟨ds, hds, rfl⟩ := h; exact hnumber .pixel hds
  | percentage => obtain ⟨ds, hds, rfl⟩ := h; exact hnumber .percentage hds
  | scalar => obtain ⟨ds, hds, rfl⟩ := h; exact hnumber .scalar hds
  | name => exact hname h
  | reference => exact hname (IsVariable.isName h)
  | classSelector =>
    obtain ⟨n, hn, rfl⟩ := h
    exact List.forall_mem_cons.2 ⟨rfl, hname hn⟩
  | idSelector =>
    obtain ⟨n, hn, rfl⟩ := h
    exact List.forall_mem_cons.2 ⟨rfl, fun c hc => isTokenChar_of_isNameChar (hn.2 c hc)⟩
  | color =>
    obtain ⟨hex, rfl, -, hhex⟩ := h
    exact List.forall_mem_cons.2 ⟨rfl, fun c hc => isTokenChar_of_isHexDigit (hhex c hc)⟩
  | _ =>
    obtain rfl := h
    exact List.all_eq_true.1 rfl

/-! ## Positions in words -/

namespace Cursor

/-- A position as the messages about tokens give it. -/
def sentence (place : Cursor) : String := s!"line {place.line}, column {place.column}."

/-- A position as the messages about characters give it. -/
def brief (place : Cursor) : String := s!"line {place.line} col {place.column}"

end Cursor

/-- The message tells the position: it ends with it. -/
def Notice.Tells (n : Notice) (place : Cursor) : Prop :=
  place.sentence.toList <:+ n.message.toList ∨ place.brief.toList <:+ n.message.toList

theorem toList_toString (n : Nat) : (toString n).toList = Nat.toDigits 10 n := Nat.toList_repr

theorem isUnbroken_toString (n : Nat) : IsUnbroken (toString n).toList := by
  intro c hc
  rw [toList_toString] at hc
  exact isLineBreak_eq_false_of_isTokenChar
    (isTokenChar_of_isDigit ((isDigits_toDigits n).2 c hc))

namespace Cursor

theorem isUnbroken_sentence (place : Cursor) : IsUnbroken place.sentence.toList := by
  unfold sentence
  simp only [String.toList_append, isUnbroken_append]
  exact ⟨⟨⟨⟨isUnbroken_of_all rfl, isUnbroken_toString _⟩, isUnbroken_of_all rfl⟩,
    isUnbroken_toString _⟩, isUnbroken_of_all rfl⟩

theorem isUnbroken_brief (place : Cursor) : IsUnbroken place.brief.toList := by
  unfold brief
  simp only [String.toList_append, isUnbroken_append]
  exact ⟨⟨⟨isUnbroken_of_all rfl, isUnbroken_toString _⟩, isUnbroken_of_all rfl⟩,
    isUnbroken_toString _⟩

theorem getLast_sentence (place : Cursor) : place.sentence.toList.getLast? = some '.' := by
  unfold sentence
  rw [String.toList_append]
  exact List.getLast?_concat

theorem getLast_brief (place : Cursor) :
    ∃ c, place.brief.toList.getLast? = some c ∧ c.isDigit = true := by
  unfold brief
  have hdigits : Nat.toDigits 10 place.column ≠ [] := Nat.toDigits_ne_nil
  rw [String.toList_append, toList_toString, List.getLast?_append,
    List.getLast?_eq_some_getLast hdigits]
  exact ⟨_, rfl, isDigit_of_mem_toDigits (List.getLast_mem hdigits)⟩

/-- A text that ends with a position ends with a digit or a full stop. -/
theorem getLast_of_suffix {place : Cursor} {cs : List Char}
    (h : place.sentence.toList <:+ cs ∨ place.brief.toList <:+ cs) :
    ∃ c, cs.getLast? = some c ∧ (c.isDigit = true ∨ c = '.') := by
  rcases h with ⟨front, rfl⟩ | ⟨front, rfl⟩
  · refine ⟨'.', ?_, .inr rfl⟩
    rw [List.getLast?_append, getLast_sentence, Option.some_or]
  · obtain ⟨c, hlast, hc⟩ := place.getLast_brief
    refine ⟨c, ?_, .inl hc⟩
    rw [List.getLast?_append, hlast, Option.some_or]

end Cursor

namespace SyntaxError

theorem toList_message_token (t : Token) : (unexpectedToken t).message.toList =
    s!"Unexpected token Token('{t.kind.label}', '{t.text}') at ".toList ++
      t.start.sentence.toList := by
  unfold message Cursor.sentence Token.text
  dsimp only
  rw [String.toList_append]

theorem toList_message_end (last : Cursor) : (unexpectedEnd last).message.toList =
    "Unexpected token Token('$END', '') at ".toList ++ last.sentence.toList := by
  have hat : (toString "Unexpected token Token('$END', '') at line ").toList =
      "Unexpected token Token('$END', '') at ".toList ++ (toString "line ").toList := by decide
  unfold message Cursor.sentence
  dsimp only
  simp only [String.toList_append]
  rw [hat]
  simp only [List.append_assoc]

theorem toList_message_unknown (c : Char) (place : Cursor) :
    (unknownCharacter c place).message.toList = "No terminal matches '".toList ++
      c :: ("' in the current parser context, at ".toList ++ place.brief.toList) := by
  have hat : (toString ", at line ").toList = ", at ".toList ++ (toString "line ").toList := by
    decide
  have hcontext : "' in the current parser context, at ".toList =
      (toString "' ").toList ++ ((toString "in the current parser context").toList ++
        ", at ".toList) := by decide
  have hchar : (toString c).toList = [c] := String.toList_singleton c
  unfold message Cursor.brief
  dsimp only
  simp only [String.toList_append]
  rw [hat, hcontext, hchar]
  simp only [List.append_assoc]
  rfl

/-- A message starts with a capital letter. -/
theorem head_message (e : SyntaxError) :
    e.message.toList.head? = some 'U' ∨ e.message.toList.head? = some 'N' := by
  cases e with
  | unexpectedToken t =>
    rw [toList_message_token]
    simp only [String.toList_append, List.append_assoc]
    exact .inl rfl
  | unexpectedEnd last =>
    rw [toList_message_end]
    exact .inl rfl
  | unknownCharacter c place =>
    rw [toList_message_unknown]
    exact .inr rfl

/-- A message ends with its position. -/
theorem message_tells (e : SyntaxError) :
    e.place.sentence.toList <:+ e.message.toList ∨ e.place.brief.toList <:+ e.message.toList := by
  cases e with
  | unexpectedToken t =>
    rw [toList_message_token]
    exact .inl (List.suffix_append _ _)
  | unexpectedEnd last =>
    rw [toList_message_end]
    exact .inl (List.suffix_append _ _)
  | unknownCharacter c place =>
    rw [toList_message_unknown]
    exact .inr (((List.suffix_append _ _).trans (List.suffix_cons _ _)).trans
      (List.suffix_append _ _))

theorem message_ne_empty (e : SyntaxError) : e.message ≠ "" := by
  intro hempty
  rcases e.head_message with h | h <;> rw [hempty] at h <;> cases h

theorem isBlank_head_message (e : SyntaxError) {c : Char} (hc : e.message.toList.head? = some c) :
    isBlank c = false := by
  rcases e.head_message with h | h <;> rw [h] at hc <;> obtain rfl := Option.some.inj hc <;> decide

/-- The characters in a message are those of one line, apart from an unknown character. -/
theorem isUnbroken_message {e : SyntaxError}
    (hword : ∀ t, e = unexpectedToken t → t.kind.Word t.chars)
    (hchar : ∀ c place, e = unknownCharacter c place → isLineBreak c = false) :
    IsUnbroken e.message.toList := by
  cases e with
  | unexpectedToken t =>
    have hlabel : IsUnbroken t.kind.label.toList := isUnbroken_of_all (by cases t.kind <;> rfl)
    have htext : IsUnbroken t.text.toList := by
      intro c hc
      rw [Token.text, String.toList_ofList] at hc
      exact isLineBreak_eq_false_of_isTokenChar (isTokenChar_of_word (hword t rfl) c hc)
    rw [toList_message_token]
    simp only [String.toList_append, isUnbroken_append]
    exact ⟨⟨⟨⟨⟨isUnbroken_of_all rfl, hlabel⟩, isUnbroken_of_all rfl⟩, htext⟩,
      isUnbroken_of_all rfl⟩, t.start.isUnbroken_sentence⟩
  | unexpectedEnd last =>
    rw [toList_message_end]
    exact isUnbroken_append.2 ⟨isUnbroken_of_all rfl, last.isUnbroken_sentence⟩
  | unknownCharacter c place =>
    rw [toList_message_unknown]
    have hrest : IsUnbroken ("' in the current parser context, at ".toList ++
        place.brief.toList) := isUnbroken_append.2 ⟨isUnbroken_of_all rfl, place.isUnbroken_brief⟩
    exact isUnbroken_append.2 ⟨isUnbroken_of_all rfl,
      List.forall_mem_cons.2 ⟨hchar c place rfl, hrest⟩⟩

theorem toList_headline_message (e : SyntaxError) :
    (headline e.message).toList = e.message.toList.takeWhile fun c => !isLineBreak c := by
  refine toList_headline e.message_ne_empty (fun c => e.isBlank_head_message) fun c hc => ?_
  obtain ⟨d, hlast, hd⟩ := Cursor.getLast_of_suffix e.message_tells
  obtain rfl := Option.some.inj (hlast.symm.trans hc)
  rcases hd with hdigit | rfl
  · exact isBlank_eq_false_of_isDigit hdigit
  · decide

theorem headline_message {e : SyntaxError} (h : IsUnbroken e.message.toList) :
    headline e.message = e.message := by
  rw [← String.toList_inj, e.toList_headline_message, List.takeWhile_eq_self_iff]
  intro c hc
  rw [h c hc, Bool.not_false]

/-- After an unknown character that breaks lines nothing is left of a message, not even the
character. -/
theorem headline_message_unknown {c : Char} (h : isLineBreak c = true) (place : Cursor) :
    headline (unknownCharacter c place).message = "No terminal matches '" := by
  rw [← String.toList_inj, toList_headline_message, toList_message_unknown,
    List.takeWhile_append_of_pos (List.all_eq_true.1 rfl), List.takeWhile_cons, h]
  simp

end SyntaxError

/-! ## Places of errors -/

namespace Reading

/-- The place of an error is after some of the text, unless it is that of the token before. -/
theorem Fails.place_eq {r : Reading} {last place : Cursor} {cs : List Char} {e : SyntaxError}
    (h : Fails r last place cs e) :
    e.place = last ∨ ∃ seen, seen <+: cs ∧ e.place = place.after seen := by
  induction h with
  | early => exact .inl rfl
  | unknown => exact .inr ⟨_, List.prefix_append _ _, rfl⟩
  | unexpected => exact .inr ⟨_, List.prefix_append _ _, rfl⟩
  | @token r next last place g w rest k e _ _ _ _ ih =>
    rcases ih with hplace | ⟨seen, hseen, hplace⟩
    · exact .inr ⟨g, List.prefix_append _ _, hplace⟩
    · refine .inr ⟨g ++ (w ++ seen), ?_, ?_⟩
      · exact (List.prefix_append_right_inj _).2 ((List.prefix_append_right_inj _).2 hseen)
      · rw [hplace, Cursor.after_append, Cursor.after_append]

/-- The token that cannot come next is a word of its class. -/
theorem Fails.word {r : Reading} {last place : Cursor} {cs : List Char} {t : Token}
    (h : Fails r last place cs (.unexpectedToken t)) : t.kind.Word t.chars := by
  generalize he : SyntaxError.unexpectedToken t = e at h
  induction h with
  | early => cases he
  | unknown => cases he
  | unexpected _ hm =>
    obtain rfl := SyntaxError.unexpectedToken.inj he
    exact (Match.ofText?_sound hm).1
  | token _ _ _ _ ih => exact ih he

end Reading

/-! ## Notices -/

/-- The error is about a character that breaks lines. -/
def SyntaxError.BreaksLine (e : SyntaxError) : Prop :=
  ∃ c place, e = .unknownCharacter c place ∧ isLineBreak c = true

/-- A message that the error cuts off does not tell a position. -/
theorem Notice.not_tells_cut {n : Notice} (h : n.message = "No terminal matches '")
    (place : Cursor) : ¬ n.Tells place := by
  intro htells
  obtain ⟨c, hlast, hc⟩ := Cursor.getLast_of_suffix htells
  have hquote : n.message.toList.getLast? = some '\'' := by
    rw [h]
    decide
  obtain rfl := Option.some.inj (hquote.symm.trans hlast)
  exact absurd hc (by decide)

namespace Stylesheet

/-- The notice of a syntax error has a position in the text and a message of one line, which tells
the position unless the error is about a character that breaks lines. -/
theorem syntax_error_notice {source : String} {e : SyntaxError}
    (h : Stylesheet.parse source = .error (.grammar e)) :
    ∃ place : Cursor, e.notice.line = some (place.line : Int) ∧
      e.notice.column = some (place.column : Int) ∧
      1 ≤ place.line ∧ place.line ≤ 1 + source.toList.count '\n' ∧ 1 ≤ place.column ∧
      e.notice.message ≠ "" ∧ IsUnbroken e.notice.message.toList ∧
      (e.notice.Tells place ↔ ¬ e.BreaksLine) := by
  have hfails := Reading.fails_of_run (run_of_parse h)
  obtain ⟨seen, hseen, hplace⟩ : ∃ seen, seen <+: source.toList ∧
      e.place = ({} : Cursor).after seen := by
    rcases hfails.place_eq with hplace | hplace
    · exact ⟨[], List.nil_prefix, hplace⟩
    · exact hplace
  rw [Cursor.after_start] at hplace
  have hline : e.place.line = seen.count '\n' + 1 := congrArg Cursor.line hplace
  have hcount : seen.count '\n' ≤ source.toList.count '\n' := hseen.sublist.count_le _
  have hcolumn : 1 ≤ e.place.column := by
    rw [hplace]
    exact Nat.le_add_left 1 _
  rw [SyntaxError.notice_eq (by omega)]
  refine ⟨e.place, rfl, rfl, by omega, by omega, hcolumn, ?_⟩
  by_cases hbreak : e.BreaksLine
  · obtain ⟨c, place, rfl, hc⟩ := hbreak
    have hne : "No terminal matches '" ≠ "" := by decide
    have hone : IsUnbroken "No terminal matches '".toList := isUnbroken_of_all rfl
    rw [SyntaxError.headline_message_unknown hc place]
    refine ⟨hne, hone, ?_⟩
    exact iff_of_false (Notice.not_tells_cut rfl _) fun hnot => hnot ⟨c, place, rfl, hc⟩
  · have hmessage : IsUnbroken e.message.toList := by
      refine SyntaxError.isUnbroken_message (fun t ht => ?_) fun c place hc => ?_
      · subst ht
        exact hfails.word
      · exact Bool.eq_false_iff.2 fun hc' => hbreak ⟨c, place, hc, hc'⟩
    rw [SyntaxError.headline_message hmessage]
    exact ⟨e.message_ne_empty, hmessage, iff_of_true e.message_tells hbreak⟩

/-- The notice of a missing colon tells where the number is. -/
theorem syntax_error_notice_without_colon : ∃ e : SyntaxError,
    Stylesheet.parse "p { a 1px; }" = .error (.grammar e) ∧ ¬ e.BreaksLine ∧
      e.notice.Tells ⟨1, 7⟩ := by
  have hbreak : ¬ (SyntaxError.unexpectedToken ⟨.pixel, ['1', 'p', 'x'], ⟨1, 7⟩⟩).BreaksLine := by
    rintro ⟨c, place, h, -⟩
    cases h
  obtain ⟨⟨line, column⟩, hl, hc, -, -, -, -, -, htells⟩ := syntax_error_notice parse_without_colon
  rw [SyntaxError.notice_eq (by decide), Option.some.injEq, Int.natCast_inj] at hl hc
  obtain rfl : 1 = line := hl
  obtain rfl : 7 = column := hc
  exact ⟨_, parse_without_colon, hbreak, htells.2 hbreak⟩

/-- A text with a character that breaks lines where a statement may start. -/
theorem parse_separator : Stylesheet.parse "p \x7b\u2028\x7d" =
    .error (.grammar (.unknownCharacter '\u2028' ⟨1, 4⟩)) := by
  have hsource : "p \x7b\u2028\x7d".toList = ['p', ' ', '{', '\u2028', '}'] := by decide
  have hrun : ({} : Reading).run {} {} ['p', ' ', '{', '\u2028', '}'] =
      .error (.unknownCharacter '\u2028' ⟨1, 4⟩) := by
    refine (Reading.run_token (g := []) (m := ⟨.name, ['p'], _⟩) _ .nil rfl _ _).trans ?_
    refine (Reading.run_token (m := ⟨.leftBrace, ['{'], _⟩) _ Reading.gap_space rfl _ _).trans ?_
    exact Reading.run_unknown (g := []) _ .nil rfl rfl rfl
  unfold Stylesheet.parse
  rw [hsource, hrun]

/-- The notice of such a text ends before the character and tells no position. -/
theorem syntax_error_notice_cut :
    ∃ e : SyntaxError, Stylesheet.parse "p \x7b\u2028\x7d" = .error (.grammar e) ∧
      e.notice = { message := "No terminal matches '", line := some 1, column := some 4 } ∧
      ∀ place, ¬ e.notice.Tells place := by
  have hnotice : (SyntaxError.unknownCharacter '\u2028' ⟨1, 4⟩).notice =
      { message := "No terminal matches '", line := some 1, column := some 4 } := by
    rw [SyntaxError.notice_eq (by decide), SyntaxError.headline_message_unknown (by decide)]
    rfl
  refine ⟨_, parse_separator, hnotice, fun place => Notice.not_tells_cut ?_ place⟩
  rw [hnotice]

end Stylesheet

end StyleLang
