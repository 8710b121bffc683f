import StyleLang.Proofs.Grammar.Completion
import StyleLang.Proofs.Grammar.Cutting
import StyleLang.Proofs.Grammar.Tokens
import StyleLang.Proofs.Text.Headline

/-!
# Where a text goes wrong

A text with a syntax error is right up to the position of the error, and wrong with the token or the
character there. Main statement: what stands before the position can go on to a grammatical text,
and it cannot with what stands there. At the end of a text that could go on, the position is that of
the last token.
-/

namespace StyleLang

/-! ## Cursors -/

namespace Cursor

/-- An earlier place in a text. -/
def Before (a b : Cursor) : Prop := a.line < b.line ∨ a.line = b.line ∧ a.column < b.column

theorem Before.trans {a b c : Cursor} (h : Before a b) (h' : Before b c) : Before a c := by
  unfold Before at *
  omega

theorem not_before_self (a : Cursor) : ¬ Before a a := by
  unfold Before
  omega

theorem before_next (a : Cursor) (c : Char) : Before a (a.next c) := by
  unfold next Before
  split <;> simp

theorem before_after (a : Cursor) (c : Char) (cs : List Char) : Before a (a.after (c :: cs)) := by
  induction cs generalizing a c with
  | nil => exact before_next a c
  | cons d cs ih => exact (before_next a c).trans (ih _ d)

/-- A place in a text tells how much of the text stands before it. -/
theorem eq_of_after_eq {a : Cursor} {cs u v : List Char} (hu : u <+: cs) (hv : v <+: cs)
    (h : a.after u = a.after v) : u = v := by
  have hall : ∀ u v : List Char, u <+: v → a.after u = a.after v → u = v := by
    rintro u _ ⟨w, rfl⟩ h
    cases w with
    | nil => exact (List.append_nil u).symm
    | cons c w =>
      have hbefore := before_after (a.after u) c w
      rw [← after_append, ← h] at hbefore
      exact absurd hbefore (not_before_self _)
  rcases List.prefix_or_prefix_of_prefix hu hv with huv | hvu
  · exact hall u v huv h
  · exact (hall v u hvu h.symm).symm

theorem line_le_after (a : Cursor) (cs : List Char) : a.line ≤ (a.after cs).line := by
  cases cs with
  | nil => exact Nat.le_refl _
  | cons c cs =>
    rcases before_after a c cs with h | ⟨h, -⟩
    · exact Nat.le_of_lt h
    · exact Nat.le_of_eq h

end Cursor

/-! ## Runs that fail -/

/-- What is left after skipping starts with nothing that can be skipped. -/
theorem skip_skip {cs cs' : List Char} {c : Char} (h : (skip cs).2 = c :: cs') :
    isSpace c = false ∧ Scan.comment (c :: cs') = none := by
  fun_induction skip cs with
  | case1 => cases h
  | case2 d cs _ _ ih => exact ih h
  | case3 d cs hd hcomment =>
    obtain ⟨rfl, rfl⟩ := List.cons.inj h
    exact ⟨Bool.eq_false_iff.2 hd, hcomment⟩
  | case4 d cs _ p _ _ ih => exact ih h

theorem skip_cons {c : Char} {cs : List Char} (hspace : isSpace c = false)
    (hcomment : Scan.comment (c :: cs) = none) : skip (c :: cs) = ([], c :: cs) := by
  rw [skip]
  simp only [hspace, Bool.false_eq_true, if_false]
  split
  · rfl
  · next p hp => rw [hcomment] at hp; cases hp

/-- No comment starts with less than a mark. -/
theorem comment_cut (c : Char) (cs : List Char) : Scan.comment (c :: ' ' :: cs) = none := by
  have hmark : Scan.exactly ['/', '*'] (c :: ' ' :: cs) = none := by
    by_cases hc : c = '/'
    · subst hc
      rfl
    · exact Scan.exactly_eq_none (follows_cons (by simpa using hc) _) _
  unfold Scan.comment Scan.both
  rw [hmark]

namespace Reading

/-- How a run over a text fails: after the tokens that it takes the text ends too early, or goes on
with a character or a token that cannot come next. -/
inductive Fails : Reading → Cursor → Cursor → List Char → SyntaxError → Prop where
  | early {r : Reading} {last place : Cursor} {g : List Char} : Gap g → r.isComplete = false →
    Fails r last place g (.unexpectedEnd last)
  | unknown {r : Reading} {last place : Cursor} {g cs : List Char} {c : Char} : Gap g →
    isSpace c = false → Match.ofText? r.place.allows (c :: cs) = none →
    Fails r last place (g ++ c :: cs) (.unknownCharacter c (place.after g))
  | unexpected {r : Reading} {last place : Cursor} {g w rest : List Char} {k : TokenKind} : Gap g →
    Match.ofText? r.place.allows (w ++ rest) = some ⟨k, w, rest⟩ →
    r.step ⟨k, w, place.after g⟩ = none →
    Fails r last place (g ++ (w ++ rest)) (.unexpectedToken ⟨k, w, place.after g⟩)
  | token {r next : Reading} {last place : Cursor} {g w rest : List Char} {k : TokenKind}
    {e : SyntaxError} : Gap g → Match.ofText? r.place.allows (w ++ rest) = some ⟨k, w, rest⟩ →
    r.step ⟨k, w, place.after g⟩ = some next →
    Fails next (place.after g) ((place.after g).after w) rest e →
    Fails r last place (g ++ (w ++ rest)) e

theorem fails_of_run {r : Reading} {last place : Cursor} {cs : List Char} {e : SyntaxError}
    (h : r.run last place cs = .error e) : Fails r last place cs e := by
  -- on the length of the text, since a token leaves a shorter rest
  generalize hn : cs.length = n
  induction n using Nat.strongRecOn generalizing r last place cs with
  | ind n ih =>
    have hcs := skip_append cs
    have hgap := gap_skip cs
    rw [run_eq] at h
    split at h
    · next hend =>
      split at h
      · cases h
      · next hcomplete =>
        obtain rfl := Except.error.inj h
        rw [hend, List.append_nil] at hcs
        exact .early (hcs ▸ hgap) (Bool.eq_false_iff.2 hcomplete)
    · next c cs' hskip =>
      rw [← hcs, hskip]
      dsimp only at h
      split at h
      · next hm =>
        obtain rfl := Except.error.inj h
        exact .unknown hgap (skip_skip hskip).1 hm
      · next m hm =>
        have hsplit := Match.splits hm
        have hlength := Match.length_rest_lt hm
        have hle := length_skip_le cs
        rw [hskip] at hle
        rw [hsplit] at hm ⊢
        split at h
        · next hstep =>
          obtain rfl := Except.error.inj h
          exact .unexpected hgap hm hstep
        · next next hstep => exact .token hgap hm hstep (ih _ (by omega) h rfl)

/-- A run that comes to a character that no token starts with. -/
theorem run_unknown (r : Reading) {last place : Cursor} {g cs : List Char} {c : Char} (hg : Gap g)
    (hspace : isSpace c = false) (hcomment : Scan.comment (c :: cs) = none)
    (hm : Match.ofText? r.place.allows (c :: cs) = none) :
    r.run last place (g ++ c :: cs) = .error (.unknownCharacter c (place.after g)) := by
  rw [run_eq, skip_gap_append hg, skip_cons hspace hcomment, List.append_nil]
  simp only [hm]

/-- After a gap a sound reading can be completed. -/
theorem Sound.completes {r : Reading} (h : r.Sound) {g : List Char} (hg : Gap g)
    (last place : Cursor) : ∃ v r', r.run last place (g ++ ' ' :: v) = .ok r' := by
  obtain ⟨v, r', hr'⟩ := h.completable last (place.after g)
  refine ⟨v, r', ?_⟩
  rw [run_eq, skip_gap_append hg, Cursor.after_append]
  rwa [run_eq] at hr'

end Reading

namespace SyntaxError

/-- The text of the token or the character that cannot come next. -/
def offender? : SyntaxError → Option (List Char)
  | unexpectedToken token => some token.chars
  | unknownCharacter c _ => some [c]
  | unexpectedEnd _ => none

end SyntaxError

namespace Reading

/-- A text that goes wrong with a token or a character can go on up to there, and it cannot go on
with what stands there. -/
theorem Fails.offence {r : Reading} {last place : Cursor} {cs w : List Char} {e : SyntaxError}
    (h : Fails r last place cs e) (hr : r.Sound) (hw : e.offender? = some w) :
    ∃ seen rest, cs = seen ++ (w ++ rest) ∧ e.place = place.after seen ∧
      (∃ v r', r.run last place (seen ++ ' ' :: v) = .ok r') ∧
      ∀ v, r.run last place (seen ++ (w ++ ' ' :: v)) = .error e := by
  induction h with
  | early => cases hw
  | @unknown r last place g cs c hg hspace hm =>
    obtain rfl := Option.some.inj hw
    refine ⟨g, cs, rfl, rfl, hr.completes hg last place, fun v => ?_⟩
    exact run_unknown r hg hspace (comment_cut c v) (Match.ofText?_eq_none_cut (u := [c]) hm v)
  | @unexpected r last place g w rest k hg hm hstep =>
    obtain rfl := Option.some.inj hw
    refine ⟨g, rest, rfl, rfl, hr.completes hg last place, fun v => ?_⟩
    refine (run_token r hg (Match.ofText?_cut (u := []) hm v) last place).trans ?_
    simp only [hstep]
  | @token r next last place g x rest k e hg hm hstep _ ih =>
    obtain ⟨seen, rest, rfl, hplace, ⟨v, r', hv⟩, hwrong⟩ := ih (hr.step hstep) hw
    refine ⟨g ++ (x ++ seen), rest, by simp only [List.append_assoc], ?_, ⟨v, r', ?_⟩, fun v => ?_⟩
    · rw [hplace, Cursor.after_append, Cursor.after_append]
    · rw [List.append_assoc, List.append_assoc, run_token r hg (Match.ofText?_cut hm v), hstep]
      exact hv
    · have hnext := hwrong v
      rw [← List.append_assoc seen] at hm hnext
      rw [List.append_assoc, List.append_assoc, ← List.append_assoc seen,
        run_token r hg (Match.ofText?_cut hm v), hstep]
      exact hnext

/-- A text that ends too early can go on, and the place of the error is the start of its last token,
if there is one. -/
theorem Fails.early_end {r : Reading} {last place stop : Cursor} {cs : List Char}
    (h : Fails r last place cs (.unexpectedEnd stop)) (hr : r.Sound) :
    (∃ v r', r.run last place (cs ++ ' ' :: v) = .ok r') ∧
      ∃ ts r', Reads r place cs ts r' ∧ r'.isComplete = false ∧
        stop = (ts.getLast?.map Token.start).getD last := by
  generalize he : SyntaxError.unexpectedEnd stop = e at h
  induction h with
  | @early r last place g hg hcomplete =>
    obtain rfl := SyntaxError.unexpectedEnd.inj he
    have hend : (skip g).2 = [] := by
      have hskip := skip_gap hg (follows_nil _)
      rw [List.append_nil] at hskip
      rw [hskip]
    exact ⟨hr.completes hg _ place, [], r, .stop hend, hcomplete, rfl⟩
  | unknown => cases he
  | unexpected => cases he
  | @token r next last place g w rest k e hg hm hstep _ ih =>
    obtain ⟨⟨v, r', hv⟩, ts, s, hreads, hcomplete, hstop⟩ := ih (hr.step hstep) he
    have hcut : Match.ofText? r.place.allows (w ++ (rest ++ [])) = some ⟨k, w, rest ++ []⟩ := by
      rwa [List.append_nil]
    refine ⟨⟨v, r', ?_⟩, ⟨k, w, place.after g⟩ :: ts, s, ?_, hcomplete, ?_⟩
    · rw [List.append_assoc, List.append_assoc, run_token r hg (Match.ofText?_cut hcut v), hstep]
      exact hv
    · have hskip := skip_token hg hm
      exact .token (m := ⟨k, w, rest⟩) (by rw [hskip]) (by rw [hskip]; exact hm) hstep hreads
    · rw [hstop, List.getLast?_cons]
      cases ts.getLast? <;> rfl

/-- The last token of a text, with what stands before and after it. -/
theorem Reads.last_token {r r' : Reading} {place : Cursor} {cs : List Char} {ts : List Token}
    {t : Token} (h : Reads r place cs (ts ++ [t]) r') :
    ∃ seen gap, cs = seen ++ (t.chars ++ gap) ∧ Gap gap ∧ t.start = place.after seen := by
  induction ts generalizing r place cs with
  | nil =>
    cases h with
    | @token _ next _ _ start _ m _ hstart hmatch _ hrest =>
      cases hrest with
      | stop hend =>
        have hgap := gap_skip m.rest
        have hrest := skip_append m.rest
        rw [hend, List.append_nil] at hrest
        refine ⟨(skip cs).1, m.rest, ?_, hrest ▸ hgap, hstart⟩
        rw [← Match.splits hmatch, skip_append]
  | cons t' ts ih =>
    cases h with
    | @token _ next _ _ start _ m _ hstart hmatch _ hrest =>
      obtain ⟨seen, gap, hcs, hgap, ht⟩ := ih hrest
      refine ⟨(skip cs).1 ++ (m.lexeme ++ seen), gap, ?_, hgap, ?_⟩
      · rw [List.append_assoc, List.append_assoc, ← hcs, ← Match.splits hmatch, skip_append]
      · rw [ht, hstart, Cursor.after_append, Cursor.after_append]

end Reading

/-! ## Texts that fail -/

/-- An error with a line of its own is shown with its place. -/
theorem SyntaxError.notice_eq {e : SyntaxError} (h : 1 ≤ e.place.line) : e.notice =
    { message := headline e.message, line := some (e.place.line : Int),
      column := some (e.place.column : Int) } := by
  refine Notice.ofMessage_eq (fun l hl => ?_) e.message _
  obtain rfl := Option.some.inj hl
  omega

/-- The error is shown with the position after the text. -/
def SyntaxError.At (e : SyntaxError) (front : List Char) : Prop :=
  e.notice.line = some ((({} : Cursor).after front).line : Int) ∧
    e.notice.column = some ((({} : Cursor).after front).column : Int)

theorem SyntaxError.at_iff {e : SyntaxError} {cs seen front : List Char}
    (hplace : e.place = ({} : Cursor).after seen) (hseen : seen <+: cs) (hfront : front <+: cs) :
    e.At front ↔ front = seen := by
  have hline : 1 ≤ e.place.line := hplace ▸ Cursor.line_le_after {} seen
  rw [SyntaxError.At, notice_eq hline]
  constructor
  · rintro ⟨hl, hc⟩
    refine Cursor.eq_of_after_eq (a := {}) hfront hseen ?_
    rw [Option.some.injEq, Int.natCast_inj] at hl hc
    rw [← hplace]
    exact ((Cursor.mk.injEq ..).mpr ⟨hl, hc⟩).symm
  · rintro rfl
    rw [hplace]
    exact ⟨rfl, rfl⟩

namespace Stylesheet

/-- A text without a syntax error; it may still have a name or a number that the tree does not
take. -/
def Grammatical (cs : List Char) : Prop :=
  ∀ e, Stylesheet.parse (String.ofList cs) ≠ .error (.grammar e)

theorem grammatical_of_run {cs : List Char} {r : Reading}
    (h : ({} : Reading).run {} {} cs = .ok r) : Grammatical cs := by
  intro e he
  unfold Stylesheet.parse at he
  rw [String.toList_ofList, h] at he
  dsimp only at he
  split at he <;> cases he

theorem not_grammatical_of_run {cs : List Char} {e : SyntaxError}
    (h : ({} : Reading).run {} {} cs = .error e) : ¬ Grammatical cs := by
  intro hg
  refine hg e ?_
  unfold Stylesheet.parse
  rw [String.toList_ofList, h]

theorem run_of_parse {source : String} {e : SyntaxError}
    (h : Stylesheet.parse source = .error (.grammar e)) :
    ({} : Reading).run {} {} source.toList = .error e := by
  unfold Stylesheet.parse at h
  split at h
  · next hrun =>
    obtain rfl := ReadError.grammar.inj (Except.error.inj h)
    exact hrun
  · split at h <;> cases h

theorem at_take_iff {source : String} {e : SyntaxError} {seen rest : List Char}
    (hplace : e.place = ({} : Cursor).after seen) (hsource : source.toList = seen ++ rest)
    {n : Nat} (hn : n ≤ source.length) : e.At (source.toList.take n) ↔ n = seen.length := by
  rw [SyntaxError.at_iff hplace ⟨rest, hsource.symm⟩ (List.take_prefix _ _)]
  rw [← String.length_toList] at hn
  constructor
  · intro h
    rw [← h, List.length_take_of_le hn]
  · rintro rfl
    rw [hsource, List.take_left]

/-- A text without the colon after the name of a property. -/
theorem toList_without_colon : "p { a 1px; }".toList =
    ['p', ' ', '{', ' ', 'a', ' ', '1', 'p', 'x', ';', ' ', '}'] := by decide

theorem parse_without_colon : Stylesheet.parse "p { a 1px; }" =
    .error (.grammar (.unexpectedToken ⟨.pixel, ['1', 'p', 'x'], ⟨1, 7⟩⟩)) := by
  have hrun : ({} : Reading).run {} {}
      ['p', ' ', '{', ' ', 'a', ' ', '1', 'p', 'x', ';', ' ', '}'] =
        .error (.unexpectedToken ⟨.pixel, ['1', 'p', 'x'], ⟨1, 7⟩⟩) := by
    have hspace := Reading.gap_space
    refine (Reading.run_token (g := []) (m := ⟨.name, ['p'], _⟩) _ .nil rfl _ _).trans ?_
    refine (Reading.run_token (m := ⟨.leftBrace, ['{'], _⟩) _ hspace rfl _ _).trans ?_
    refine (Reading.run_token (m := ⟨.name, ['a'], _⟩) _ hspace rfl _ _).trans ?_
    exact Reading.run_token (m := ⟨.pixel, ['1', 'p', 'x'], _⟩) _ hspace rfl _ _
  unfold Stylesheet.parse
  rw [toList_without_colon, hrun]

/-- The position of a syntax error is where the text goes wrong. -/
theorem syntax_error_position {source : String} {e : SyntaxError}
    (h : Stylesheet.parse source = .error (.grammar e)) :
    ∃ o ≤ source.length, (∀ n ≤ source.length, e.At (source.toList.take n) ↔ n = o) ∧
      match e.offender? with
      | some w => w <+: source.toList.drop o ∧
        (∃ v, Grammatical (source.toList.take o ++ v)) ∧
        ∀ v, ¬ Grammatical (source.toList.take o ++ w ++ ' ' :: v)
      | none => (∃ v, v ≠ [] ∧ Grammatical (source.toList ++ v)) ∧
        ∃ ts t r gap, Reading.Reads {} {} source.toList (ts ++ [t]) r ∧
          source.toList.drop o = t.chars ++ gap ∧ Gap gap := by
  have hfails := Reading.fails_of_run (run_of_parse h)
  cases hoffender : e.offender? with
  | some w =>
    obtain ⟨seen, rest, hsource, hplace, ⟨v, r, hv⟩, hwrong⟩ := hfails.offence .start hoffender
    refine ⟨seen.length, ?_, fun n hn => at_take_iff hplace hsource hn, ?_⟩
    · rw [← String.length_toList, hsource, List.length_append]
      exact Nat.le_add_right _ _
    · dsimp only
      rw [hsource, List.drop_left, List.take_left]
      refine ⟨List.prefix_append _ _, ⟨_, grammatical_of_run hv⟩, fun v => ?_⟩
      rw [List.append_assoc]
      exact not_grammatical_of_run (hwrong v)
  | none =>
    cases e with
    | unexpectedToken | unknownCharacter => cases hoffender
    | unexpectedEnd stop =>
      obtain ⟨⟨v, r, hv⟩, ts, r', hreads, hcomplete, hstop⟩ := hfails.early_end .start
      rcases List.eq_nil_or_concat ts with rfl | ⟨ts, t, rfl⟩
      · -- without a token the reading would be complete
        cases hreads
        cases hcomplete
      · rw [List.concat_eq_append] at hreads hstop
        obtain ⟨seen, gap, hsource, hgap, ht⟩ := hreads.last_token
        have hplace : (SyntaxError.unexpectedEnd stop).place = ({} : Cursor).after seen := by
          rw [← ht]
          simpa [SyntaxError.place] using hstop
        refine ⟨seen.length, ?_, fun n hn => at_take_iff hplace hsource hn, ?_⟩
        · rw [← String.length_toList, hsource, List.length_append]
          exact Nat.le_add_right _ _
        · refine ⟨⟨' ' :: v, by simp, grammatical_of_run hv⟩, ts, t, r', gap, hreads, ?_, hgap⟩
          rw [hsource, List.drop_left]

theorem syntax_error_position_without_colon :
    (∃ v, Grammatical (['p', ' ', '{', ' ', 'a', ' '] ++ v)) ∧
      ∀ v, ¬ Grammatical (['p', ' ', '{', ' ', 'a', ' ', '1', 'p', 'x'] ++ ' ' :: v) := by
  obtain ⟨o, -, hat, -, hgood, hwrong⟩ := syntax_error_position parse_without_colon
  rw [toList_without_colon] at hat hgood hwrong
  obtain rfl : 6 = o := (hat 6 (by decide)).1 ⟨rfl, rfl⟩
  exact ⟨hgood, hwrong⟩

end Stylesheet

end StyleLang
