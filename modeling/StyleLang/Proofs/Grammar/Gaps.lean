import StyleLang.Proofs.Grammar.Scanning
import StyleLang.Read.Skip

/-!
# Gaps

Between two words, before the first and after the last one there may be spaces and comments, in any
number and order. Main statements: what is skipped is a gap, and a gap is skipped as a whole if a
word or the end of the text comes after it.
-/

namespace StyleLang

/-- A comment with the marks at its two ends, the second of which is not in it before. -/
def IsComment (w : List Char) : Prop :=
  ∃ body, w = ['/', '*'] ++ body ++ ['*', '/'] ∧ ¬ ['*', '/'] <:+: body

inductive Gap : List Char → Prop where
  | nil : Gap []
  | space {c : Char} {g : List Char} : isSpace c = true → Gap g → Gap (c :: g)
  | comment {w g : List Char} : IsComment w → Gap g → Gap (w ++ g)

/-- The words in order, each after a gap, are the text. -/
inductive Spaced : List (List Char) → List Char → Prop where
  | nil : Spaced [] []
  | cons {g w text : List Char} {ws : List (List Char)} :
    Gap g → Spaced ws text → Spaced (w :: ws) (g ++ w ++ text)

namespace Spaced

theorem one {g : List Char} (h : Gap g) (w : List Char) : Spaced [w] (g ++ w) := by
  have := cons (w := w) h nil
  rwa [List.append_nil] at this

theorem append {ws ws' : List (List Char)} {text text' : List Char} (h : Spaced ws text)
    (h' : Spaced ws' text') : Spaced (ws ++ ws') (text ++ text') := by
  induction h with
  | nil => exact h'
  | cons hg _ ih =>
    rw [List.append_assoc]
    exact cons hg ih

theorem split {ws ws' : List (List Char)} {text : List Char} (h : Spaced (ws ++ ws') text) :
    ∃ a b, text = a ++ b ∧ Spaced ws a ∧ Spaced ws' b := by
  induction ws generalizing text with
  | nil => exact ⟨[], text, rfl, nil, h⟩
  | cons w ws ih =>
    cases h with
    | cons hg h =>
      obtain ⟨a, b, rfl, ha, hb⟩ := ih h
      exact ⟨_, b, (List.append_assoc _ _ _).symm, cons hg ha, hb⟩

end Spaced

theorem Gap.append {g g' : List Char} (h : Gap g) (h' : Gap g') : Gap (g ++ g') := by
  induction h with
  | nil => exact h'
  | space hc _ ih => exact .space hc ih
  | comment hw _ ih =>
    rw [List.append_assoc]
    exact .comment hw ih

theorem gap_of_isSpace {g : List Char} (h : ∀ c ∈ g, isSpace c = true) : Gap g := by
  induction g with
  | nil => exact .nil
  | cons c g ih =>
    have hg : Gap g := ih fun d hd => h d (List.mem_cons_of_mem _ hd)
    exact .space (h c List.mem_cons_self) hg

/-- The words in order, with gaps around them, are the text. -/
def Spelled (ws : List (List Char)) (text : List Char) : Prop :=
  ∃ body gap, Spaced ws body ∧ Gap gap ∧ text = body ++ gap

namespace Spelled

theorem gap {g : List Char} (h : Gap g) : Spelled [] g := ⟨[], g, .nil, h, rfl⟩

theorem word (w : List Char) : Spelled [w] w :=
  ⟨w, [], Spaced.one .nil w, .nil, (List.append_nil w).symm⟩

theorem append {ws ws' : List (List Char)} {text text' : List Char} (h : Spelled ws text)
    (h' : Spelled ws' text') : Spelled (ws ++ ws') (text ++ text') := by
  obtain ⟨body, g, hbody, hg, rfl⟩ := h
  obtain ⟨body', g', hbody', hg', rfl⟩ := h'
  cases hbody' with
  | nil =>
    -- no word is left to stand after the first gap, so it joins the last one
    refine ⟨body, g ++ g', ?_, hg.append hg', List.append_assoc _ _ _⟩
    rwa [List.append_nil]
  | @cons g₁ w rest ws' hg₁ hrest =>
    refine ⟨body ++ (g ++ g₁ ++ w ++ rest), g', hbody.append (.cons (hg.append hg₁) hrest), hg', ?_⟩
    simp only [List.append_assoc]

theorem cons {w text : List Char} {ws : List (List Char)} (h : Spelled ws text) :
    Spelled (w :: ws) (w ++ text) := (word w).append h

theorem space {text : List Char} {ws : List (List Char)} (h : Spelled ws text) :
    Spelled ws (' ' :: text) := (gap (.space rfl .nil)).append h

end Spelled

/-- A character that can start a word, as far as gaps are concerned. -/
def endsGap (c : Char) : Bool := !isSpace c && c != '/'

theorem TokenKind.endsGap_of_start {k : TokenKind} {c : Char} (h : k.start.has c = true) :
    endsGap c = true := by
  obtain ⟨hs, hc⟩ := not_gap_of_start h
  unfold endsGap
  rw [hs, Bool.not_false, Bool.true_and, bne_iff_ne]
  exact hc

/-! ## Comments -/

theorem Scan.commentEnd_append {body : List Char} (h : ¬ ['*', '/'] <:+: body)
    (rest : List Char) :
    commentEnd (body ++ '*' :: '/' :: rest) = some (body ++ ['*', '/'], rest) := by
  induction body with
  | nil => rfl
  | cons c body ih =>
    have hbody : ¬ ['*', '/'] <:+: body := fun hi => h (List.infix_cons hi)
    rw [List.cons_append, commentEnd, ih hbody]
    · rfl
    · rintro cs rfl hcs
      cases body with
      | nil => cases hcs
      | cons d body =>
        obtain rfl := (List.cons.inj hcs).1
        exact h (List.IsPrefix.isInfix ⟨body, rfl⟩)

theorem Scan.commentEnd_eq_some {cs l r : List Char} (h : commentEnd cs = some (l, r)) :
    ∃ body, l = body ++ ['*', '/'] ∧ ¬ ['*', '/'] <:+: body := by
  fun_induction commentEnd cs generalizing l r with
  | case1 cs =>
    obtain ⟨rfl, rfl⟩ := Prod.mk.inj (Option.some.inj h)
    exact ⟨[], rfl, by simp⟩
  | case2 c cs hstop ih =>
    obtain ⟨⟨l', r'⟩, h', he⟩ := Option.map_eq_some_iff.1 h
    obtain ⟨rfl, rfl⟩ := Prod.mk.inj he
    obtain ⟨body, rfl, hbody⟩ := ih h'
    refine ⟨c :: body, rfl, fun hi => ?_⟩
    -- the mark would stand at the front, where the scan would have stopped
    rcases List.infix_cons_iff.1 hi with ⟨tail, ht⟩ | hi
    · obtain ⟨rfl, hb⟩ := List.cons.inj ht
      have hcs := splits_commentEnd _ _ _ h'
      rw [← hb] at hcs
      exact hstop _ rfl hcs
    · exact hbody hi
  | case3 => cases h

theorem Scan.comment_append {w : List Char} (h : IsComment w) (rest : List Char) :
    comment (w ++ rest) = some (w, rest) := by
  obtain ⟨body, rfl, hbody⟩ := h
  have hend := commentEnd_append hbody rest
  have hfront : exactly ['/', '*'] ('/' :: '*' :: (body ++ '*' :: '/' :: rest)) =
      some (['/', '*'], body ++ '*' :: '/' :: rest) := rfl
  have htext : ['/', '*'] ++ body ++ ['*', '/'] ++ rest =
      '/' :: '*' :: (body ++ '*' :: '/' :: rest) := by simp
  unfold comment both
  simp only [htext, hfront, hend]
  rfl

theorem Scan.comment_eq_some {cs l r : List Char} (h : comment cs = some (l, r)) :
    IsComment l := by
  obtain ⟨a, b, m, ha, hb, rfl⟩ := both_eq_some h
  obtain rfl := exactly_eq_some ha
  obtain ⟨body, rfl, hbody⟩ := commentEnd_eq_some hb
  exact ⟨body, (List.append_assoc _ _ _).symm, hbody⟩

/-! ## Skipping -/

theorem skip_eq_nil {cs : List Char} (h : Follows endsGap cs) : skip cs = ([], cs) := by
  cases cs with
  | nil => rw [skip]
  | cons c cs =>
    have hc := h c rfl
    unfold endsGap at hc
    rw [Bool.and_eq_true, Bool.not_eq_true', bne_iff_ne] at hc
    have hcomment : Scan.comment (c :: cs) = none := by
      have hfollows : Follows (· != '/') (c :: cs) := follows_cons (by simpa using hc.2) cs
      have hslash := Scan.exactly_eq_none hfollows ['*']
      unfold Scan.comment Scan.both
      rw [hslash]
    rw [skip]
    simp only [hc.1, Bool.false_eq_true, if_false]
    split
    · rfl
    · next p hp => rw [hcomment] at hp; cases hp

/-- A gap is skipped, and what can be skipped after it. -/
theorem skip_gap_append {g : List Char} (hg : Gap g) (rest : List Char) :
    skip (g ++ rest) = (g ++ (skip rest).1, (skip rest).2) := by
  induction hg with
  | nil => rfl
  | @space c g hc _ ih =>
    rw [List.cons_append, skip]
    simp only [hc, if_true, ih]
    rfl
  | @comment w g hw _ ih =>
    have hcomment := Scan.comment_append hw (g ++ rest)
    obtain ⟨body, rfl, hbody⟩ := hw
    have hslash : isSpace '/' = false := by decide
    rw [List.append_assoc]
    rw [List.append_assoc, List.append_assoc] at hcomment ⊢
    simp only [List.cons_append, List.nil_append] at hcomment ⊢
    rw [skip]
    simp only [hslash, Bool.false_eq_true, if_false]
    split
    · next hn => rw [hcomment] at hn; cases hn
    · next p hp =>
      rw [hcomment] at hp
      obtain rfl := Option.some.inj hp
      simp only [ih]
      simp

theorem skip_gap {g rest : List Char} (hg : Gap g) (h : Follows endsGap rest) :
    skip (g ++ rest) = (g, rest) := by
  rw [skip_gap_append hg, skip_eq_nil h, List.append_nil]

/-- A gap before a token is skipped, and nothing more. -/
theorem skip_token {allowed : TokenKind → Bool} {g cs : List Char} {m : Match} (hg : Gap g)
    (hm : Match.ofText? allowed cs = some m) : skip (g ++ cs) = (g, cs) := by
  obtain ⟨c, l, hl, hc⟩ := TokenKind.start_of_word (Match.ofText?_sound hm).1
  have hcs : cs = c :: (l ++ m.rest) := by rw [Match.splits hm, hl, List.cons_append]
  rw [hcs]
  exact skip_gap hg (follows_cons (TokenKind.endsGap_of_start hc) _)

theorem gap_skip (cs : List Char) : Gap (skip cs).1 := by
  fun_induction skip cs with
  | case1 => exact .nil
  | case2 c cs hc _ ih => exact .space hc ih
  | case3 => exact .nil
  | case4 c cs _ p hp _ ih => exact .comment (Scan.comment_eq_some hp) ih

end StyleLang
