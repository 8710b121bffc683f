import StyleLang.Proofs.Grammar.Gaps

/-!
# Cutting a text

A text may be cut off behind a word, and go on with a space and something else. Main statements: the
token at the front is found as before, and where there was none before the cut there is none after
it.
-/

namespace StyleLang

/-! ## Scans -/

namespace Scan

/-- Where a lexeme ends depends on the next character only. -/
def Local (scan : Scan) : Prop := ∀ l rest rest',
  scan (l ++ rest) = some (l, rest) → rest'.head? = rest.head? →
    scan (l ++ rest') = some (l, rest')

theorem local_nil : Local fun cs => some ([], cs) := by
  intro l rest rest' h _
  obtain ⟨rfl, -⟩ := Prod.mk.inj (Option.some.inj h)
  rfl

theorem local_one (p : Char → Bool) : (one p).Local := by
  intro l rest rest' h _
  obtain ⟨c, rfl, hc⟩ := one_eq_some h
  exact one_cons hc rest'

theorem local_many (q : Char → Bool) : (many q).Local := by
  intro l rest rest' h hhead
  obtain ⟨hl, hrest⟩ := Prod.mk.inj (Option.some.inj h)
  refine many_append (fun d hd => List.all_eq_true.1 List.all_takeWhile d (hl ▸ hd)) ?_
  intro c hc
  have hstop := List.head?_dropWhile_not q (l ++ rest)
  rw [hrest, ← hhead, hc] at hstop
  rw [Bool.not_eq_true']
  exact hstop

theorem Local.both {first second : Scan} (hfirst : first.Local) (hsecond : second.Local)
    (hsplits : second.Splits) : (Scan.both first second).Local := by
  intro l rest rest' h hhead
  obtain ⟨a, b, m, ha, hb, rfl⟩ := both_eq_some h
  obtain rfl := hsplits _ _ _ hb
  rw [List.append_assoc] at ha
  refine both_append (hfirst _ _ _ ha ?_) (hsecond _ _ _ hb hhead)
  rw [List.head?_append, List.head?_append, hhead]

theorem local_times (p : Char → Bool) : ∀ n, (times p n).Local
  | 0 => local_nil
  | n + 1 => (local_one p).both (local_times p n) (splits_times p n)

theorem local_exactly : ∀ word, (exactly word).Local
  | [] => local_nil
  | _ :: word => (local_one _).both (local_exactly word) (splits_exactly word)

theorem local_word (start rest : Char → Bool) : (word start rest).Local :=
  (local_one start).both (local_many rest) (splits_many rest)

theorem local_number (m : Measure) : (number m).Local :=
  (local_word _ _).both (local_exactly _) (splits_exactly _)

theorem both_isSome {first second : Scan} {cs l m : List Char} (hfirst : first cs = some (l, m))
    (hsecond : (second m).isSome = true) : (both first second cs).isSome = true := by
  obtain ⟨p, hp⟩ := Option.isSome_iff_exists.1 hsecond
  unfold both
  simp only [hfirst, hp]
  rfl

/-- Whatever comes after it, the first character of a word is a word or the start of one. -/
theorem word_isSome {p q : Char → Bool} {c : Char} (h : p c = true) (cs : List Char) :
    (word p q (c :: cs)).isSome = true :=
  both_isSome (one_cons h cs) rfl

end Scan

namespace TokenKind

theorem local_scan (k : TokenKind) : k.scan.Local := by
  cases k with
  | pixel | percentage | scalar => exact Scan.local_number _
  | name | reference => exact Scan.local_word _ _
  | classSelector | idSelector =>
    exact (Scan.local_exactly _).both (Scan.local_word _ _) (Scan.splits_word _ _)
  | color =>
    exact (Scan.local_exactly _).both (Scan.local_times _ _) (Scan.splits_times _ _)
  | falseCapital | falseSmall | elseWord | trueCapital | trueSmall | ifWord =>
    intro l rest rest' h
    cases h
  | _ => exact Scan.local_exactly _

theorem space_not_mem {k : TokenKind} {w : List Char} (h : k.Word w) : ' ' ∉ w := by
  have hall : ∀ {p : Char → Bool} {cs : List Char}, p ' ' = false → (∀ c ∈ cs, p c = true) →
      ' ' ∉ cs := by
    intro p cs hp hcs hmem
    rw [hcs _ hmem] at hp
    cases hp
  have hdigits : ∀ m : Measure, (∃ ds, IsDigits ds ∧ w = ds ++ m.unit.toList) → ' ' ∉ w := by
    rintro m ⟨ds, ⟨-, hds⟩, rfl⟩ hmem
    rcases List.mem_append.1 hmem with hmem | hmem
    · exact hall (by decide) hds hmem
    · cases m <;> simp [Measure.unit] at hmem
  have hname : ∀ n : List Char, IsName n → ' ' ∉ n := by
    rintro n ⟨c, cs, rfl, hc, hcs⟩ hmem
    rcases List.mem_cons.1 hmem with rfl | hmem
    · exact absurd hc (by decide)
    · exact hall (by decide) hcs hmem
  cases k with
  | pixel | percentage | scalar => exact hdigits _ h
  | name => exact hname w h
  | reference => exact hname w (IsVariable.isName h)
  | classSelector =>
    obtain ⟨n, hn, rfl⟩ := h
    simpa using hname n hn
  | idSelector =>
    obtain ⟨n, ⟨-, hn⟩, rfl⟩ := h
    simpa using hall (by decide) hn
  | color =>
    obtain ⟨hex, rfl, -, hhex⟩ := h
    simpa using hall (by decide) hhex
  | _ =>
    obtain rfl := h
    decide

theorem not_isKeyword_of_scan {k : TokenKind} {cs : List Char} {p : List Char × List Char}
    (h : k.scan cs = some p) : ¬ k.IsKeyword := by
  cases k <;> first | decide | cases h

/-- Whatever comes after a word of the class, a scan finds the word or another one. -/
theorem scan_isSome {k : TokenKind} {w : List Char} (hk : ¬ k.IsKeyword) (hw : k.Word w)
    (rest : List Char) : (k.scan (w ++ rest)).isSome = true := by
  by_cases hstops : Follows k.stopsAt rest
  · rw [scan_append hk hw hstops]
    rfl
  -- a class whose words end only where they have to
  cases k with
  | scalar =>
    obtain ⟨ds, ⟨hne, hds⟩, rfl⟩ := hw
    cases ds with
    | nil => exact absurd rfl hne
    | cons d ds =>
      obtain ⟨p, hp⟩ := Option.isSome_iff_exists.1 (Scan.word_isSome (q := isDigit)
        (hds d List.mem_cons_self) (ds ++ Measure.scalar.unit.toList ++ rest))
      exact @Scan.both_isSome _ (.exactly []) _ _ _ hp rfl
  | name | reference =>
    obtain ⟨c, cs, rfl, hc, -⟩ := hw
    exact Scan.word_isSome hc _
  | classSelector =>
    obtain ⟨n, ⟨c, cs, rfl, hc, -⟩, rfl⟩ := hw
    exact Scan.both_isSome (Scan.exactly_append ['.'] _) (Scan.word_isSome hc (cs ++ rest))
  | idSelector =>
    obtain ⟨n, ⟨hne, hn⟩, rfl⟩ := hw
    cases n with
    | nil => exact absurd rfl hne
    | cons c cs =>
      exact Scan.both_isSome (Scan.exactly_append ['#'] _)
        (Scan.word_isSome (hn c List.mem_cons_self) (cs ++ rest))
  | colon =>
    obtain rfl := hw
    exact Option.isSome_iff_exists.2 ⟨_, Scan.exactly_append [':'] rest⟩
  | falseCapital | falseSmall | elseWord | trueCapital | trueSmall | ifWord =>
    exact absurd (by decide) hk
  | _ => exact absurd (fun _ _ => rfl) hstops

/-- A word is found as before in a text that is cut off behind it. -/
theorem scan_cut {k : TokenKind} {w u v : List Char}
    (h : k.scan (w ++ (u ++ v)) = some (w, u ++ v)) (z : List Char) :
    k.scan (w ++ (u ++ ' ' :: z)) = some (w, u ++ ' ' :: z) := by
  cases u with
  | nil =>
    exact scan_append (not_isKeyword_of_scan h) (word_of_scan h)
      (follows_cons (stopsAt_space (by decide) k) z)
  | cons c u => exact k.local_scan _ _ _ h rfl

/-- Where a scan fails before a text is cut off, it fails after it. -/
theorem scan_eq_none_cut {k : TokenKind} {u v : List Char} (h : k.scan (u ++ v) = none)
    (z : List Char) : k.scan (u ++ ' ' :: z) = none := by
  cases hscan : k.scan (u ++ ' ' :: z) with
  | none => rfl
  | some p =>
    obtain ⟨w, rest⟩ := p
    have hsplit := k.splits_scan _ _ _ hscan
    have hword : w <+: u := by
      rcases List.append_eq_append_iff.1 hsplit with ⟨t, rfl, ht⟩ | ⟨t, rfl, -⟩
      · cases t with
        | nil => exact ⟨[], by simp⟩
        | cons c t =>
          -- the lexeme would have the space in it
          obtain rfl := (List.cons.inj ht).1
          exact absurd (by simp) (space_not_mem (word_of_scan hscan))
      · exact ⟨t, rfl⟩
    obtain ⟨t, rfl⟩ := hword
    rw [List.append_assoc] at h hscan hsplit
    obtain rfl := List.append_cancel_left hsplit
    have hsome : (k.scan (w ++ (t ++ v))).isSome = true := by
      cases t with
      | nil => exact scan_isSome (not_isKeyword_of_scan hscan) (word_of_scan hscan) v
      | cons c t => exact Option.isSome_iff_exists.2 ⟨_, k.local_scan _ _ _ hscan rfl⟩
    rw [h] at hsome
    cases hsome

end TokenKind

/-! ## Tokens -/

namespace Match

variable {allowed : TokenKind → Bool}

theorem first?_eq_none_cut {u v : List Char} (h : first? allowed (u ++ v) = none)
    (z : List Char) : first? allowed (u ++ ' ' :: z) = none := by
  unfold first? at h ⊢
  rw [List.findSome?_eq_none_iff] at h ⊢
  intro k hk
  have hnone := h k hk
  split
  · next ha =>
    rw [if_pos ha, Option.map_eq_none_iff] at hnone
    rw [TokenKind.scan_eq_none_cut hnone]
    rfl
  · rfl

theorem first?_cut {k : TokenKind} {w u v : List Char}
    (h : first? allowed (w ++ (u ++ v)) = some ⟨k, w, u ++ v⟩) (z : List Char) :
    first? allowed (w ++ (u ++ ' ' :: z)) = some ⟨k, w, u ++ ' ' :: z⟩ := by
  unfold first? at h ⊢
  rw [List.findSome?_eq_some_iff] at h ⊢
  obtain ⟨before, kind, after, horder, hkind, hbefore⟩ := h
  refine ⟨before, kind, after, horder, ?_, fun k' hk' => ?_⟩
  · split at hkind
    · next ha =>
      obtain ⟨⟨l, r⟩, hscan, hmatch⟩ := Option.map_eq_some_iff.1 hkind
      obtain ⟨rfl, rfl, rfl⟩ := Match.mk.inj hmatch
      rw [if_pos ha, TokenKind.scan_cut hscan z]
      rfl
    · cases hkind
  · have hnone := hbefore k' hk'
    split
    · next ha =>
      rw [if_pos ha, Option.map_eq_none_iff, ← List.append_assoc] at hnone
      rw [← List.append_assoc, TokenKind.scan_eq_none_cut hnone]
      rfl
    · rfl

/-- Where there is no token before a text is cut off, there is none after it. -/
theorem ofText?_eq_none_cut {u v : List Char} (h : ofText? allowed (u ++ v) = none)
    (z : List Char) : ofText? allowed (u ++ ' ' :: z) = none := by
  obtain ⟨hfirst, hany⟩ := Option.or_eq_none_iff.1 h
  exact Option.or_eq_none_iff.2 ⟨first?_eq_none_cut hfirst z, first?_eq_none_cut hany z⟩

/-- A token is found as before in a text that is cut off behind it. -/
theorem ofText?_cut {k : TokenKind} {w u v : List Char}
    (h : ofText? allowed (w ++ (u ++ v)) = some ⟨k, w, u ++ v⟩) (z : List Char) :
    ofText? allowed (w ++ (u ++ ' ' :: z)) = some ⟨k, w, u ++ ' ' :: z⟩ := by
  rcases Option.or_eq_some_iff.1 h with hfirst | ⟨hfirst, hany⟩
  · exact Option.or_eq_some_iff.2 (.inl (first?_cut hfirst z))
  · rw [← List.append_assoc] at hfirst
    refine Option.or_eq_some_iff.2 (.inr ⟨?_, first?_cut hany z⟩)
    rw [← List.append_assoc]
    exact first?_eq_none_cut hfirst z

end Match

end StyleLang
