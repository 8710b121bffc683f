import StyleLang.Proofs.Grammar.Words
import StyleLang.Read.Place

/-!
# Scanning words

Main statements: what the scan of a class finds is a word of the class, and the token at the front
of a text is the word there, if its class is looked for, no class before it in order takes the
place, and the text goes on with a character that cannot belong to the word.
-/

namespace StyleLang

namespace Scan

/-! ## What a scan finds -/

theorem one_eq_some {p : Char → Bool} {cs l r : List Char} (h : one p cs = some (l, r)) :
    ∃ c, l = [c] ∧ p c = true := by
  cases cs with
  | nil => cases h
  | cons c cs =>
    simp only [one] at h
    split at h
    · next hc =>
      obtain ⟨rfl, -⟩ := Prod.mk.inj (Option.some.inj h)
      exact ⟨c, rfl, hc⟩
    · cases h

theorem exactly_eq_some {w cs l r : List Char} (h : exactly w cs = some (l, r)) : l = w := by
  induction w generalizing cs l r with
  | nil => exact (Prod.mk.inj (Option.some.inj h)).1.symm
  | cons c w ih =>
    obtain ⟨a, b, m, ha, hb, rfl⟩ := both_eq_some h
    obtain ⟨d, rfl, hd⟩ := one_eq_some ha
    rw [ih hb, eq_of_beq hd]
    rfl

theorem word_eq_some {p q : Char → Bool} {cs l r : List Char} (h : word p q cs = some (l, r)) :
    ∃ c ds, l = c :: ds ∧ p c = true ∧ ∀ d ∈ ds, q d = true := by
  obtain ⟨a, b, m, ha, hb, rfl⟩ := both_eq_some h
  obtain ⟨c, rfl, hc⟩ := one_eq_some ha
  obtain ⟨rfl, -⟩ := Prod.mk.inj (Option.some.inj hb)
  exact ⟨c, _, rfl, hc, List.all_eq_true.1 List.all_takeWhile⟩

theorem times_eq_some {p : Char → Bool} {n : Nat} {cs l r : List Char}
    (h : times p n cs = some (l, r)) : l.length = n ∧ ∀ c ∈ l, p c = true := by
  induction n generalizing cs l r with
  | zero =>
    obtain ⟨rfl, -⟩ := Prod.mk.inj (Option.some.inj h)
    exact ⟨rfl, fun c hc => by cases hc⟩
  | succ n ih =>
    obtain ⟨a, b, m, ha, hb, rfl⟩ := both_eq_some h
    obtain ⟨c, rfl, hc⟩ := one_eq_some ha
    obtain ⟨hl, hp⟩ := ih hb
    refine ⟨by rw [List.singleton_append, List.length_cons, hl], fun d hd => ?_⟩
    rcases List.mem_cons.1 hd with rfl | hd
    · exact hc
    · exact hp d hd

/-! ## What a scan does not miss -/

theorem both_append {first second : Scan} {a b rest : List Char}
    (h1 : first (a ++ (b ++ rest)) = some (a, b ++ rest))
    (h2 : second (b ++ rest) = some (b, rest)) :
    both first second (a ++ b ++ rest) = some (a ++ b, rest) := by
  unfold both
  rw [List.append_assoc]
  simp only [h1, h2]

theorem one_cons {p : Char → Bool} {c : Char} (h : p c = true) (cs : List Char) :
    one p (c :: cs) = some ([c], cs) := if_pos h

theorem exactly_append (w rest : List Char) : exactly w (w ++ rest) = some (w, rest) := by
  induction w with
  | nil => rfl
  | cons c w ih => exact both_append (a := [c]) (one_cons (beq_self_eq_true c) _) ih

theorem exactly_eq_none {c : Char} {rest : List Char} (h : Follows (· != c) rest)
    (w : List Char) : exactly (c :: w) rest = none := by
  cases rest with
  | nil => rfl
  | cons d rest =>
    have hd := h d rfl
    have : one (fun e => e == c) (d :: rest) = none := if_neg (by simpa using hd)
    unfold exactly both
    rw [this]

theorem many_append {q : Char → Bool} {ds rest : List Char} (h : ∀ d ∈ ds, q d = true)
    (hrest : Follows (fun c => !q c) rest) : many q (ds ++ rest) = some (ds, rest) := by
  have htake : rest.takeWhile q = [] ∧ rest.dropWhile q = rest := by
    cases rest with
    | nil => exact ⟨rfl, rfl⟩
    | cons c rest =>
      have hc := hrest c rfl
      rw [Bool.not_eq_true'] at hc
      exact ⟨by rw [List.takeWhile_cons, hc]; rfl, by rw [List.dropWhile_cons, hc]; rfl⟩
  unfold many
  rw [List.takeWhile_append_of_pos h, List.dropWhile_append_of_pos h, htake.1, htake.2,
    List.append_nil]

theorem word_append {p q : Char → Bool} {c : Char} {ds rest : List Char} (hc : p c = true)
    (h : ∀ d ∈ ds, q d = true) (hrest : Follows (fun c => !q c) rest) :
    word p q (c :: ds ++ rest) = some (c :: ds, rest) :=
  both_append (a := [c]) (one_cons hc _) (many_append h hrest)

theorem times_append {p : Char → Bool} {w : List Char} (h : ∀ c ∈ w, p c = true)
    (rest : List Char) : times p w.length (w ++ rest) = some (w, rest) := by
  induction w with
  | nil => rfl
  | cons c w ih =>
    have hw := ih fun d hd => h d (List.mem_cons_of_mem _ hd)
    exact both_append (a := [c]) (one_cons (h c List.mem_cons_self) _) hw

theorem digits_append {ds rest : List Char} (h : IsDigits ds)
    (hrest : Follows (fun c => !isDigit c) rest) :
    word isDigit isDigit (ds ++ rest) = some (ds, rest) := by
  obtain ⟨hne, hds⟩ := h
  cases ds with
  | nil => exact absurd rfl hne
  | cons d ds =>
    exact word_append (hds d List.mem_cons_self) (fun c hc => hds c (List.mem_cons_of_mem _ hc))
      hrest

end Scan

/-! ## Classes -/

namespace TokenKind

theorem start_of_word {k : TokenKind} {w : List Char} (h : k.Word w) :
    ∃ c cs, w = c :: cs ∧ k.start.has c = true := by
  have hnumber : ∀ u : List Char, (∃ ds, IsDigits ds ∧ w = ds ++ u) →
      ∃ c cs, w = c :: cs ∧ WordStart.digit.has c = true := by
    rintro u ⟨ds, ⟨hne, hds⟩, rfl⟩
    cases ds with
    | nil => exact absurd rfl hne
    | cons d ds => exact ⟨d, ds ++ u, rfl, hds d List.mem_cons_self⟩
  cases k with
  | pixel | percentage | scalar => exact hnumber _ h
  | name | reference =>
    obtain ⟨c, cs, rfl, hc, -⟩ := h
    exact ⟨c, cs, rfl, hc⟩
  | classSelector | idSelector =>
    obtain ⟨n, -, rfl⟩ := h
    exact ⟨_, n, rfl, rfl⟩
  | color =>
    obtain ⟨hex, rfl, -⟩ := h
    exact ⟨_, hex, rfl, rfl⟩
  | _ =>
    obtain rfl := h
    exact ⟨_, _, rfl, by decide⟩

theorem word_of_scan {k : TokenKind} {cs l r : List Char} (h : k.scan cs = some (l, r)) :
    k.Word l := by
  have hnumber : ∀ m : Measure, Scan.number m cs = some (l, r) →
      ∃ ds, IsDigits ds ∧ l = ds ++ m.unit.toList := by
    intro m hm
    obtain ⟨ds, u, rest, hds, hu, rfl⟩ := Scan.both_eq_some hm
    obtain ⟨d, ds, rfl, hd, hds⟩ := Scan.word_eq_some hds
    refine ⟨d :: ds, ⟨by simp, fun c hc => ?_⟩, by rw [Scan.exactly_eq_some hu]⟩
    rcases List.mem_cons.1 hc with rfl | hc
    · exact hd
    · exact hds c hc
  cases k with
  | pixel | percentage | scalar => exact hnumber _ h
  | name | reference => exact Scan.word_eq_some h
  | classSelector =>
    obtain ⟨dot, n, rest, hdot, hn, rfl⟩ := Scan.both_eq_some h
    exact ⟨n, Scan.word_eq_some hn, by rw [Scan.exactly_eq_some hdot]; rfl⟩
  | idSelector =>
    obtain ⟨hash, n, rest, hhash, hn, rfl⟩ := Scan.both_eq_some h
    obtain ⟨c, ds, rfl, hc, hds⟩ := Scan.word_eq_some hn
    refine ⟨c :: ds, ⟨by simp, fun d hd => ?_⟩, by rw [Scan.exactly_eq_some hhash]; rfl⟩
    rcases List.mem_cons.1 hd with rfl | hd
    · exact hc
    · exact hds d hd
  | color =>
    obtain ⟨hash, hex, rest, hhash, hhex, rfl⟩ := Scan.both_eq_some h
    exact ⟨hex, by rw [Scan.exactly_eq_some hhash]; rfl, Scan.times_eq_some hhex⟩
  | falseCapital | falseSmall | elseWord | trueCapital | trueSmall | ifWord => cases h
  | _ => exact Scan.exactly_eq_some h

/-- A scan of a class fails where no word of the class can start. -/
theorem scan_eq_none {k : TokenKind} {c : Char} (h : k.start.has c = false) (cs : List Char) :
    k.scan (c :: cs) = none := by
  cases hk : k.scan (c :: cs) with
  | none => rfl
  | some m =>
    obtain ⟨d, ds, hl, hd⟩ := start_of_word (word_of_scan hk)
    have hcs := k.splits_scan _ _ _ hk
    rw [hl, List.cons_append] at hcs
    rw [(List.cons.inj hcs).1, hd] at h
    cases h

/-- The class is that of one of the keywords. -/
def IsKeyword (k : TokenKind) : Prop := ∃ w, (k, w) ∈ keywords

instance (k : TokenKind) : Decidable k.IsKeyword :=
  decidable_of_iff (k ∈ keywords.map Prod.fst) (by simp [IsKeyword])

theorem mem_keywords {k : TokenKind} (hk : k.IsKeyword) (w : List Char) :
    (k, w) ∈ keywords ↔ k.Word w := by
  cases k <;> first | exact absurd hk (by decide) | simp [keywords, Word]

theorem scan_append {k : TokenKind} {w rest : List Char} (hk : ¬ k.IsKeyword) (hw : k.Word w)
    (hrest : Follows k.stopsAt rest) : k.scan (w ++ rest) = some (w, rest) := by
  have hnumber : ∀ (m : Measure) (ds : List Char), IsDigits ds →
      Follows (fun c => !isDigit c) (m.unit.toList ++ rest) →
      Scan.number m (ds ++ m.unit.toList ++ rest) = some (ds ++ m.unit.toList, rest) :=
    fun m ds hds hf => Scan.both_append (Scan.digits_append hds hf) (Scan.exactly_append _ _)
  cases k with
  | pixel | percentage =>
    obtain ⟨ds, hds, rfl⟩ := hw
    exact hnumber _ ds hds (follows_cons (by decide) _)
  | scalar =>
    obtain ⟨ds, hds, rfl⟩ := hw
    refine hnumber _ ds hds (hrest.mono fun c hc => ?_)
    simp only [stopsAt, Bool.and_eq_true] at hc
    exact hc.1.1
  | name | reference =>
    obtain ⟨c, cs, rfl, hc, hcs⟩ := hw
    exact Scan.word_append hc hcs hrest
  | classSelector =>
    obtain ⟨n, ⟨c, cs, rfl, hc, hcs⟩, rfl⟩ := hw
    exact Scan.both_append (a := ['.']) (Scan.exactly_append _ _) (Scan.word_append hc hcs hrest)
  | idSelector =>
    obtain ⟨n, ⟨hne, hn⟩, rfl⟩ := hw
    cases n with
    | nil => exact absurd rfl hne
    | cons c cs =>
      have hword := Scan.word_append (hn c List.mem_cons_self)
        (fun d hd => hn d (List.mem_cons_of_mem _ hd)) hrest
      exact Scan.both_append (a := ['#']) (Scan.exactly_append _ _) hword
  | color =>
    obtain ⟨hex, rfl, hl, hhex⟩ := hw
    have htimes := Scan.times_append hhex rest
    rw [hl] at htimes
    exact Scan.both_append (a := ['#']) (Scan.exactly_append _ _) htimes
  | falseCapital | falseSmall | elseWord | trueCapital | trueSmall | ifWord =>
    exact absurd (by decide) hk
  | _ =>
    obtain rfl := hw
    exact Scan.exactly_append _ _

end TokenKind

/-! ## Tokens -/

namespace TokenKind

/-- The classes that are tried before a class and whose words start like its words. -/
def rivals (k : TokenKind) : List TokenKind :=
  (trialOrder.takeWhile fun k' => decide (k' ≠ k)).filter fun k' => decide (k'.start = k.start)

theorem orKeyword_of_free {k : TokenKind} {allowed : TokenKind → Bool} {w : List Char}
    (h : ∀ k', (k', w) ∈ keywords → allowed k' = false) : k.orKeyword allowed w = k := by
  have hnone : (keywords.find? fun k' => allowed k'.1 && decide (k'.2 = w)) = none := by
    rw [List.find?_eq_none]
    rintro ⟨k', w'⟩ hk' hw'
    rw [Bool.and_eq_true, decide_eq_true_eq] at hw'
    obtain ⟨ha, rfl⟩ := hw'
    rw [h k' hk'] at ha
    cases ha
  unfold orKeyword
  simp only [hnone]
  cases k <;> rfl

theorem isVariable_of_keyword {k : TokenKind} {w : List Char} (h : (k, w) ∈ keywords) :
    IsVariable w := by
  have hall : ∀ p ∈ keywords,
      p.2.head?.any isWordStart = true ∧ p.2.tail.all isWordChar = true := by
    decide
  obtain ⟨hc, hcs⟩ := hall _ h
  cases w with
  | nil => cases hc
  | cons c cs => exact ⟨c, cs, rfl, hc, List.all_eq_true.1 hcs⟩

theorem keyword_unique {k k' : TokenKind} {w : List Char} (h : (k, w) ∈ keywords)
    (h' : (k', w) ∈ keywords) : k = k' := by
  have hall : ∀ p ∈ keywords, ∀ q ∈ keywords, p.2 = q.2 → p.1 = q.1 := by decide
  exact hall _ h _ h' rfl

theorem orKeyword_of_keyword {k kw : TokenKind} {allowed : TokenKind → Bool} {w : List Char}
    (hk : k = name ∨ k = reference) (hw : (kw, w) ∈ keywords) (ha : allowed kw = true) :
    k.orKeyword allowed w = kw := by
  have hsome : ∃ p, (keywords.find? fun k' => allowed k'.1 && decide (k'.2 = w)) = some p := by
    rw [← Option.isSome_iff_exists, List.find?_isSome]
    exact ⟨(kw, w), hw, by rw [ha]; simp⟩
  obtain ⟨⟨k', w'⟩, hp⟩ := hsome
  have hmem := List.mem_of_find?_eq_some hp
  have hspell := List.find?_some hp
  rw [Bool.and_eq_true, decide_eq_true_eq] at hspell
  obtain ⟨-, rfl⟩ := hspell
  have hkw : k' = kw := keyword_unique hmem hw
  unfold orKeyword
  rcases hk with rfl | rfl <;> simp only [hp, hkw]

/-- Only a name or a variable becomes a keyword, and only one that is looked for. -/
theorem orKeyword_cases (k : TokenKind) (allowed : TokenKind → Bool) (w : List Char) :
    (k.orKeyword allowed w = k ∧
      ((k = name ∨ k = reference) → ∀ k', (k', w) ∈ keywords → allowed k' = false)) ∨
    ((k = name ∨ k = reference) ∧ (k.orKeyword allowed w, w) ∈ keywords ∧
      allowed (k.orKeyword allowed w) = true) := by
  by_cases hfree : ∀ k', (k', w) ∈ keywords → allowed k' = false
  · exact .inl ⟨orKeyword_of_free hfree, fun _ => hfree⟩
  · simp only [Classical.not_forall, Bool.not_eq_false] at hfree
    obtain ⟨kw, hw, ha⟩ := hfree
    by_cases hk : k = name ∨ k = reference
    · rw [orKeyword_of_keyword hk hw ha]
      exact .inr ⟨hk, hw, ha⟩
    · refine .inl ⟨?_, fun h => absurd h hk⟩
      cases k <;> first | rfl | exact absurd (by decide) hk

end TokenKind

namespace Match

theorem first?_eq {allowed : TokenKind → Bool} {k : TokenKind} {w rest : List Char}
    (hk : ¬ k.IsKeyword) (ha : allowed k = true) (hw : k.Word w)
    (hscan : k.scan (w ++ rest) = some (w, rest))
    (hrivals : ∀ k' ∈ k.rivals, allowed k' = true → k'.scan (w ++ rest) = none) :
    first? allowed (w ++ rest) = some ⟨k.orKeyword allowed w, w, rest⟩ := by
  obtain ⟨c, cs, rfl, hc⟩ := TokenKind.start_of_word hw
  have horder : ∃ later, TokenKind.trialOrder =
      (TokenKind.trialOrder.takeWhile fun k' => decide (k' ≠ k)) ++ k :: later := by
    cases k <;> first | exact absurd (by decide) hk | exact ⟨_, rfl⟩
  obtain ⟨later, horder⟩ := horder
  unfold first?
  rw [List.findSome?_eq_some_iff]
  refine ⟨_, k, later, horder, by rw [ha, hscan]; rfl, fun k' hk' => ?_⟩
  split
  · next ha' =>
    rw [Option.map_eq_none_iff]
    by_cases hstart : k'.start = k.start
    · exact hrivals k' (List.mem_filter.2 ⟨hk', decide_eq_true hstart⟩) ha'
    · refine TokenKind.scan_eq_none ?_ (cs ++ rest)
      cases hc' : k'.start.has c with
      | false => rfl
      | true => exact absurd (TokenKind.start_unique hc' hc) hstart
  · rfl

/-- No two of the classes take each other's words: a variable is never looked for where a name is,
nor a color where an id is, and a keyword only where a word is. -/
structure Orderly (allowed : TokenKind → Bool) : Prop where
  reference : allowed .reference = true → allowed .name = false
  color : allowed .color = true → allowed .idSelector = false
  keyword : ∀ k : TokenKind, k.IsKeyword → allowed k = true →
    (allowed .name = true ∧ k.stopsAt = TokenKind.name.stopsAt) ∨
    (allowed .reference = true ∧ k.stopsAt = TokenKind.reference.stopsAt)

end Match

theorem Place.orderly_allows (place : Place) : Match.Orderly place.allows where
  reference := by cases place <;> simp [allows]
  color := by cases place <;> simp [allows]
  keyword := by
    intro k hk ha
    cases k <;> first
      | exact absurd hk (by decide)
      | cases place <;> first
        | (simp [allows] at ha; done)
        | exact .inl ⟨rfl, rfl⟩
        | exact .inr ⟨rfl, rfl⟩

namespace Match

/-- Of the numbers with the same digits only the one with the right unit is found. -/
theorem number_eq_none {m : Measure} {c : Char} {u ds rest : List Char} (hds : IsDigits ds)
    (hu : m.unit.toList = c :: u) (hrest : Follows (fun d => !isDigit d && d != c) rest) :
    Scan.number m (ds ++ rest) = none := by
  have hdigits := Scan.digits_append hds (hrest.mono fun d hd => (Bool.and_eq_true_iff.1 hd).1)
  have hunit := Scan.exactly_eq_none (hrest.mono fun d hd => (Bool.and_eq_true_iff.1 hd).2) u
  unfold Scan.number Scan.both
  simp only [hdigits, hu, hunit]

theorem Orderly.rivals {allowed : TokenKind → Bool} (h : Orderly allowed) {k : TokenKind}
    {w rest : List Char} (hk : ¬ k.IsKeyword) (ha : allowed k = true) (hw : k.Word w)
    (hrest : Follows k.stopsAt rest) :
    ∀ k' ∈ k.rivals, allowed k' = true → k'.scan (w ++ rest) = none := by
  intro k' hk' ha'
  cases k with
  | percentage =>
    obtain rfl : k' = .pixel := by simpa using (show k' ∈ [TokenKind.pixel] from hk')
    obtain ⟨ds, hds, rfl⟩ := hw
    rw [List.append_assoc]
    exact number_eq_none hds rfl (follows_cons (by decide) _)
  | reference =>
    obtain rfl : k' = .name := by simpa using (show k' ∈ [TokenKind.name] from hk')
    rw [h.reference ha] at ha'
    cases ha'
  | scalar =>
    obtain ⟨ds, hds, rfl⟩ := hw
    have hds' : ds ++ Measure.scalar.unit.toList = ds := List.append_nil ds
    rw [hds']
    obtain rfl | rfl : k' = .pixel ∨ k' = .percentage := by
      simpa using (show k' ∈ [TokenKind.pixel, .percentage] from hk')
    · refine number_eq_none hds rfl (hrest.mono fun d hd => ?_)
      simp only [TokenKind.stopsAt, Bool.and_eq_true] at hd
      rw [Bool.and_eq_true]
      exact hd.1
    · refine number_eq_none hds rfl (hrest.mono fun d hd => ?_)
      simp only [TokenKind.stopsAt, Bool.and_eq_true] at hd
      rw [Bool.and_eq_true]
      exact ⟨hd.1.1, hd.2⟩
  | color =>
    obtain rfl : k' = .idSelector := by simpa using (show k' ∈ [TokenKind.idSelector] from hk')
    rw [h.color ha] at ha'
    cases ha'
  | colon =>
    obtain rfl : k' = .becomes := by simpa using (show k' ∈ [TokenKind.becomes] from hk')
    obtain rfl := hw
    have hequals := Scan.exactly_eq_none hrest []
    unfold TokenKind.scan Scan.exactly Scan.both
    simp [hequals, Scan.one]
  | falseCapital | falseSmall | elseWord | trueCapital | trueSmall | ifWord =>
    exact absurd (by decide) hk
  | _ => exact absurd (show k' ∈ ([] : List TokenKind) from hk') (List.not_mem_nil)

/-- The word of a class that is looked for is found as such: a name or a variable if it is spelled
like no keyword that is looked for. -/
theorem ofText?_word {allowed : TokenKind → Bool} (h : Orderly allowed) {k : TokenKind}
    {w rest : List Char} (ha : allowed k = true) (hw : k.Word w) (hrest : Follows k.stopsAt rest)
    (hfree : k = .name ∨ k = .reference → ∀ k', (k', w) ∈ TokenKind.keywords → allowed k' = false) :
    ofText? allowed (w ++ rest) = some ⟨k, w, rest⟩ := by
  have hfirst : first? allowed (w ++ rest) = some ⟨k, w, rest⟩ := by
    by_cases hk : k.IsKeyword
    · have hmem := (TokenKind.mem_keywords hk w).2 hw
      have hv := TokenKind.isVariable_of_keyword hmem
      rcases h.keyword k hk ha with ⟨hname, hs⟩ | ⟨href, hs⟩
      · rw [hs] at hrest
        have hn : TokenKind.name.Word w := hv.isName
        have hscan := TokenKind.scan_append (by decide) hn hrest
        rw [first?_eq (by decide) hname hn hscan (h.rivals (by decide) hname hn hrest),
          TokenKind.orKeyword_of_keyword (.inl rfl) hmem ha]
      · rw [hs] at hrest
        have hv : TokenKind.reference.Word w := hv
        have hscan := TokenKind.scan_append (by decide) hv hrest
        rw [first?_eq (by decide) href hv hscan (h.rivals (by decide) href hv hrest),
          TokenKind.orKeyword_of_keyword (.inr rfl) hmem ha]
    · have hscan := TokenKind.scan_append hk hw hrest
      rw [first?_eq hk ha hw hscan (h.rivals hk ha hw hrest)]
      rcases TokenKind.orKeyword_cases k allowed w with ⟨he, -⟩ | ⟨hword, hmem, ha'⟩
      · rw [he]
      · rw [hfree hword _ hmem] at ha'
        cases ha'
  unfold ofText?
  rw [hfirst, Option.some_or]

/-- What is found is a word of its class, and no name or variable is spelled like a keyword that is
looked for. -/
theorem ofText?_sound {allowed : TokenKind → Bool} {cs : List Char} {m : Match}
    (h : ofText? allowed cs = some m) :
    m.kind.Word m.lexeme ∧ (m.kind = .name ∨ m.kind = .reference →
      ∀ k', (k', m.lexeme) ∈ TokenKind.keywords → allowed k' = false) := by
  have hfirst : ∀ allowed' : TokenKind → Bool, (∀ k, allowed k = true → allowed' k = true) →
      first? allowed' cs = some m → m.kind.Word m.lexeme ∧
        (m.kind = .name ∨ m.kind = .reference →
          ∀ k', (k', m.lexeme) ∈ TokenKind.keywords → allowed k' = false) := by
    intro allowed' hle hm
    obtain ⟨k, -, hk⟩ := List.exists_of_findSome?_eq_some hm
    split at hk
    · obtain ⟨⟨l, r⟩, hr, rfl⟩ := Option.map_eq_some_iff.1 hk
      rcases TokenKind.orKeyword_cases k allowed' l with ⟨he, hfree⟩ | ⟨-, hmem, -⟩
      · refine ⟨by rw [he]; exact TokenKind.word_of_scan hr, fun hword k' hk' => ?_⟩
        have hf := hfree (by rwa [he] at hword) k' hk'
        cases ha : allowed k' with
        | false => rfl
        | true => rw [hle k' ha] at hf; cases hf
      · refine ⟨(TokenKind.mem_keywords ⟨l, hmem⟩ l).1 hmem, fun hword => ?_⟩
        have hkey : (k.orKeyword allowed' l).IsKeyword := ⟨l, hmem⟩
        have hname : ¬ TokenKind.name.IsKeyword := by decide
        have hreference : ¬ TokenKind.reference.IsKeyword := by decide
        rcases hword with he | he
        · exact absurd (he.subst hkey) hname
        · exact absurd (he.subst hkey) hreference
    · cases hk
  rcases Option.or_eq_some_iff.1 h with h | ⟨-, h⟩
  · exact hfirst allowed (fun _ ha => ha) h
  · exact hfirst _ (fun _ _ => rfl) h

end Match

end StyleLang
