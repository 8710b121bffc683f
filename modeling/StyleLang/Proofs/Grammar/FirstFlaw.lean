import StyleLang.Proofs.Grammar.Deriving
import StyleLang.Proofs.Grammar.Following
import StyleLang.Proofs.Grammar.Prefixes

/-!
# Which flaw is raised

A number with too many digits comes up with its token, and a name with a hyphen that something is
assigned to comes up with the semicolon after the assignment. Main statement: a text without a
derivation has a syntax error, whatever flaws it has; any other fails if and only if it has a flaw,
and it fails with the first one.
-/

namespace StyleLang

theorem Token.overlong_of_numberFlaw {t : Token} {flaw : BuildError}
    (h : t.numberFlaw = some flaw) :
    ∃ m digits, flaw = .numberTooLong m digits ∧ t.Overlong m digits := by
  cases flaw with
  | numberTooLong m digits => exact ⟨m, digits, rfl, Token.numberFlaw_eq_some_iff.1 h⟩
  | hyphenatedName name place =>
    unfold numberFlaw at h
    split at h
    · split at h <;> cases h
    · cases h

/-- In the tokens something is assigned to the name. -/
def Assigns (ts : List Token) (name : Token) : Prop :=
  ∃ before becomes after, ts = before ++ name :: becomes :: after ∧ becomes.kind = .becomes

/-- In the tokens something is assigned to the name, and the assignment has not come to its end. -/
def Unfinished (seen : List Token) (name : Token) : Prop :=
  ∃ before becomes between, seen = before ++ name :: becomes :: between ∧
    becomes.kind = .becomes ∧ ∀ t ∈ between, t.kind ≠ .semicolon

/-- The flaw comes up with the token, after the tokens before it. -/
inductive FlawBy (seen : List Token) (t : Token) : BuildError → Prop where
  | number {m : Measure} {digits : Nat} : t.Overlong m digits →
    FlawBy seen t (.numberTooLong m digits)
  | name {name : Token} : t.kind = .semicolon → Unfinished seen name → '-' ∈ name.chars →
    FlawBy seen t (.hyphenatedName name.text name.start)

/-- The flaw comes up with the token at the index. -/
def FlawAt (ts : List Token) (i : Nat) (flaw : BuildError) : Prop :=
  ∃ t, ts[i]? = some t ∧ FlawBy (ts.take i) t flaw

theorem unfinished_concat_iff {seen : List Token} {t name : Token} :
    Unfinished (seen ++ [t]) name ↔ t.kind = .becomes ∧ seen.getLast? = some name ∨
      t.kind ≠ .semicolon ∧ Unfinished seen name := by
  constructor
  · rintro ⟨before, becomes, between, hseen, hbecomes, hbetween⟩
    rcases List.eq_nil_or_concat between with rfl | ⟨between, u, rfl⟩
    · have hsplit : seen ++ [t] = (before ++ [name]) ++ [becomes] := by simp [hseen]
      obtain ⟨rfl, hlast⟩ := List.append_inj' hsplit rfl
      obtain rfl := (List.cons.inj hlast).1
      exact .inl ⟨hbecomes, List.getLast?_concat⟩
    · have hsplit : seen ++ [t] = (before ++ name :: becomes :: between) ++ [u] := by simp [hseen]
      obtain ⟨rfl, hlast⟩ := List.append_inj' hsplit rfl
      obtain rfl := (List.cons.inj hlast).1
      exact .inr ⟨hbetween t (by simp), before, becomes, between, rfl, hbecomes,
        fun s hs => hbetween s (by simp [hs])⟩
  · rintro (⟨hk, hlast⟩ | ⟨hk, before, becomes, between, rfl, hbecomes, hbetween⟩)
    · obtain ⟨before, rfl⟩ := List.getLast?_eq_some_iff.1 hlast
      exact ⟨before, t, [], by simp, hk, fun s hs => absurd hs List.not_mem_nil⟩
    · refine ⟨before, becomes, between ++ [t], by simp, hbecomes, fun s hs => ?_⟩
      rcases List.mem_append.1 hs with hs | hs
      · exact hbetween s hs
      · rwa [List.mem_singleton.1 hs]

/-! ## What a place knows of the tokens before it -/

/-- The name that something is being assigned to. -/
def Place.assigned? : Place → Option Token
  | operand (.assignment name) _ => some name
  | operator (.assignment name) _ _ => some name
  | _ => none

/-- The name that the place stands after, if it is not known yet what it is the name of. -/
def Place.name? : Place → Option Token
  | named name => some name
  | label name => some name
  | _ => none

namespace Reading

section Steps

variable {r s r' : Reading} {t : Token} {spot : Spot}

theorem Idle.assigned? (h : Idle r spot) : r.place.assigned? = none := by
  cases h with
  | item hr | assigned hr _ => rw [hr]; rfl

theorem Ready.assigned? (h : Ready r spot s) : r.place.assigned? = none := by
  cases h with
  | statement hr | assigned hr _ | decided hr => rw [hr]; rfl

theorem Chosen.assigned? {ss : List Node} (h : Chosen r ss) : r.place.assigned? = none := by
  cases h with
  | named hr | more hr => rw [hr]; rfl

theorem place_closeBlock (h : r.closeBlock = some r') :
    r'.place.assigned? = none ∧ r'.place.name? = none := by
  unfold closeBlock at h
  split at h
  · cases h
  · dsimp only at h
    split at h <;> obtain rfl := Option.some.inj h <;> exact ⟨rfl, rfl⟩

theorem place_endExpression (goal : Goal) (e : Node) :
    (r.endExpression goal e).place.assigned? = none ∧
      (r.endExpression goal e).place.name? = none := by
  cases goal <;> exact ⟨rfl, rfl⟩

/-- A place after a name comes from that name. -/
theorem Moves.name? (h : Moves t r r') {name : Token} (hname : r'.place.name? = some name) :
    name = t := by
  cases h with
  | named _ _ | label _ _ => exact (Option.some.inj hname).symm
  | close _ _ hs =>
    rw [(place_closeBlock hs).2] at hname
    cases hname
  | stop _ _ =>
    rw [(place_endExpression _ _).2] at hname
    cases hname
  | _ => cases hname

theorem assigned?_steady {a : Option Token} (hbefore : r.place.assigned? = a)
    (hafter : r'.place.assigned? = a)
    (hk : t.kind ≠ .becomes ∧ (t.kind = .semicolon → a = none)) : r'.place.assigned? =
    if t.kind = .becomes then r.place.name? else
      if t.kind = .semicolon then none else r.place.assigned? := by
  rw [if_neg hk.1, hbefore, hafter]
  split
  · next hstop => exact hk.2 hstop
  · rfl

/-- Something is assigned to a name from the token after the name on, up to a semicolon. -/
theorem Moves.assigned? (h : Moves t r r') : r'.place.assigned? =
    if t.kind = .becomes then r.place.name? else
      if t.kind = .semicolon then none else r.place.assigned? := by
  cases h with
  | named hr hk => exact assigned?_steady hr.assigned? rfl (by simp [hk])
  | selector hr _ hn =>
    have hk := Token.kind_of_selector? hn
    exact assigned?_steady hr.assigned? rfl (by rcases hk with hk | hk | hk <;> simp [hk])
  | another hr hn =>
    have hk := Token.kind_of_selector? hn
    exact assigned?_steady (by rw [hr]; rfl) rfl (by rcases hk with hk | hk | hk <;> simp [hk])
  | comma hr hk | rule hr hk => exact assigned?_steady hr.assigned? rfl (by simp [hk])
  | label hr hk | conditional hr hk => exact assigned?_steady hr.assigned? rfl (by simp [hk])
  | close hr hk hs => exact assigned?_steady hr.assigned? (place_closeBlock hs).1 (by simp [hk])
  | becomes hr hk => rcases hr with hr | hr <;> rw [if_pos hk, hr] <;> rfl
  | @bracket _ bracket hr hk =>
    exact assigned?_steady (by rw [hr]; rfl) rfl (by cases bracket <;> simp [hk, Bracket.left])
  | @operand goal pending a hr ha =>
    have hk : t.kind ≠ .becomes ∧ t.kind ≠ .semicolon := by
      constructor <;> intro hk <;> rw [Token.operand?, hk] at ha <;> cases ha
    refine assigned?_steady ?_ rfl ⟨hk.1, fun h => absurd h hk.2⟩
    rw [hr]
    cases goal <;> rfl
  | @star goal _ _ hr hk =>
    refine assigned?_steady ?_ rfl (by simp [hk, Operator.mark])
    rw [hr]
    cases goal <;> rfl
  | @sign goal _ _ op hr _ hk =>
    refine assigned?_steady ?_ rfl (by cases op <;> simp [hk, Operator.mark])
    rw [hr]
    cases goal <;> rfl
  | @stop goal _ _ hr hk =>
    rw [(place_endExpression _ _).1]
    rcases goal with _ | _ | ⟨_, _ | _⟩ <;> simp [hk, Goal.closer, hr, Place.assigned?]
  | colon hr hk | thenBlock hr hk | elseWord hr hk | elseBlock hr hk =>
    exact assigned?_steady (by rw [hr]; rfl) rfl (by simp [hk])

theorem Moves.name_of_becomes (h : Moves t r r') (hk : t.kind = .becomes) :
    (∃ name, r.place.name? = some name) ∧ r.place.assigned? = none := by
  have hallowed := h.allowed
  rw [hk] at hallowed
  cases hplace : r.place <;> rw [hplace] at hallowed <;> first
    | exact ⟨⟨_, rfl⟩, rfl⟩
    | cases hallowed

/-! ## Tracking -/

/-- What the tokens so far leave open is what the reading is in the middle of. -/
structure Tracks (seen : List Token) (r : Reading) : Prop where
  assigned : ∀ name, r.place.assigned? = some name ↔ Unfinished seen name
  last : ∀ name, r.place.name? = some name → seen.getLast? = some name

theorem tracks_start : Tracks [] {} where
  assigned name := by
    constructor
    · intro h
      cases h
    · rintro ⟨before, becomes, between, h, -⟩
      simp at h
  last name h := by cases h

theorem Tracks.move {seen : List Token} (h : Tracks seen r) (hm : Moves t r r') :
    Tracks (seen ++ [t]) r' where
  assigned name := by
    rw [unfinished_concat_iff, hm.assigned?]
    by_cases hk : t.kind = .becomes
    · obtain ⟨⟨n, hn⟩, hnone⟩ := hm.name_of_becomes hk
      have hunfinished : ¬ Unfinished seen name := by
        rw [← h.assigned, hnone]
        exact Option.some_ne_none name ∘ Eq.symm
      rw [if_pos hk, hn, h.last n hn]
      simp [hk, hunfinished]
    · rw [if_neg hk]
      by_cases hstop : t.kind = .semicolon
      · simp [hstop]
      · simp [hk, hstop, h.assigned]
  last name hname := by
    rw [hm.name? hname]
    exact List.getLast?_concat

theorem operand_of_measure {place : Place} {m : Measure} (hm : t.measure? = some m)
    (ha : place.allows t.kind = true) : ∃ goal pending, place = .operand goal pending := by
  obtain ⟨k, w, start⟩ := t
  cases place with
  | operand goal pending => exact ⟨goal, pending, rfl⟩
  | _ => cases k <;> first
    | exact absurd ha Bool.false_ne_true
    | cases hm

theorem operator_of_assigned {place : Place} {name : Token} (ha : place.allows .semicolon = true)
    (hname : place.assigned? = some name) :
    ∃ sum p, place = .operator (.assignment name) sum p := by
  cases place with
  | operator goal sum p =>
    cases goal with
    | assignment n =>
      obtain rfl := Option.some.inj hname
      exact ⟨sum, p, rfl⟩
    | declaration _ | condition _ _ => cases hname
  | _ => cases ha

/-- A flaw comes up with a token where the reading notes it. -/
theorem Tracks.flawBy_iff {seen : List Token} (h : Tracks seen r) (hm : Moves t r r')
    {flaw : BuildError} : FlawBy seen t flaw ↔ r.place.flaw? t = some flaw := by
  have hallowed := hm.allowed
  constructor
  · intro hflaw
    cases hflaw with
    | number hlong =>
      obtain ⟨goal, pending, hplace⟩ := operand_of_measure hlong.measure hallowed
      rw [hplace]
      exact Token.numberFlaw_eq_some_iff.2 hlong
    | name hk hunfinished hhyphen =>
      rw [hk] at hallowed
      obtain ⟨sum, p, hplace⟩ := operator_of_assigned hallowed ((h.assigned _).2 hunfinished)
      rw [hplace]
      simp [Place.flaw?, hk, Token.nameFlaw, hhyphen]
  · intro hflaw
    unfold Place.flaw? at hflaw
    split at hflaw
    · obtain ⟨m, digits, rfl, hlong⟩ := Token.overlong_of_numberFlaw hflaw
      exact .number hlong
    · next name _ _ hplace =>
      split at hflaw
      · next hk =>
        have hunfinished := (h.assigned name).1 (by rw [hplace]; rfl)
        unfold Token.nameFlaw at hflaw
        split at hflaw
        · next hhyphen =>
          obtain rfl := Option.some.inj hflaw
          exact .name hk hunfinished hhyphen
        · cases hflaw
      · cases hflaw
    · cases hflaw

end Steps

/-- Where the text may end no assignment is unfinished. -/
theorem Tracks.finished {seen : List Token} {r : Reading} (h : Tracks seen r)
    (hcomplete : r.isComplete = true) (name : Token) : ¬ Unfinished seen name := by
  rw [← h.assigned]
  unfold isComplete at hcomplete
  intro hname
  split at hcomplete
  · next hplace =>
    rw [hplace] at hname
    cases hname
  · next hplace =>
    rw [hplace] at hname
    cases hname
  · cases hcomplete

/-! ## The first flaw -/

/-- The flaw comes up with the token at the index, after tokens that have been seen. -/
def FlawAfter (seen ts : List Token) (i : Nat) (flaw : BuildError) : Prop :=
  ∃ t, ts[i]? = some t ∧ FlawBy (seen ++ ts.take i) t flaw

theorem flawAfter_zero {seen ts : List Token} {t : Token} {flaw : BuildError} :
    FlawAfter seen (t :: ts) 0 flaw ↔ FlawBy seen t flaw := by
  simp [FlawAfter]

theorem flawAfter_succ {seen ts : List Token} {t : Token} {i : Nat} {flaw : BuildError} :
    FlawAfter seen (t :: ts) (i + 1) flaw ↔ FlawAfter (seen ++ [t]) ts i flaw := by
  simp [FlawAfter]

/-- The flaw is the first one that comes up, and there is none only if none comes up. -/
def IsFirst (flawAt : Nat → BuildError → Prop) : Option BuildError → Prop
  | none => ∀ i flaw, ¬ flawAt i flaw
  | some flaw => ∃ i, flawAt i flaw ∧ ∀ j g, flawAt j g → i < j ∨ i = j ∧ g = flaw

/-- The first flaw after a token without one is the first flaw with the token, too. -/
theorem IsFirst.later {seen ts : List Token} {t : Token} {found : Option BuildError}
    (h : IsFirst (FlawAfter (seen ++ [t]) ts) found) (hnone : ∀ flaw, ¬ FlawBy seen t flaw) :
    IsFirst (FlawAfter seen (t :: ts)) found := by
  cases found with
  | none =>
    intro i flaw hflaw
    cases i with
    | zero => exact hnone flaw (flawAfter_zero.1 hflaw)
    | succ i => exact h i flaw (flawAfter_succ.1 hflaw)
  | some flaw =>
    obtain ⟨i, hi, hleast⟩ := h
    refine ⟨i + 1, flawAfter_succ.2 hi, fun j g hg => ?_⟩
    cases j with
    | zero => exact absurd (flawAfter_zero.1 hg) (hnone g)
    | succ j =>
      rcases hleast j g (flawAfter_succ.1 hg) with hlt | ⟨rfl, rfl⟩
      · exact .inl (by omega)
      · exact .inr ⟨rfl, rfl⟩

/-- What is noted on the way is the first flaw that comes up there. -/
theorem Leads.flaw {r r' : Reading} {seen ts : List Token} (h : Leads r ts r')
    (htracks : Tracks seen r) :
    (∃ found, IsFirst (FlawAfter seen ts) found ∧ r'.flaw = r.flaw.or found) ∧
      Tracks (seen ++ ts) r' := by
  induction h generalizing seen with
  | nil r =>
    refine ⟨⟨none, ?_, ?_⟩, ?_⟩
    · rintro i flaw ⟨t, ht, -⟩
      simp at ht
    · rw [Option.or_none]
    · rwa [List.append_nil]
  | @cons r next r' t ts ha hm hrest ih =>
    obtain ⟨⟨found, hfound, hflaw⟩, htracks'⟩ := ih (htracks.move hm)
    have hstep := flaw_step (step_eq_some_iff.2 hm)
    have hby := fun flaw => @Tracks.flawBy_iff _ _ _ _ htracks hm flaw
    rw [List.append_assoc] at htracks'
    refine ⟨?_, htracks'⟩
    cases hhere : r.place.flaw? t with
    | none =>
      have hnone : ∀ flaw, ¬ FlawBy seen t flaw := by
        intro flaw hflaw
        rw [hby, hhere] at hflaw
        cases hflaw
      refine ⟨found, hfound.later hnone, ?_⟩
      rw [hflaw, hstep, hhere, Option.or_none]
    | some flaw =>
      refine ⟨some flaw, ⟨0, ?_, fun j g hg => ?_⟩, ?_⟩
      · exact flawAfter_zero.2 ((hby flaw).2 hhere)
      · cases j with
        | zero =>
          rw [flawAfter_zero, hby, hhere] at hg
          exact .inr ⟨rfl, (Option.some.inj hg).symm⟩
        | succ j => exact .inl (Nat.succ_pos j)
      · rw [hflaw, hstep, hhere, Option.or_assoc, Option.some_or]

end Reading

theorem Assigns.of_unfinished {ts : List Token} {i : Nat} {name : Token}
    (h : Unfinished (ts.take i) name) : Assigns ts name := by
  obtain ⟨before, becomes, between, hts, hbecomes, -⟩ := h
  refine ⟨before, becomes, between ++ ts.drop i, ?_, hbecomes⟩
  calc ts = ts.take i ++ ts.drop i := (List.take_append_drop i ts).symm
    _ = before ++ name :: becomes :: (between ++ ts.drop i) := by simp [hts]

/-- An assignment that comes to its end brings up the hyphen in its name there. -/
theorem Assigns.exists_flawAt {ts : List Token} {name : Token} (h : Assigns ts name)
    (hfinished : ¬ Unfinished ts name) (hhyphen : '-' ∈ name.chars) :
    ∃ i, FlawAt ts i (.hyphenatedName name.text name.start) := by
  obtain ⟨before, becomes, after, rfl, hbecomes⟩ := h
  have hsome : (after.find? fun t => decide (t.kind = .semicolon)).isSome = true := by
    rw [List.find?_isSome]
    by_cases hstop : ∃ t ∈ after, t.kind = .semicolon
    · simpa using hstop
    · exact absurd ⟨before, becomes, after, rfl, hbecomes, fun t ht hk => hstop ⟨t, ht, hk⟩⟩
        hfinished
  obtain ⟨stop, hstop⟩ := Option.isSome_iff_exists.1 hsome
  obtain ⟨hk, between, rest, rfl, hbetween⟩ := List.find?_eq_some_iff_append.1 hstop
  refine ⟨(before ++ name :: becomes :: between).length, stop, by simp, ?_⟩
  have htake : (before ++ name :: becomes :: (between ++ stop :: rest)).take
      (before ++ name :: becomes :: between).length = before ++ name :: becomes :: between := by
    rw [← List.cons_append, ← List.cons_append, ← List.append_assoc, List.take_left]
  rw [htake]
  refine .name (of_decide_eq_true hk) ⟨before, becomes, between, rfl, hbecomes, ?_⟩ hhyphen
  intro t ht
  simpa using hbetween t ht

theorem Derived.atom_of_digits {ds : List Char} (hds : IsDigits ds) (start : Cursor) :
    ∃ n, Atom n ⟨.scalar, ds ++ Measure.scalar.unit.toList, start⟩ :=
  ⟨_, ⟨ds, hds, rfl⟩, fun h => (by cases h), rfl⟩

namespace Stylesheet

open Derived (derives_of_run run_of_derives)

/-- A text without a derivation has a syntax error. Any other fails if and only if it assigns
something to a name with a hyphen or has a number with too many digits, and it fails with the first
such flaw: that of a number comes up with its token, and that of a name with the semicolon after the
assignment. -/
theorem parse_first_flaw (source : String) :
    ((∀ ns ts, ¬ Derives source ns ts) → ∃ e, Stylesheet.parse source = .error (.grammar e)) ∧
      ∀ ns ts, Derives source ns ts → (∀ t ∈ ts, t.StandsIn source) ∧
        ((∃ e, Stylesheet.parse source = .error e) ↔
          (∃ name, Assigns ts name ∧ '-' ∈ name.chars) ∨
            ∃ t ∈ ts, ∃ m digits, t.Overlong m digits) ∧
        ∀ e, Stylesheet.parse source = .error e → ∃ i flaw, e = .build flaw ∧ FlawAt ts i flaw ∧
          ∀ j g, FlawAt ts j g → i < j ∨ i = j ∧ g = flaw := by
  constructor
  · intro hnone
    cases hrun : ({} : Reading).run {} {} source.toList with
    | error e => exact ⟨e, by unfold Stylesheet.parse; rw [hrun]⟩
    | ok r =>
      obtain ⟨ts, hderives, -⟩ := derives_of_run hrun
      exact absurd hderives (hnone _ ts)
  · intro ns ts hderives
    obtain ⟨r, hrun, hleads, hcomplete, -⟩ := run_of_derives hderives
    obtain ⟨⟨found, hfound, hflaw⟩, htracks⟩ := hleads.flaw Reading.tracks_start
    have hparse : ∀ e, Stylesheet.parse source = .error e ↔ ∃ flaw, found = some flaw ∧
        e = .build flaw := by
      intro e
      unfold Stylesheet.parse
      rw [hrun]
      dsimp only
      rw [hflaw, Option.none_or]
      cases found with
      | none => simp
      | some flaw => simp [eq_comm]
    refine ⟨hderives.stands, ⟨?_, ?_⟩, ?_⟩
    · rintro ⟨e, he⟩
      obtain ⟨flaw, rfl, -⟩ := (hparse e).1 he
      obtain ⟨i, ⟨t, ht, hby⟩, -⟩ := hfound
      cases hby with
      | number hlong => exact .inr ⟨t, List.mem_of_getElem? ht, _, _, hlong⟩
      | name _ hunfinished hhyphen => exact .inl ⟨_, .of_unfinished hunfinished, hhyphen⟩
    · intro hflaws
      have hat : ∃ i flaw, FlawAt ts i flaw := by
        rcases hflaws with ⟨name, hassigns, hhyphen⟩ | ⟨t, ht, m, digits, hlong⟩
        · have hfinished : ¬ Unfinished ts name := htracks.finished hcomplete name
          obtain ⟨i, hi⟩ := hassigns.exists_flawAt hfinished hhyphen
          exact ⟨i, _, hi⟩
        · obtain ⟨i, hi⟩ := List.getElem?_of_mem ht
          exact ⟨i, _, t, hi, .number hlong⟩
      obtain ⟨i, flaw, hat⟩ := hat
      cases found with
      | none => exact absurd hat (hfound i flaw)
      | some first => exact ⟨_, (hparse _).2 ⟨first, rfl, rfl⟩⟩
    · intro e he
      obtain ⟨flaw, rfl, rfl⟩ := (hparse e).1 he
      obtain ⟨i, hi, hleast⟩ := hfound
      exact ⟨i, flaw, rfl, hi, hleast⟩

/-- A number that is too long comes before the hyphen in the name that it is assigned to. -/
theorem parse_first_flaw_assigned :
    (∃ e, Stylesheet.parse "p { a 1px; }" = .error (.grammar e)) ∧
      ∃ source ns ts digits, Derives source ns ts ∧ FlawAt ts 3 (.hyphenatedName "a-b" ⟨1, 1⟩) ∧
        Stylesheet.parse source = .error (.build (.numberTooLong .scalar digits)) := by
  constructor
  · refine (parse_first_flaw _).1 fun ns ts h => ?_
    obtain ⟨r, hrun, -⟩ := run_of_derives h
    have hparse := parse_without_colon
    unfold Stylesheet.parse at hparse
    rw [hrun] at hparse
    dsimp only at hparse
    split at hparse <;> cases hparse
  · obtain ⟨ds, hds, hlimit⟩ : ∃ ds, IsDigits ds ∧ digitLimit < ds.length := by
      refine ⟨List.replicate (digitLimit + 1) '1', ⟨by simp, fun c hc => ?_⟩, by simp⟩
      rw [List.eq_of_mem_replicate hc]
      decide
    let name : Token := ⟨.name, ['a', '-', 'b'], ⟨1, 1⟩⟩
    let becomes : Token := ⟨.becomes, [':', '='], ⟨1, 4⟩⟩
    let number : Token := ⟨.scalar, ds ++ Measure.scalar.unit.toList, ⟨1, 6⟩⟩
    let stop : Token := ⟨.semicolon, [';'], number.start.after number.chars⟩
    have hdigits : number.digits = ds := takeWhile_isDigit hds .scalar
    have hname : Derived.NameAt .item name :=
      ⟨⟨rfl, 'a', ['-', 'b'], rfl, by decide, List.all_eq_true.1 rfl⟩, id⟩
    obtain ⟨n, hatom⟩ : ∃ n, Derived.Atom n number := Derived.atom_of_digits hds ⟨1, 6⟩
    have hbecomes : becomes.Is .becomes := ⟨rfl, rfl⟩
    have hstop : stop.Is .semicolon := ⟨rfl, rfl⟩
    have hitem := Derived.Item.assignment (.mk hname hbecomes (.product (.atom hatom)) hstop)
    have hlaid : Laid {} [name, becomes, number, stop] _ :=
      .cons .nil rfl (.cons .nil rfl (.cons .nil rfl (.cons .nil rfl (.nil .nil))))
    have hderives : Derives (String.ofList _) [_] [name, becomes, number, stop] :=
      ⟨by rw [String.toList_ofList]; exact hlaid, .snoc .nil hitem⟩
    have hlong : number.Overlong .scalar ds.length := ⟨rfl, congrArg List.length hdigits, hlimit⟩
    have hnumber : FlawAt [name, becomes, number, stop] 2 (.numberTooLong .scalar ds.length) :=
      ⟨number, rfl, .number hlong⟩
    have hunfinished : Unfinished [name, becomes, number] name := by
      refine ⟨[], becomes, [number], rfl, rfl, fun t ht => ?_⟩
      rw [List.mem_singleton.1 ht]
      exact fun h => by cases h
    have hhyphen : FlawAt [name, becomes, number, stop] 3 (.hyphenatedName "a-b" ⟨1, 1⟩) :=
      ⟨stop, rfl, @FlawBy.name _ _ name rfl hunfinished (by decide)⟩
    obtain ⟨-, hfails, hfirst⟩ := (parse_first_flaw _).2 _ _ hderives
    obtain ⟨e, he⟩ := hfails.2 (.inr ⟨number, by simp, _, _, hlong⟩)
    obtain ⟨i, flaw, rfl, hflaw, hleast⟩ := hfirst e he
    rcases hleast 2 _ hnumber with hlt | ⟨rfl, rfl⟩
    · -- neither the name nor the mark after it brings up a flaw
      obtain ⟨t, ht, hby⟩ := hflaw
      obtain rfl | rfl : i = 0 ∨ i = 1 := by omega
      · obtain rfl := Option.some.inj ht
        cases hby with
        | number h => cases h.measure
        | name hk _ _ => cases hk
      · obtain rfl := Option.some.inj ht
        cases hby with
        | number h => cases h.measure
        | name hk _ _ => cases hk
    · exact ⟨_, _, _, _, hderives, hhyphen, he⟩

end Stylesheet

end StyleLang
