import StyleLang.Proofs.Grammar.Gaps
import StyleLang.Read.Parse

/-!
# The tokens of a text

A run takes the tokens of its text one by one, and whatever is in the tree or among the flaws came
with one of them. Main statements: the tokens of a text that is read to its end are the words that
it spells, and a number that is too long for the tree is one of them.
-/

namespace StyleLang

/-- The token is a number of the measure with so many digits, more than a number may have. -/
structure Token.Overlong (t : Token) (m : Measure) (digits : Nat) : Prop where
  measure : t.measure? = some m
  length : t.digits.length = digits
  limit : digitLimit < digits

theorem Token.numberFlaw_eq_some_iff {t : Token} {m : Measure} {digits : Nat} :
    t.numberFlaw = some (.numberTooLong m digits) ↔ t.Overlong m digits := by
  constructor
  · intro h
    unfold numberFlaw at h
    split at h
    · next m' hm =>
      split at h
      · next hlimit =>
        obtain ⟨rfl, rfl⟩ := BuildError.numberTooLong.inj (Option.some.inj h)
        exact ⟨hm, rfl, hlimit⟩
      · cases h
    · cases h
  · rintro ⟨hm, rfl, hlimit⟩
    unfold numberFlaw
    rw [hm]
    exact if_pos hlimit

namespace Reading

/-- The tokens that the reading takes from the text, up to a reading with nothing left to take. -/
inductive Reads : Reading → Cursor → List Char → List Token → Reading → Prop where
  | stop {r : Reading} {place : Cursor} {cs : List Char} (hend : (skip cs).2 = []) :
    Reads r place cs [] r
  | token {r next r' : Reading} {place start : Cursor} {cs : List Char} {m : Match}
    {ts : List Token} (hstart : start = place.after (skip cs).1)
    (hmatch : Match.ofText? r.place.allows (skip cs).2 = some m)
    (hstep : r.step ⟨m.kind, m.lexeme, start⟩ = some next)
    (hrest : Reads next (start.after m.lexeme) m.rest ts r') :
    Reads r place cs (⟨m.kind, m.lexeme, start⟩ :: ts) r'

/-- A run that gets to the end has read tokens on the way. -/
theorem reads_of_run {r r' : Reading} {last place : Cursor} {cs : List Char}
    (h : r.run last place cs = .ok r') : (∃ ts, Reads r place cs ts r') ∧ r'.isComplete = true := by
  -- on the length of the text, since a token leaves a shorter rest
  generalize hn : cs.length = n
  induction n using Nat.strongRecOn generalizing r last place cs with
  | ind n ih =>
    rw [run_eq] at h
    split at h
    · next hend =>
      split at h
      · next hcomplete =>
        obtain rfl := Except.ok.inj h
        exact ⟨⟨[], .stop hend⟩, hcomplete⟩
      · cases h
    · next c cs' hskip =>
      dsimp only at h
      split at h
      · cases h
      · next m hm =>
        split at h
        · cases h
        · next next hstep =>
          have hlength := Match.length_rest_lt hm
          have hle := length_skip_le cs
          rw [hskip] at hle
          obtain ⟨⟨ts, hts⟩, hcomplete⟩ := ih m.rest.length (by omega) h rfl
          exact ⟨⟨_, .token rfl (hskip ▸ hm) hstep hts⟩, hcomplete⟩

/-- The tokens are words of their classes, and they are the words that the text spells. -/
theorem Reads.spaced {r r' : Reading} {place : Cursor} {cs : List Char} {ts : List Token}
    (h : Reads r place cs ts r') :
    (∀ t ∈ ts, t.kind.Word t.chars) ∧
      ∃ body gap, Spaced (ts.map Token.chars) body ∧ Gap gap ∧ cs = body ++ gap := by
  induction h with
  | @stop r place cs hend =>
    refine ⟨fun t ht => absurd ht List.not_mem_nil, [], _, .nil, gap_skip cs, ?_⟩
    rw [List.nil_append, ← List.append_nil (skip cs).1, ← hend, skip_append]
  | @token r next r' place start cs m ts _ hmatch _ _ ih =>
    obtain ⟨hwords, body, gap, hbody, hgap, hrest⟩ := ih
    refine ⟨List.forall_mem_cons.2 ⟨(Match.ofText?_sound hmatch).1, hwords⟩, ?_⟩
    refine ⟨(skip cs).1 ++ m.lexeme ++ body, gap, .cons (gap_skip cs) hbody, hgap, ?_⟩
    rw [List.append_assoc, ← hrest, List.append_assoc, ← Match.splits hmatch, skip_append]

/-! ## Flaws -/

end Reading

/-- The flaw that a token brings up at a place: a number that is its own, or a name that it ends the
assignment of. -/
def Place.flaw? : Place → Token → Option BuildError
  | operand _ _, t => t.numberFlaw
  | operator (.assignment name) _ _, t => if t.kind = .semicolon then name.nameFlaw else none
  | _, _ => none

namespace Reading

section Flaws

variable {r r' : Reading} {t : Token}

theorem flaw_closeBlock (h : r.closeBlock = some r') : r'.flaw = r.flaw := by
  grind [closeBlock, goingTo, flaw_finish]

theorem flaw_stepItem (h : r.stepItem t = some r') : r'.flaw = r.flaw := by
  grind [stepItem, goingTo, Option.map_eq_some_iff]

theorem flaw_stepStatement (h : r.stepStatement t = some r') : r'.flaw = r.flaw := by
  grind [stepStatement, goingTo, flaw_closeBlock]

theorem flaw_stepAfterSelector {selectors : List Node} {pos : Position}
    (h : r.stepAfterSelector selectors pos t = some r') : r'.flaw = r.flaw := by
  grind [stepAfterSelector, goingTo, openBlock]

theorem flaw_stepOperator {goal : Goal} {sum : Option (Node × Operator)} {p : Node}
    (h : r.stepOperator goal sum p t = some r') :
    r'.flaw = r.flaw.or ((Place.operator goal sum p).flaw? t) := by
  cases goal <;> grind [stepOperator, endExpression, goingTo, noting, flaw_finish, Place.flaw?,
    Goal.closer]

/-- The first flaw counts, and a step brings up one at most. -/
theorem flaw_step (h : r.step t = some r') : r'.flaw = r.flaw.or (r.place.flaw? t) := by
  unfold step at h
  grind [flaw_stepItem, flaw_stepStatement, flaw_stepAfterSelector, flaw_stepOperator, flaw_finish,
    goingTo, openBlock, noting, Place.flaw?, Option.map_eq_some_iff]

end Flaws

theorem overlong_of_flaw? {place : Place} {t : Token} {m : Measure} {digits : Nat}
    (h : place.flaw? t = some (.numberTooLong m digits)) : t.Overlong m digits := by
  unfold Place.flaw? at h
  split at h
  · exact Token.numberFlaw_eq_some_iff.1 h
  · -- the flaw of a name is its hyphen
    split at h
    · unfold Token.nameFlaw at h
      split at h <;> cases h
    · cases h
  · cases h

/-- An overlong number among the flaws was there before, or it is one of the tokens. -/
theorem Reads.overlong {r r' : Reading} {place : Cursor} {cs : List Char} {ts : List Token}
    (h : Reads r place cs ts r') {m : Measure} {digits : Nat}
    (hflaw : r'.flaw = some (.numberTooLong m digits)) :
    r.flaw = some (.numberTooLong m digits) ∨ ∃ t ∈ ts, t.Overlong m digits := by
  induction h with
  | stop => exact .inl hflaw
  | token _ _ hstep _ ih =>
    rcases ih hflaw with hnext | ⟨t, ht, hlong⟩
    · rw [flaw_step hstep] at hnext
      rcases Option.or_eq_some_iff.1 hnext with hr | ⟨-, ht⟩
      · exact .inl hr
      · exact .inr ⟨_, List.mem_cons_self, overlong_of_flaw? ht⟩
    · exact .inr ⟨t, List.mem_cons_of_mem _ ht, hlong⟩

end Reading

namespace Stylesheet

/-- The text is grammatical, and these are its tokens. -/
def HasTokens (source : String) (ts : List Token) : Prop :=
  ∃ r, Reading.Reads {} {} source.toList ts r ∧ r.isComplete = true

/-- If a text is refused for an overlong number, it is grammatical and has that number. -/
theorem overlong_of_parse {source : String} {m : Measure} {digits : Nat}
    (h : Stylesheet.parse source = .error (.build (.numberTooLong m digits))) :
    ∃ ts, HasTokens source ts ∧ ∃ t ∈ ts, t.Overlong m digits := by
  unfold Stylesheet.parse at h
  split at h
  · cases h
  · next r hrun =>
    split at h
    · next flaw hflaw =>
      obtain rfl := ReadError.build.inj (Except.error.inj h)
      obtain ⟨⟨ts, hts⟩, hcomplete⟩ := Reading.reads_of_run hrun
      rcases hts.overlong hflaw with hnone | htoken
      · cases hnone
      · exact ⟨ts, ⟨r, hts, hcomplete⟩, htoken⟩
    · cases h

end Stylesheet

end StyleLang
