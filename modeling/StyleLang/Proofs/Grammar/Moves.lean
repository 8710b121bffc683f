import StyleLang.Proofs.Grammar.Derivation
import StyleLang.Proofs.Grammar.Taking

/-!
# Moves

What a token can do, said once: a move leads from one reading to another with a token. Main
statements: the moves are the steps, a token makes a move only where it is looked for, and what is
looked for after it never starts with a character that could belong to it.
-/

namespace StyleLang

theorem Token.kind_of_selector? {t : Token} {n : Node} (h : t.selector? = some n) :
    t.kind = .name ∨ t.kind = .classSelector ∨ t.kind = .idSelector := by
  grind [selector?]

/-- The token of an operand is looked for where an operand is. -/
theorem Token.operand_allowed {t : Token} {n : Node} (h : t.operand? = some n) {goal : Goal}
    {pending : Pending} : (Place.operand goal pending).allows t.kind = true := by
  obtain ⟨k, w, start⟩ := t
  cases k <;> first | rfl | cases h

theorem Token.stopsAt_of_operand? {t : Token} {n : Node} (h : t.operand? = some n) {c : Char}
    (hc : afterOperand c = true) : t.kind.stopsAt c = true := by
  obtain ⟨hreference, hscalar⟩ := Bool.and_eq_true_iff.1 hc
  obtain ⟨k, w, start⟩ := t
  cases k <;> first
    | rfl
    | exact hreference
    | exact hscalar
    | cases h

namespace Reading

/-! ## Moves -/

/-- No item is unfinished. The next one starts at the spot. -/
inductive Idle (r : Reading) : Spot → Prop where
  | item : r.place = .item → Idle r .item
  | assigned : r.place = .afterAssignment → r.blocks = [] → Idle r .afterAssignment

/-- The reading stands after some selectors, the latest first. -/
inductive Chosen (r : Reading) : List Node → Prop where
  | named {t : Token} : r.place = .named t → Chosen r [.selector t.position .tag t.text]
  | more {ss : List Node} : r.place = .afterSelector ss → Chosen r ss

/-- No statement is unfinished, at least if the next token is no `else`. The next statement starts
at the spot, and `s` is the reading with all statements before finished. -/
inductive Ready (r : Reading) : Spot → Reading → Prop where
  | statement : r.place = .statement → Ready r .statement r
  | assigned : r.place = .afterAssignment → r.blocks ≠ [] → Ready r .statement r
  | decided {pos : Position} {c : Node} {b : List Node} : r.place = .afterThen pos c b →
    Ready r .afterThen (r.finish (.conditional pos c b none))

/-- A token leads from one reading to another. -/
inductive Moves (t : Token) (r : Reading) : Reading → Prop where
  | named {spot : Spot} : Idle r spot → t.kind = .name → Moves t r (r.goingTo (.named t))
  | selector {spot : Spot} {n : Node} : Idle r spot → t.kind ≠ .name → t.selector? = some n →
    Moves t r (r.goingTo (.afterSelector [n]))
  | comma {ss : List Node} : Chosen r ss → t.kind = .comma → Moves t r (r.goingTo (.selector ss))
  | another {ss : List Node} {n : Node} : r.place = .selector ss → t.selector? = some n →
    Moves t r (r.goingTo (.afterSelector (n :: ss)))
  | rule {ss : List Node} : Chosen r ss → t.kind = .leftBrace →
    Moves t r (r.openBlock (.rule (firstPosition ss) ss.reverse))
  | label {s : Reading} {spot : Spot} : Ready r spot s → t.kind = .name →
    Moves t r (s.goingTo (.label t))
  | conditional {s : Reading} {spot : Spot} : Ready r spot s → t.kind = .ifWord →
    Moves t r (s.goingTo (.condition t.position))
  | close {s r' : Reading} {spot : Spot} : Ready r spot s → t.kind = .rightBrace →
    s.closeBlock = some r' → Moves t r r'
  | becomes {name : Token} : r.place = .named name ∨ r.place = .label name → t.kind = .becomes →
    Moves t r (r.goingTo (.operand (.assignment name) {}))
  | colon {name : Token} : r.place = .label name → t.kind = .colon →
    Moves t r (r.goingTo (.operand (.declaration name) {}))
  | bracket {pos : Position} {bracket : Bracket} : r.place = .condition pos →
    t.kind = bracket.left → Moves t r (r.goingTo (.operand (.condition pos bracket) {}))
  | operand {goal : Goal} {pending : Pending} {a : Node} : r.place = .operand goal pending →
    t.operand? = some a → Moves t r ((r.noting t.numberFlaw).goingTo
      (.operator goal pending.sum (.timesAfter pending.factor a)))
  | star {goal : Goal} {sum : Option (Node × Operator)} {p : Node} :
    r.place = .operator goal sum p → t.kind = Operator.multiply.mark →
    Moves t r (r.goingTo (.operand goal { sum, factor := some p }))
  | sign {goal : Goal} {sum : Option (Node × Operator)} {p : Node} {op : Operator} :
    r.place = .operator goal sum p → op ≠ .multiply → t.kind = op.mark →
    Moves t r (r.goingTo (.operand goal { sum := some (.addedTo sum p, op) }))
  | stop {goal : Goal} {sum : Option (Node × Operator)} {p : Node} :
    r.place = .operator goal sum p → t.kind = goal.closer →
    Moves t r (r.endExpression goal (.addedTo sum p))
  | thenBlock {pos : Position} {c : Node} : r.place = .thenBlock pos c → t.kind = .leftBrace →
    Moves t r (r.openBlock (.thenBranch pos c))
  | elseWord {pos : Position} {c : Node} {b : List Node} : r.place = .afterThen pos c b →
    t.kind = .elseWord → Moves t r (r.goingTo (.elseBlock pos c b))
  | elseBlock {pos : Position} {c : Node} {b : List Node} : r.place = .elseBlock pos c b →
    t.kind = .leftBrace → Moves t r (r.openBlock (.elseBranch pos c b))

section Steps

variable {r s r' : Reading} {t : Token} {spot : Spot}

/-! ## A step is a move -/

theorem moves_of_stepItem (hr : Idle r spot) (h : r.stepItem t = some r') : Moves t r r' := by
  unfold stepItem at h
  split at h
  · next hk =>
    obtain rfl := Option.some.inj h
    exact .named hr hk
  · next hk =>
    obtain ⟨n, hn, rfl⟩ := Option.map_eq_some_iff.1 h
    exact .selector hr hk hn

theorem moves_of_stepStatement (hr : Ready r spot s) (h : s.stepStatement t = some r') :
    Moves t r r' := by
  unfold stepStatement at h
  split at h
  · next hk =>
    obtain rfl := Option.some.inj h
    exact .label hr hk
  · next hk =>
    obtain rfl := Option.some.inj h
    exact .conditional hr hk
  · next hk => exact .close hr hk h
  · cases h

theorem moves_of_stepAfterSelector {ss : List Node} (hr : Chosen r ss)
    (h : r.stepAfterSelector ss (firstPosition ss) t = some r') : Moves t r r' := by
  unfold stepAfterSelector at h
  split at h
  · next hk =>
    obtain rfl := Option.some.inj h
    exact .comma hr hk
  · next hk =>
    obtain rfl := Option.some.inj h
    exact .rule hr hk
  · cases h

theorem moves_of_stepOperator {goal : Goal} {sum : Option (Node × Operator)} {p : Node}
    (hr : r.place = .operator goal sum p) (h : r.stepOperator goal sum p t = some r') :
    Moves t r r' := by
  unfold stepOperator at h
  split at h
  · next hk =>
    obtain rfl := Option.some.inj h
    exact .star hr hk
  · next hk =>
    obtain rfl := Option.some.inj h
    exact @Moves.sign _ _ _ _ _ .add hr (by decide) hk
  · next hk =>
    obtain rfl := Option.some.inj h
    exact @Moves.sign _ _ _ _ _ .subtract hr (by decide) hk
  · split at h
    · next hk =>
      obtain rfl := Option.some.inj h
      exact .stop hr hk
    · cases h

theorem moves_of_step (h : r.step t = some r') : Moves t r r' := by
  unfold step at h
  split at h
  · next hr => exact moves_of_stepItem (.item hr) h
  · next hr =>
    split at h
    · next hb => exact moves_of_stepItem (.assigned hr (List.isEmpty_iff.1 hb)) h
    · next hb =>
      exact moves_of_stepStatement (.assigned hr fun he => hb (List.isEmpty_iff.2 he)) h
  · next name hr =>
    split at h
    · next hk =>
      obtain rfl := Option.some.inj h
      exact .becomes (.inl hr) hk
    · exact moves_of_stepAfterSelector (.named hr) h
  · next ss hr =>
    obtain ⟨n, hn, rfl⟩ := Option.map_eq_some_iff.1 h
    exact .another hr hn
  · next ss hr => exact moves_of_stepAfterSelector (.more hr) h
  · next hr => exact moves_of_stepStatement (.statement hr) h
  · next name hr =>
    split at h
    · next hk =>
      obtain rfl := Option.some.inj h
      exact .becomes (.inr hr) hk
    · next hk =>
      obtain rfl := Option.some.inj h
      exact .colon hr hk
    · cases h
  · next pos hr =>
    split at h
    · next hk =>
      obtain rfl := Option.some.inj h
      exact @Moves.bracket _ _ _ .square hr hk
    · next hk =>
      obtain rfl := Option.some.inj h
      exact @Moves.bracket _ _ _ .round hr hk
    · cases h
  · next goal pending hr =>
    obtain ⟨a, ha, rfl⟩ := Option.map_eq_some_iff.1 h
    exact .operand hr ha
  · next hr => exact moves_of_stepOperator hr h
  · next pos c hr =>
    split at h
    · next hk =>
      obtain rfl := Option.some.inj h
      exact .thenBlock hr hk
    · cases h
  · next pos c b hr =>
    split at h
    · next hk =>
      obtain rfl := Option.some.inj h
      exact .elseWord hr hk
    · exact moves_of_stepStatement (.decided hr) h
  · next pos c b hr =>
    split at h
    · next hk =>
      obtain rfl := Option.some.inj h
      exact .elseBlock hr hk
    · cases h

/-! ## A move is a step -/

theorem Idle.step (h : Idle r spot) (t : Token) : r.step t = r.stepItem t := by
  unfold Reading.step
  cases h with
  | item hr => rw [hr]
  | assigned hr hb => simp [hr, hb]

theorem Ready.step (h : Ready r spot s) (hk : t.kind ≠ .elseWord) :
    r.step t = s.stepStatement t := by
  unfold Reading.step
  cases h with
  | statement hr => rw [hr]
  | assigned hr hb => simp [hr, hb]
  | decided hr =>
    rw [hr]
    dsimp only
    split
    · next he => exact absurd he hk
    · rfl

theorem Chosen.step {ss : List Node} (h : Chosen r ss) (hk : t.kind ≠ .becomes) :
    r.step t = r.stepAfterSelector ss (firstPosition ss) t := by
  unfold Reading.step
  cases h with
  | named hr =>
    rw [hr]
    dsimp only
    split
    · next he => exact absurd he hk
    · rfl
  | more hr => rw [hr]

theorem step_operator {goal : Goal} {sum : Option (Node × Operator)} {p : Node}
    (hr : r.place = .operator goal sum p) : r.step t = r.stepOperator goal sum p t := by
  unfold step
  rw [hr]

theorem step_of_moves (h : Moves t r r') : r.step t = some r' := by
  cases h with
  | named hr hk => rw [hr.step, stepItem, hk]
  | selector hr hk hn =>
    rw [hr.step, stepItem, hn]
    split
    · next he => exact absurd he hk
    · rfl
  | comma hr hk => rw [hr.step (by simp [hk]), stepAfterSelector, hk]
  | another hr hn => rw [step, hr, hn]; rfl
  | rule hr hk => rw [hr.step (by simp [hk]), stepAfterSelector, hk]
  | label hr hk => rw [hr.step (by simp [hk]), stepStatement, hk]
  | conditional hr hk => rw [hr.step (by simp [hk]), stepStatement, hk]
  | close hr hk hs => rw [hr.step (by simp [hk]), stepStatement, hk, hs]
  | becomes hr hk => rcases hr with hr | hr <;> rw [step, hr, hk]
  | colon hr hk => rw [step, hr, hk]
  | @bracket pos bracket hr hk => cases bracket <;> rw [step, hr, hk] <;> rfl
  | operand hr ha => rw [step, hr, ha]; rfl
  | star hr hk =>
    rw [step_operator hr, stepOperator, hk]
    rfl
  | @sign goal sum p op hr hop hk =>
    rw [step_operator hr, stepOperator, hk]
    cases op with
    | add | subtract => rfl
    | multiply => exact absurd rfl hop
  | @stop goal sum p hr hk =>
    rw [step_operator hr, stepOperator, hk]
    rcases goal with _ | _ | ⟨_, _ | _⟩ <;> rfl
  | thenBlock hr hk => simp only [step, hr, hk, if_true]
  | elseWord hr hk => simp only [step, hr, hk]
  | elseBlock hr hk => simp only [step, hr, hk, if_true]

theorem step_eq_some_iff : r.step t = some r' ↔ Moves t r r' := ⟨moves_of_step, step_of_moves⟩

/-! ## Where a token is looked for -/

theorem Idle.allows (h : Idle r spot) {k : TokenKind}
    (hk : k = .name ∨ k = .classSelector ∨ k = .idSelector) : r.place.allows k = true := by
  cases h with
  | item hr | assigned hr _ => rcases hk with rfl | rfl | rfl <;> simp [hr, Place.allows]

theorem Ready.allows (h : Ready r spot s) {k : TokenKind}
    (hk : k = .name ∨ k = .ifWord ∨ k = .rightBrace) : r.place.allows k = true := by
  cases h with
  | statement hr | assigned hr _ | decided hr =>
    rcases hk with rfl | rfl | rfl <;> simp [hr, Place.allows]

theorem Chosen.allows {ss : List Node} (h : Chosen r ss) {k : TokenKind}
    (hk : k = .comma ∨ k = .leftBrace) : r.place.allows k = true := by
  cases h with
  | named hr | more hr => rcases hk with rfl | rfl <;> simp [hr, Place.allows]

theorem Idle.stands (h : Idle r spot) : r.place.At spot := by
  cases h with
  | item hr =>
    rw [hr]
    exact .item
  | assigned hr _ =>
    rw [hr]
    exact .afterAssignment

theorem Ready.stands (h : Ready r spot s) : r.place.At spot := by
  cases h with
  | statement hr =>
    rw [hr]
    exact .statement
  | assigned hr _ =>
    rw [hr]
    exact .afterInnerAssignment
  | decided hr =>
    rw [hr]
    exact .afterThen

/-- A token that makes a move is looked for. -/
theorem Moves.allowed (h : Moves t r r') : r.place.allows t.kind = true := by
  cases h with
  | named hr hk => exact hr.allows (.inl hk)
  | selector hr _ hn => exact hr.allows (Token.kind_of_selector? hn)
  | comma hr hk => exact hr.allows (.inl hk)
  | another hr hn =>
    rw [hr]
    rcases Token.kind_of_selector? hn with hk | hk | hk <;> rw [hk] <;> rfl
  | rule hr hk => exact hr.allows (.inr hk)
  | label hr hk => exact hr.allows (.inl hk)
  | conditional hr hk => exact hr.allows (.inr (.inl hk))
  | close hr hk _ => exact hr.allows (.inr (.inr hk))
  | becomes hr hk => rcases hr with hr | hr <;> rw [hr, hk] <;> rfl
  | @bracket _ bracket hr hk => cases bracket <;> rw [hr, hk] <;> rfl
  | operand hr ha =>
    rw [hr]
    exact Token.operand_allowed ha
  | @sign _ _ _ op hr hop hk => cases op <;> rw [hr, hk] <;> rfl
  | @stop goal _ _ hr hk => rcases goal with _ | _ | ⟨_, _ | _⟩ <;> rw [hr, hk] <;> rfl
  | colon hr hk | star hr hk | thenBlock hr hk | elseWord hr hk | elseBlock hr hk =>
    rw [hr, hk]
    rfl

/-! ## What comes after a token -/

/-- Whatever is looked for at the place starts with a character that cannot belong to a word of the
class. -/
def Closes (place : Place) (kind : TokenKind) : Prop :=
  ∀ k, place.allows k = true → ∀ c, k.start.has c = true → kind.stopsAt c = true

theorem closes_of_only {place : Place} {kind : TokenKind}
    (h : ∀ k, place.allows k = true → ∃ d, k.start = .only d ∧ kind.stopsAt d = true) :
    Closes place kind := by
  intro k hk c hc
  obtain ⟨d, hd, hstops⟩ := h k hk
  rw [hd] at hc
  rwa [eq_of_beq hc]

theorem closes_of_always {place : Place} {kind : TokenKind} (h : ∀ c, kind.stopsAt c = true) :
    Closes place kind := fun _ _ c _ => h c

theorem closes_selector {place : Place} {kind : TokenKind}
    (hplace : (∃ name, place = .named name ∨ place = .label name) ∨ ∃ ss, place = .afterSelector ss)
    (hkind : kind = .name ∨ kind = .classSelector ∨ kind = .idSelector) : Closes place kind := by
  have hstops : kind.stopsAt = TokenKind.name.stopsAt := by
    rcases hkind with rfl | rfl | rfl <;> rfl
  refine closes_of_only fun k hk => ?_
  rw [hstops]
  rcases hplace with ⟨name, rfl | rfl⟩ | ⟨ss, rfl⟩ <;> cases k <;> first
    | exact ⟨_, rfl, by decide⟩
    | cases hk

theorem closes_condition (pos : Position) : Closes (.condition pos) .ifWord := by
  refine closes_of_only fun k hk => ?_
  cases k <;> first
    | exact ⟨_, rfl, by decide⟩
    | cases hk

theorem closes_elseBlock (pos : Position) (c : Node) (b : List Node) :
    Closes (.elseBlock pos c b) .elseWord := by
  refine closes_of_only fun k hk => ?_
  cases k <;> first
    | exact ⟨_, rfl, by decide⟩
    | cases hk

/-- No word starts with the character that would make another mark of a colon. -/
theorem closes_colon (place : Place) : Closes place .colon := by
  intro k _ c hc
  have hequals : k.start.has '=' = false := by cases k <;> decide
  by_cases he : c = '='
  · rw [he, hequals] at hc
    cases hc
  · exact bne_iff_ne.2 he

theorem closes_operator {a : Node} (ha : t.operand? = some a) (goal : Goal)
    (sum : Option (Node × Operator)) (p : Node) : Closes (.operator goal sum p) t.kind := by
  have hmark : ∀ k, (Place.operator goal sum p).allows k = true →
      ∃ d, k.start = .only d ∧ afterOperand d = true := by
    intro k hk
    cases k <;> first
      | exact ⟨_, rfl, by decide⟩
      | cases hk
  refine closes_of_only fun k hk => ?_
  obtain ⟨d, hd, hafter⟩ := hmark k hk
  exact ⟨d, hd, Token.stopsAt_of_operand? ha hafter⟩

theorem Moves.closes (h : Moves t r r') : Closes r'.place t.kind := by
  cases h with
  | named _ hk => exact closes_selector (.inl ⟨t, .inl rfl⟩) (.inl hk)
  | selector _ _ hn => exact closes_selector (.inr ⟨_, rfl⟩) (Token.kind_of_selector? hn)
  | another _ hn => exact closes_selector (.inr ⟨_, rfl⟩) (Token.kind_of_selector? hn)
  | label _ hk => exact closes_selector (.inl ⟨t, .inr rfl⟩) (.inl hk)
  | conditional _ hk =>
    rw [hk]
    exact closes_condition _
  | elseWord _ hk =>
    rw [hk]
    exact closes_elseBlock _ _ _
  | colon _ hk =>
    rw [hk]
    exact closes_colon _
  | operand _ ha => exact closes_operator ha _ _ _
  | comma _ hk | rule _ hk | close _ hk _ | becomes _ hk | star _ hk | thenBlock _ hk
  | elseBlock _ hk =>
    rw [hk]
    exact closes_of_always fun _ => rfl
  | @bracket _ bracket _ hk =>
    rw [hk]
    cases bracket <;> exact closes_of_always fun _ => rfl
  | @sign _ _ _ op _ _ hk =>
    rw [hk]
    cases op <;> exact closes_of_always fun _ => rfl
  | @stop goal _ _ _ hk =>
    rw [hk]
    rcases goal with _ | _ | ⟨_, _ | _⟩ <;> exact closes_of_always fun _ => rfl

end Steps

end Reading

end StyleLang
