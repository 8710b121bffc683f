import StyleLang.Proofs.Grammar.Acceptance

/-!
# Completing a reading

The open blocks of a reading are a rule with branches in it, and its place belongs in a block or
outside all blocks accordingly. Main statements: a step keeps this so, and every such reading has a
text to go on with that gets it to an end.
-/

namespace StyleLang

/-- Whether a place is in a block. After an assignment, and in one, it may be either. -/
def Place.inBlock? : Place → Option Bool
  | item | named _ | selector _ | afterSelector _ => some false
  | afterAssignment | operand (.assignment _) _ | operator (.assignment _) _ _ => none
  | _ => some true

namespace Reading

/-- The outermost block is that of a rule, and the others are branches of conditionals. -/
inductive Nested : List OpenBlock → Prop where
  | nil : Nested []
  | rule {pos : Position} {selectors done : List Node} : Nested [⟨.rule pos selectors, done⟩]
  | thenBranch {pos : Position} {condition : Node} {done : List Node} {blocks : List OpenBlock} :
    blocks ≠ [] → Nested blocks → Nested (⟨.thenBranch pos condition, done⟩ :: blocks)
  | elseBranch {pos : Position} {condition : Node} {body done : List Node}
    {blocks : List OpenBlock} :
    blocks ≠ [] → Nested blocks → Nested (⟨.elseBranch pos condition body, done⟩ :: blocks)

theorem nested_finish {r : Reading} (h : Nested r.blocks) (n : Node) :
    Nested (r.finish n).blocks := by
  obtain ⟨items, blocks, place, flaw⟩ := r
  cases h with
  | nil => exact .nil
  | rule => exact .rule
  | thenBranch hne hn => exact .thenBranch hne hn
  | elseBranch hne hn => exact .elseBranch hne hn

theorem length_blocks_finish (r : Reading) (n : Node) :
    (r.finish n).blocks.length = r.blocks.length := by
  obtain ⟨items, blocks, place, flaw⟩ := r
  cases blocks <;> rfl

theorem place_finish (r : Reading) (n : Node) : (r.finish n).place = r.place := by
  obtain ⟨items, blocks, place, flaw⟩ := r
  cases blocks <;> rfl

/-- A reading that tokens can lead to, as far as its blocks are concerned. -/
structure Sound (r : Reading) : Prop where
  nested : Nested r.blocks
  place : ∀ inBlock, r.place.inBlock? = some inBlock → (inBlock = true ↔ r.blocks ≠ [])

namespace Sound

variable {r r' : Reading} {t : Token}

theorem start : Sound {} where
  nested := .nil
  place := by simp [Place.inBlock?]

theorem outside (h : r.Sound) (hp : r.place.inBlock? = some false) : r.blocks = [] := by
  simpa using h.place false hp

theorem inside (h : r.Sound) (hp : r.place.inBlock? = some true) : r.blocks ≠ [] := by
  simpa using h.place true hp

theorem at_item (hb : r.blocks = []) {p : Place} (hp : p.inBlock? ≠ some true) :
    (r.goingTo p).Sound where
  nested := by rw [goingTo, hb]; exact .nil
  place := by
    rintro (_ | _) hin
    · simpa [goingTo] using hb
    · exact absurd hin hp

theorem at_statement (hn : Nested r.blocks) (hb : r.blocks ≠ []) {p : Place}
    (hp : p.inBlock? ≠ some false) : (r.goingTo p).Sound where
  nested := hn
  place := by
    rintro (_ | _) hin
    · exact absurd hin hp
    · simpa [goingTo] using hb

theorem goingTo (h : r.Sound) {p : Place} (hp : p.inBlock? = r.place.inBlock? ∨ p.inBlock? = none) :
    (r.goingTo p).Sound where
  nested := h.nested
  place := by
    intro inBlock hin
    rcases hp with hp | hp
    · exact h.place inBlock (hp ▸ hin)
    · rw [Reading.goingTo, hp] at hin
      cases hin

theorem finish (h : r.Sound) (n : Node) : (r.finish n).Sound where
  nested := nested_finish h.nested n
  place := by
    rw [place_finish, Ne, blocks_finish_eq_nil_iff]
    exact h.place

theorem noting (h : r.Sound) (flaw : Option BuildError) : (r.noting flaw).Sound :=
  ⟨h.nested, h.place⟩

theorem openBlock {holder : Holder} (h : Nested (⟨holder, []⟩ :: r.blocks)) :
    (r.openBlock holder).Sound where
  nested := h
  place := by simp [Reading.openBlock, Place.inBlock?]

theorem closeBlock (hn : Nested r.blocks) (h : r.closeBlock = some r') : r'.Sound := by
  obtain ⟨items, blocks, place, flaw⟩ := r
  cases hn with
  | nil => cases h
  | rule =>
    obtain rfl := Option.some.inj h
    exact at_item rfl (by decide)
  | thenBranch hne hn =>
    obtain rfl := Option.some.inj h
    exact at_statement hn hne (by simp [Place.inBlock?])
  | elseBranch hne hn =>
    obtain rfl := Option.some.inj h
    refine at_statement (nested_finish hn _) ?_ (by simp [Place.inBlock?])
    rwa [Ne, blocks_finish_eq_nil_iff]

theorem stepItem (hb : r.blocks = []) (h : r.stepItem t = some r') : r'.Sound := by
  unfold Reading.stepItem at h
  split at h
  · obtain rfl := Option.some.inj h
    exact at_item hb (by simp [Place.inBlock?])
  · obtain ⟨s, -, rfl⟩ := Option.map_eq_some_iff.1 h
    exact at_item hb (by simp [Place.inBlock?])

theorem stepStatement (hn : Nested r.blocks) (hb : r.blocks ≠ [])
    (h : r.stepStatement t = some r') : r'.Sound := by
  unfold Reading.stepStatement at h
  split at h
  · obtain rfl := Option.some.inj h
    exact at_statement hn hb (by simp [Place.inBlock?])
  · obtain rfl := Option.some.inj h
    exact at_statement hn hb (by simp [Place.inBlock?])
  · exact closeBlock hn h
  · cases h

theorem stepAfterSelector {selectors : List Node} {pos : Position} (hb : r.blocks = [])
    (h : r.stepAfterSelector selectors pos t = some r') : r'.Sound := by
  unfold Reading.stepAfterSelector at h
  split at h
  · obtain rfl := Option.some.inj h
    exact at_item hb (by simp [Place.inBlock?])
  · obtain rfl := Option.some.inj h
    exact openBlock (hb ▸ .rule)
  · cases h

theorem stepOperator {goal : Goal} {sum : Option (Node × Operator)} {product : Node} (hr : r.Sound)
    (hp : r.place = .operator goal sum product)
    (h : r.stepOperator goal sum product t = some r') : r'.Sound := by
  have hgoal : ∀ pending, (Place.operand goal pending).inBlock? = r.place.inBlock? := by
    intro pending
    rw [hp]
    cases goal <;> rfl
  unfold Reading.stepOperator at h
  split at h
  · obtain rfl := Option.some.inj h
    exact hr.goingTo (.inl (hgoal _))
  · obtain rfl := Option.some.inj h
    exact hr.goingTo (.inl (hgoal _))
  · obtain rfl := Option.some.inj h
    exact hr.goingTo (.inl (hgoal _))
  · split at h
    · obtain rfl := Option.some.inj h
      cases goal with
      | assignment name => exact ((hr.noting _).finish _).goingTo (.inr rfl)
      | declaration property =>
        refine (hr.finish _).goingTo (.inl ?_)
        rw [place_finish, hp]
        rfl
      | condition pos bracket => exact hr.goingTo (.inl (by rw [hp]; rfl))
    · cases h

/-- A step keeps a reading sound. -/
theorem step (hr : r.Sound) (h : r.step t = some r') : r'.Sound := by
  unfold Reading.step at h
  cases hp : r.place <;> simp only [hp] at h
  case item => exact stepItem (hr.outside (by rw [hp]; rfl)) h
  case afterAssignment =>
    split at h
    · next hb => exact stepItem (List.isEmpty_iff.1 hb) h
    · next hb => exact stepStatement hr.nested (fun he => hb (by rw [he]; rfl)) h
  case named name =>
    split at h
    · obtain rfl := Option.some.inj h
      exact hr.goingTo (.inr rfl)
    · exact stepAfterSelector (hr.outside (by rw [hp]; rfl)) h
  case selector selectors =>
    obtain ⟨s, -, rfl⟩ := Option.map_eq_some_iff.1 h
    exact hr.goingTo (.inl (by rw [hp]; rfl))
  case afterSelector selectors => exact stepAfterSelector (hr.outside (by rw [hp]; rfl)) h
  case statement => exact stepStatement hr.nested (hr.inside (by rw [hp]; rfl)) h
  case label name =>
    split at h
    · obtain rfl := Option.some.inj h
      exact hr.goingTo (.inr rfl)
    · obtain rfl := Option.some.inj h
      exact hr.goingTo (.inl (by rw [hp]; rfl))
    · cases h
  case condition pos =>
    split at h
    · obtain rfl := Option.some.inj h
      exact hr.goingTo (.inl (by rw [hp]; rfl))
    · obtain rfl := Option.some.inj h
      exact hr.goingTo (.inl (by rw [hp]; rfl))
    · cases h
  case operand goal pending =>
    obtain ⟨atom, -, rfl⟩ := Option.map_eq_some_iff.1 h
    refine (hr.noting _).goingTo (.inl ?_)
    rw [Reading.noting, hp]
    cases goal <;> rfl
  case operator goal sum product => exact stepOperator hr hp h
  case thenBlock pos condition =>
    split at h
    · obtain rfl := Option.some.inj h
      exact openBlock (.thenBranch (hr.inside (by rw [hp]; rfl)) hr.nested)
    · cases h
  case afterThen pos condition body =>
    split at h
    · obtain rfl := Option.some.inj h
      exact hr.goingTo (.inl (by rw [hp]; rfl))
    · refine stepStatement (nested_finish hr.nested _) ?_ h
      rw [Ne, blocks_finish_eq_nil_iff]
      exact hr.inside (by rw [hp]; rfl)
  case elseBlock pos condition body =>
    split at h
    · obtain rfl := Option.some.inj h
      exact openBlock (.elseBranch (hr.inside (by rw [hp]; rfl)) hr.nested)
    · cases h

end Sound

/-! ## A text to go on with -/

/-- There is a text that starts with a space and gets the reading to an end. -/
def Completable (r : Reading) : Prop :=
  ∀ last place, ∃ w r', r.run last place (' ' :: w) = .ok r'

theorem gap_space : Gap [' '] := .space (by decide) .nil

theorem completable_of_isComplete {r : Reading} (h : r.isComplete = true) : Completable r := by
  refine fun last place => ⟨[], r, ?_⟩
  have hskip : skip [' '] = ([' '], []) := skip_gap gap_space (follows_nil _)
  rw [run_eq, hskip]
  exact if_pos h

/-- A sound reading that takes a mark can be completed if the one after it can. -/
theorem Sound.completable_of_mark {r : Reading} {next : Cursor → Reading} {k : TokenKind}
    {w : List Char} (h : r.Sound) (ha : r.place.allows k = true) (hk : k ≠ .name ∧ k ≠ .reference)
    (hw : k.Word w) (hstep : ∀ start, r.step ⟨k, w, start⟩ = some (next start))
    (hnext : ∀ start, (next start).Sound → Completable (next start)) : Completable r := by
  intro last place
  let start := place.after [' ']
  obtain ⟨v, r', hr'⟩ := hnext start (h.step (hstep start)) start (start.after w)
  refine ⟨w ++ ' ' :: v, r', ?_⟩
  have hfree : k = .name ∨ k = .reference →
      ∀ k', (k', w) ∈ TokenKind.keywords → r.place.allows k' = false :=
    fun h => h.elim (fun h => absurd h hk.1) (fun h => absurd h hk.2)
  have hfollows : Follows k.stopsAt (' ' :: v) :=
    follows_cons (TokenKind.stopsAt_space (by decide) k) v
  exact (run_word gap_space ha hw hfree hfollows (hstep start) last).trans hr'

open Grammar (Between)

/-- A closing brace closes the rule, and with it the last block, or a branch inside a block. -/
theorem closeBlock_of_nested {s : Reading} (hn : Nested s.blocks) (hb : s.blocks ≠ []) :
    ∃ s', s.closeBlock = some s' ∧ (s'.isComplete = true ∨ ∃ spot u, Between s' spot u ∧
      u.blocks ≠ [] ∧ u.blocks.length < s.blocks.length) := by
  obtain ⟨items, blocks, place, flaw⟩ := s
  cases hn with
  | nil => exact absurd rfl hb
  | rule => exact ⟨_, rfl, .inl rfl⟩
  | @thenBranch pos condition done blocks hne _ =>
    let s : Reading := { items, blocks, place, flaw }
    refine ⟨_, rfl, .inr ⟨_, _, .decided (s := s), ?_, ?_⟩⟩
    · rwa [Ne, blocks_finish_eq_nil_iff]
    · rw [length_blocks_finish]
      exact Nat.lt_succ_self _
  | @elseBranch pos condition body done blocks hne _ =>
    let s : Reading := { items, blocks, place, flaw }
    refine ⟨_, rfl, .inr ⟨_, _, .statement (s := s.finish _), ?_, ?_⟩⟩
    · rwa [Ne, blocks_finish_eq_nil_iff]
    · rw [length_blocks_finish]
      exact Nat.lt_succ_self _

theorem nested_of_between {r s : Reading} {spot : Spot} (h : Between r spot s) (hr : r.Sound) :
    Nested s.blocks := by
  cases h with
  | statement => exact hr.nested
  | assigned => exact hr.nested
  | @decided s => exact nested_finish (r := s) hr.nested _

/-- Between two statements of a block, all open blocks can be closed. -/
theorem Sound.completable_of_between {r s : Reading} {spot : Spot} (hr : r.Sound)
    (h : Between r spot s) (hb : s.blocks ≠ []) : Completable r := by
  -- on the number of the open blocks, of which each brace closes one
  generalize hl : s.blocks.length = l
  induction l using Nat.strongRecOn generalizing r s spot with
  | ind l ih =>
    obtain ⟨s', hclose, hs'⟩ := closeBlock_of_nested (nested_of_between h hr) hb
    refine hr.completable_of_mark (k := .rightBrace) (h.allows (.inr (.inr rfl))) (by decide) rfl
      (fun _ => (h.step (by decide) _ _).trans hclose) fun _ hsound => ?_
    rcases hs' with hcomplete | ⟨spot', u, hu, hb', hlength⟩
    · exact completable_of_isComplete hcomplete
    · exact ih _ (hl ▸ hlength) hsound hu hb' rfl

namespace Sound

variable {s : Reading}

theorem completable_openBlock {holder : Holder} (h : (s.openBlock holder).Sound) :
    Completable (s.openBlock holder) := by
  rw [Grammar.openBlock_eq] at h ⊢
  exact h.completable_of_between .statement (List.cons_ne_nil _ _)

theorem completable_statement (h : (s.goingTo .statement).Sound) :
    Completable (s.goingTo .statement) :=
  h.completable_of_between .statement (h.inside rfl)

theorem completable_afterAssignment (h : (s.goingTo .afterAssignment).Sound) :
    Completable (s.goingTo .afterAssignment) := by
  by_cases hb : s.blocks = []
  · exact completable_of_isComplete (List.isEmpty_iff.2 hb)
  · exact h.completable_of_between (.assigned hb) hb

theorem completable_afterThen {pos : Position} {condition : Node} {body : List Node}
    (h : (s.goingTo (.afterThen pos condition body)).Sound) :
    Completable (s.goingTo (.afterThen pos condition body)) := by
  refine h.completable_of_between .decided ?_
  rw [Ne, blocks_finish_eq_nil_iff]
  exact h.inside rfl

theorem completable_afterSelector {selectors : List Node}
    (h : (s.goingTo (.afterSelector selectors)).Sound) :
    Completable (s.goingTo (.afterSelector selectors)) :=
  h.completable_of_mark (k := .leftBrace) rfl (by decide) rfl (fun _ => rfl)
    fun _ => completable_openBlock

theorem completable_thenBlock {pos : Position} {condition : Node}
    (h : (s.goingTo (.thenBlock pos condition)).Sound) :
    Completable (s.goingTo (.thenBlock pos condition)) :=
  h.completable_of_mark (k := .leftBrace) rfl (by decide) rfl (fun _ => rfl)
    fun _ => completable_openBlock

theorem completable_operator {goal : Goal} {sum : Option (Node × Operator)} {product : Node}
    (h : (s.goingTo (.operator goal sum product)).Sound) :
    Completable (s.goingTo (.operator goal sum product)) := by
  cases goal with
  | assignment name =>
    exact h.completable_of_mark (k := .semicolon) rfl (by decide) rfl (fun _ => rfl)
      fun _ => completable_afterAssignment
  | declaration property =>
    exact h.completable_of_mark (k := .semicolon) rfl (by decide) rfl (fun _ => rfl)
      fun _ => completable_statement
  | condition pos bracket =>
    cases bracket with
    | square =>
      exact h.completable_of_mark (k := .rightBracket) rfl (by decide) rfl (fun _ => rfl)
        fun _ => completable_thenBlock
    | round =>
      exact h.completable_of_mark (k := .rightParen) rfl (by decide) rfl (fun _ => rfl)
        fun _ => completable_thenBlock

theorem completable_operand {goal : Goal} {pending : Pending}
    (h : (s.goingTo (.operand goal pending)).Sound) :
    Completable (s.goingTo (.operand goal pending)) :=
  h.completable_of_mark (k := .trueSmall) rfl (by decide) rfl (fun _ => rfl)
    fun _ => completable_operator

/-- Every sound reading has a text to go on with that gets it to an end. -/
theorem completable {r : Reading} (h : r.Sound) : Completable r := by
  suffices ∀ p, (r.goingTo p).Sound → Completable (r.goingTo p) from this r.place h
  intro p hp
  cases p with
  | item => exact completable_of_isComplete (List.isEmpty_iff.2 (hp.outside rfl))
  | afterAssignment => exact hp.completable_afterAssignment
  | named name =>
    exact hp.completable_of_mark (k := .leftBrace) rfl (by decide) rfl (fun _ => rfl)
      fun _ => completable_openBlock
  | selector selectors =>
    have hword : TokenKind.idSelector.Word ['#', 'a'] :=
      ⟨['a'], ⟨List.cons_ne_nil _ _, List.all_eq_true.1 rfl⟩, rfl⟩
    exact hp.completable_of_mark rfl (by decide) hword (fun _ => rfl)
      fun _ => completable_afterSelector
  | afterSelector selectors => exact hp.completable_afterSelector
  | statement => exact hp.completable_statement
  | label name =>
    exact hp.completable_of_mark (k := .becomes) rfl (by decide) rfl (fun _ => rfl)
      fun _ => completable_operand
  | condition pos =>
    exact hp.completable_of_mark (k := .leftParen) rfl (by decide) rfl (fun _ => rfl)
      fun _ => completable_operand
  | operand goal pending => exact hp.completable_operand
  | operator goal sum product => exact hp.completable_operator
  | thenBlock pos condition => exact hp.completable_thenBlock
  | afterThen pos condition body => exact hp.completable_afterThen
  | elseBlock pos condition body =>
    exact hp.completable_of_mark (k := .leftBrace) rfl (by decide) rfl (fun _ => rfl)
      fun _ => completable_openBlock

end Sound

end Reading

end StyleLang
