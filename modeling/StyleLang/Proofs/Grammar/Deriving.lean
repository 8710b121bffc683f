import StyleLang.Proofs.Grammar.Leading

/-!
# What is read has a derivation

A reading has tokens if they are those of its finished items, of the statements in its open blocks
with what stands before each block, and of the statement that it is in the middle of, in order. Main
statements: with a move the tokens of a reading grow by one, and when the text may end they are
those of a derivation of its items.
-/

namespace StyleLang.Derived

open Reserve (keywords)
open Reading (Chosen Idle Leads Moves Ready blocks_finish_eq_nil_iff firstPosition)

/-! ## Unfinished statements -/

/-- The tokens of the terms before a product, with the sign after them. -/
inductive Terms : Option (Node × Operator) → List Token → Prop where
  | none : Terms none []
  | some {l : Node} {op : Operator} {ts : List Token} {sign : Token} : Expression l ts →
    op ≠ .multiply → sign.Is op.mark → Terms (some (l, op)) (ts ++ [sign])

/-- The tokens of the factors before an atom, with the star after them. -/
inductive Factors : Option Node → List Token → Prop where
  | none : Factors none []
  | some {l : Node} {ts : List Token} {star : Token} : Product l ts →
    star.Is Operator.multiply.mark → Factors (some l) (ts ++ [star])

/-- The tokens before the expression of a statement. -/
inductive Lead (spot : Spot) (inner : Prop) : Goal → List Token → Prop where
  | assignment {name becomes : Token} : NameAt spot name → becomes.Is .becomes →
    Lead spot inner (.assignment name) [name, becomes]
  | declaration {name colon : Token} : inner → NameAt spot name → colon.Is .colon →
    Lead spot inner (.declaration name) [name, colon]
  | condition {word left : Token} {bracket : Bracket} : inner → word.Is .ifWord →
    left.Is bracket.left → Lead spot inner (.condition word.position bracket) [word, left]

/-- The tokens of a conditional up to the end of its first branch. -/
inductive Branch : Position → Node → List Node → List Token → Prop where
  | mk {word : Token} {c : Node} {b : List Node} {cs bs us : List Token} : word.Is .ifWord →
    Condition c cs → Body b bs → Braced bs us → Branch word.position c b (word :: (cs ++ us))

/-- The tokens since the last finished item or statement, at each place. `spot` is the spot there,
and `inner` says that it is in a block. -/
inductive Since (spot : Spot) (inner : Prop) : Place → List Token → Prop where
  | item : ¬ inner → spot = .item → Since spot inner .item []
  | afterAssignment : (inner → spot = .statement) → (¬ inner → spot = .afterAssignment) →
    Since spot inner .afterAssignment []
  | named {t : Token} : ¬ inner → NameAt spot t → Since spot inner (.named t) [t]
  | selector {ss : List Node} {ts : List Token} {comma : Token} : ¬ inner →
    Front spot ss.reverse ts → comma.Is .comma → Since spot inner (.selector ss) (ts ++ [comma])
  | afterSelector {ss : List Node} {ts : List Token} : ¬ inner → Front spot ss.reverse ts →
    Since spot inner (.afterSelector ss) ts
  | statement : inner → spot = .statement → Since spot inner .statement []
  | label {t : Token} : inner → NameAt spot t → Since spot inner (.label t) [t]
  | condition {word : Token} : inner → word.Is .ifWord →
    Since spot inner (.condition word.position) [word]
  | operand {goal : Goal} {sum : Option (Node × Operator)} {factor : Option Node}
      {gs ts fs : List Token} : Lead spot inner goal gs → Terms sum ts → Factors factor fs →
    Since spot inner (.operand goal { sum, factor }) (gs ++ (ts ++ fs))
  | operator {goal : Goal} {sum : Option (Node × Operator)} {p : Node} {gs ts ps : List Token} :
    Lead spot inner goal gs → Terms sum ts → Product p ps →
    Since spot inner (.operator goal sum p) (gs ++ (ts ++ ps))
  | thenBlock {word : Token} {c : Node} {cs : List Token} : inner → word.Is .ifWord →
    Condition c cs → Since spot inner (.thenBlock word.position c) (word :: cs)
  | afterThen {pos : Position} {c : Node} {b : List Node} {ts : List Token} : inner →
    Branch pos c b ts → Since spot inner (.afterThen pos c b) ts
  | elseBlock {pos : Position} {c : Node} {b : List Node} {ts : List Token} {other : Token} :
    inner → Branch pos c b ts → other.Is .elseWord →
    Since spot inner (.elseBlock pos c b) (ts ++ [other])

/-! ## Finished items and open blocks -/

/-- Where the next item or statement starts. -/
def spotIn (items : List Node) : List OpenBlock → Spot
  | [] => Spot.afterItem items.head?
  | b :: _ => Spot.afterStatement b.done.head?

/-- The tokens before a block, from the start of the item or statement that it belongs to. -/
inductive Opening (spot : Spot) (inner : Prop) : Holder → List Token → Prop where
  | rule {ss : List Node} {ts : List Token} {left : Token} : ¬ inner → Front spot ss.reverse ts →
    left.Is .leftBrace → Opening spot inner (.rule (firstPosition ss) ss.reverse) (ts ++ [left])
  | thenBranch {word left : Token} {c : Node} {cs : List Token} : inner → word.Is .ifWord →
    Condition c cs → left.Is .leftBrace →
    Opening spot inner (.thenBranch word.position c) (word :: (cs ++ [left]))
  | elseBranch {pos : Position} {c : Node} {b : List Node} {ts : List Token} {other left : Token} :
    inner → Branch pos c b ts → other.Is .elseWord → left.Is .leftBrace →
    Opening spot inner (.elseBranch pos c b) (ts ++ [other, left])

/-- The tokens of all that is finished, and of what stands before it. -/
inductive Around (items : List Node) : List OpenBlock → List Token → Prop where
  | top {ts : List Token} : Items items.reverse ts → Around items [] ts
  | block {blocks : List OpenBlock} {holder : Holder} {done : List Node}
      {ts hs ds : List Token} : Around items blocks ts →
    Opening (spotIn items blocks) (blocks ≠ []) holder hs → Body done.reverse ds →
    Around items (⟨holder, done⟩ :: blocks) (ts ++ (hs ++ ds))

/-- The tokens of a reading. -/
def Has (r : Reading) (ts : List Token) : Prop :=
  ∃ before since, Around r.items r.blocks before ∧
    Since (spotIn r.items r.blocks) (r.blocks ≠ []) r.place since ∧ ts = before ++ since

theorem Has.since {r : Reading} {place : Place} {ts : List Token} (h : Has r ts)
    (hr : r.place = place) : ∃ before since, Around r.items r.blocks before ∧
      Since (spotIn r.items r.blocks) (r.blocks ≠ []) place since ∧ ts = before ++ since := by
  obtain rfl := hr
  exact h

theorem has_start : Has {} [] :=
  ⟨[], [], .top .nil, .item (fun h => h rfl) rfl, rfl⟩

/-! ## Finishing -/

section Finishing

variable {r : Reading} {n : Node} {ts us : List Token}

theorem around_finish (h : Around r.items r.blocks ts)
    (hitem : r.blocks = [] → Item (spotIn r.items r.blocks) n us)
    (hstatement : r.blocks ≠ [] → Statement (spotIn r.items r.blocks) n us) :
    Around (r.finish n).items (r.finish n).blocks (ts ++ us) := by
  obtain ⟨items, blocks, place, flaw⟩ := r
  cases h with
  | top hitems =>
    have hitems := Items.snoc hitems (by simpa [spotIn] using hitem rfl)
    rw [← List.reverse_cons] at hitems
    exact .top hitems
  | @block blocks holder done ts hs ds haround hopening hbody =>
    have hbody := Body.snoc hbody (by simpa [spotIn] using hstatement (List.cons_ne_nil _ _))
    rw [← List.reverse_cons] at hbody
    rw [List.append_assoc, List.append_assoc]
    exact .block haround hopening hbody

theorem spotIn_finish_item (hb : r.blocks = []) (n : Node) :
    spotIn (r.finish n).items (r.finish n).blocks = Spot.afterItem (some n) := by
  obtain ⟨items, blocks, place, flaw⟩ := r
  obtain rfl := hb
  rfl

theorem spotIn_finish_statement (hb : r.blocks ≠ []) (n : Node) :
    spotIn (r.finish n).items (r.finish n).blocks = Spot.afterStatement (some n) := by
  obtain ⟨items, blocks, place, flaw⟩ := r
  cases blocks with
  | nil => exact absurd rfl hb
  | cons b blocks => rfl

end Finishing

/-! ## Where the next item or statement starts -/

section Standing

variable {r s : Reading} {spot : Spot} {ts : List Token}

theorem around_of_idle (h : Has r ts) (hr : Idle r spot) :
    Around r.items r.blocks ts ∧ r.blocks = [] ∧ spotIn r.items r.blocks = spot := by
  cases hr with
  | item hp =>
    obtain ⟨before, since, haround, hsince, rfl⟩ := h.since hp
    cases hsince with
    | item hinner hspot => exact ⟨by simpa using haround, Classical.not_not.1 hinner, hspot⟩
  | assigned hp hb =>
    obtain ⟨before, since, haround, hsince, rfl⟩ := h.since hp
    cases hsince with
    | afterAssignment _ hitem =>
      exact ⟨by simpa using haround, hb, hitem (fun h => h hb)⟩

theorem around_of_ready (h : Has r ts) (hr : Ready r spot s) :
    Around s.items s.blocks ts ∧ s.blocks ≠ [] ∧ spotIn s.items s.blocks = spot := by
  cases hr with
  | statement hp =>
    obtain ⟨before, since, haround, hsince, rfl⟩ := h.since hp
    cases hsince with
    | statement hinner hspot => exact ⟨by simpa using haround, hinner, hspot⟩
  | assigned hp hb =>
    obtain ⟨before, since, haround, hsince, rfl⟩ := h.since hp
    cases hsince with
    | afterAssignment hstatement _ => exact ⟨by simpa using haround, hb, hstatement hb⟩
  | @decided pos c b hp =>
    obtain ⟨before, since, haround, hsince, rfl⟩ := h.since hp
    cases hsince with
    | afterThen hinner hbranch =>
      let n := Node.conditional pos c b none
      have hn : Statement (spotIn r.items r.blocks) n since := by
        obtain ⟨hword, hc, hb, hbraced⟩ := hbranch
        exact .conditional hword hc hb hbraced
      exact ⟨around_finish haround (fun h => absurd h hinner) fun _ => hn,
        fun h => hinner ((blocks_finish_eq_nil_iff r n).1 h), spotIn_finish_statement hinner n⟩

theorem front_of_chosen (h : Has r ts) {ss : List Node} (hr : Chosen r ss) :
    ∃ before front, Around r.items r.blocks before ∧ r.blocks = [] ∧
      Front (spotIn r.items r.blocks) ss.reverse front ∧ ts = before ++ front := by
  cases hr with
  | @named t hp =>
    obtain ⟨before, since, haround, hsince, rfl⟩ := h.since hp
    cases hsince with
    | named hinner hname =>
      have hnode : t.selector? = some (.selector t.position .tag t.text) := by
        rw [Token.selector?, hname.name.kind]
      have hselector : Selector (.selector t.position .tag t.text) t :=
        ⟨hname.name.kind ▸ hname.name.word, hnode⟩
      refine ⟨before, [t], haround, Classical.not_not.1 hinner, ⟨.one hselector, ?_⟩, rfl⟩
      rintro _ ⟨⟩ _
      exact hname.free
  | more hp =>
    obtain ⟨before, since, haround, hsince, rfl⟩ := h.since hp
    cases hsince with
    | afterSelector hinner hfront =>
      exact ⟨before, since, haround, Classical.not_not.1 hinner, hfront, rfl⟩

end Standing

/-! ## Expressions -/

theorem Terms.expression {sum : Option (Node × Operator)} {p : Node} {ts ps : List Token}
    (h : Terms sum ts) (hp : Product p ps) : Expression (Node.addedTo sum p) (ts ++ ps) := by
  cases h with
  | none => exact .product hp
  | some hl hop hsign =>
    rw [List.append_assoc]
    exact .sum hl hop hsign hp

theorem Factors.product {factor : Option Node} {a : Node} {fs : List Token} {t : Token}
    (h : Factors factor fs) (ha : Atom a t) : Product (Node.timesAfter factor a) (fs ++ [t]) := by
  cases h with
  | none => exact .atom ha
  | some hl hstar =>
    rw [List.append_assoc]
    exact .times hl hstar ha

/-- The end of an expression, with the token that ends it. -/
theorem has_endExpression {r : Reading} {goal : Goal} {e : Node} {t : Token}
    {ts gs es : List Token} (h : Around r.items r.blocks ts)
    (hlead : Lead (spotIn r.items r.blocks) (r.blocks ≠ []) goal gs) (he : Expression e es)
    (ht : t.Is goal.closer) : Has (r.endExpression goal e) (ts ++ (gs ++ es) ++ [t]) := by
  cases hlead with
  | @assignment name becomes hname hbecomes =>
    let n := Node.assignment name.position name.text e
    let s := r.noting name.nameFlaw
    have hn : Assignment (spotIn r.items r.blocks) n (name :: becomes :: (es ++ [t])) :=
      .mk hname hbecomes he ht
    have haround := around_finish (r := s) h (fun _ => .assignment hn) (fun _ => .assignment hn)
    refine ⟨_, [], haround, .afterAssignment (fun hb => ?_) (fun hb => ?_), by simp⟩
    · have hblocks : s.blocks ≠ [] := fun h => hb ((blocks_finish_eq_nil_iff s n).2 h)
      exact spotIn_finish_statement hblocks n
    · have hblocks : s.blocks = [] := (blocks_finish_eq_nil_iff s n).1 (Classical.not_not.1 hb)
      exact spotIn_finish_item hblocks n
  | @declaration name colon hinner hname hcolon =>
    let n := Node.declaration name.position name.text e
    have hn : Statement (spotIn r.items r.blocks) n (name :: colon :: (es ++ [t])) :=
      .declaration hname hcolon he ht
    have haround := around_finish h (fun hb => absurd hb hinner) (fun _ => hn)
    have hinner' : (r.finish n).blocks ≠ [] :=
      fun hb => hinner ((blocks_finish_eq_nil_iff r n).1 hb)
    exact ⟨_, [], haround, .statement hinner' (spotIn_finish_statement hinner n), by simp⟩
  | @condition word left bracket hinner hword hleft =>
    have hright : t.Is bracket.right := by
      cases bracket <;> exact ht
    exact ⟨ts, _, h, .thenBlock hinner hword (.mk hleft he hright), by simp⟩

/-! ## Blocks -/

theorem has_openBlock {r : Reading} {holder : Holder} {ts hs : List Token}
    (h : Around r.items r.blocks ts)
    (hopening : Opening (spotIn r.items r.blocks) (r.blocks ≠ []) holder hs) :
    Has (r.openBlock holder) (ts ++ hs) :=
  ⟨_, [], .block h hopening .nil, .statement (List.cons_ne_nil _ _) rfl, by simp⟩

theorem Selectors.ne_nil {ns : List Node} {ts : List Token} (h : Selectors ns ts) : ns ≠ [] := by
  cases h <;> simp

/-- A rule stands where its first selector stands. -/
theorem item_of_front {spot : Spot} {ss b : List Node} {ts bs us : List Token}
    (h : Front spot ss.reverse ts) (hb : Body b bs) (hbraced : Braced bs us) :
    Item spot (.rule (firstPosition ss) ss.reverse b) (ts ++ us) := by
  have hne := h.tokens.ne_nil
  have hfirst : firstPosition ss = (ss.reverse.head?.map Node.position).getD {} := by
    rw [firstPosition, List.head?_reverse]
  generalize ss.reverse = ns at h hne hfirst
  cases ns with
  | nil => exact absurd rfl hne
  | cons n ns =>
    rw [hfirst]
    exact .rule h hb hbraced

theorem has_closeBlock {r r' : Reading} {t : Token} {ts : List Token}
    (h : Around r.items r.blocks ts) (ht : t.Is .rightBrace) (hs : r.closeBlock = some r') :
    Has r' (ts ++ [t]) := by
  obtain ⟨items, blocks, place, flaw⟩ := r
  cases h with
  | top _ => cases hs
  | @block blocks holder done ts hs ds haround hopening hbody =>
    cases hopening with
    | @rule ss fs left hinner hfront hleft =>
      obtain rfl : blocks = [] := Classical.not_not.1 hinner
      obtain rfl := Option.some.inj hs
      have hrule := item_of_front hfront hbody (.mk hleft ht)
      let s : Reading := { items, place, flaw }
      have haround := around_finish (r := s) haround (fun _ => hrule) (fun h => absurd rfl h)
      exact ⟨_, [], haround, .item (fun h => h rfl) (spotIn_finish_item (r := s) rfl _), by simp⟩
    | @thenBranch word left c cs hinner hword hc hleft =>
      obtain rfl := Option.some.inj hs
      exact ⟨ts, _, haround, .afterThen hinner (.mk hword hc hbody (.mk hleft ht)), by simp⟩
    | @elseBranch pos c b us other left hinner hbranch hother hleft =>
      obtain rfl := Option.some.inj hs
      obtain ⟨hword, hc, hb, hbraced⟩ := hbranch
      have hn : Statement (spotIn items blocks) _ _ :=
        .branching hword hc hb hbraced hother hbody (.mk hleft ht)
      let s : Reading := { items, blocks, place, flaw }
      have haround := around_finish (r := s) haround (fun h => absurd h hinner) (fun _ => hn)
      refine ⟨_, [], haround, .statement ?_ (spotIn_finish_statement (r := s) hinner _), by simp⟩
      exact fun h => hinner ((blocks_finish_eq_nil_iff s _).1 h)

/-! ## Moves -/

theorem nameAt_of_admits {place : Place} {spot : Spot} {t : Token} (ha : place.Admits t)
    (hat : place.At spot) (hk : t.kind = .name) : NameAt spot t :=
  ⟨⟨hk, hk ▸ ha.word⟩, (hat.free_iff _).1 (ha.free (.inl hk))⟩

/-- With a move the tokens of a reading grow by one. -/
theorem has_move {r r' : Reading} {t : Token} {ts : List Token} (h : Has r ts)
    (ha : r.place.Admits t) (hm : Moves t r r') : Has r' (ts ++ [t]) := by
  have his : ∀ {k}, t.kind = k → t.Is k := fun hk => ⟨hk, hk ▸ ha.word⟩
  cases hm with
  | named hr hk =>
    obtain ⟨haround, hb, rfl⟩ := around_of_idle h hr
    exact ⟨ts, _, haround, .named (fun h => h hb) (nameAt_of_admits ha hr.stands hk), rfl⟩
  | selector hr hk hn =>
    obtain ⟨haround, hb, rfl⟩ := around_of_idle h hr
    have hfront : Front (spotIn r.items r.blocks) [_].reverse [t] := ⟨.one ⟨ha.word, hn⟩, by
      rintro _ ⟨⟩ h
      exact absurd h hk⟩
    exact ⟨ts, _, haround, .afterSelector (fun h => h hb) hfront, rfl⟩
  | comma hr hk =>
    obtain ⟨before, front, haround, hb, hfront, rfl⟩ := front_of_chosen h hr
    exact ⟨before, _, haround, .selector (fun h => h hb) hfront (his hk), by simp⟩
  | another hr hn =>
    obtain ⟨before, since, haround, hsince, rfl⟩ := h.since hr
    cases hsince with
    | selector hinner hfront hcomma =>
      have hfront := hfront.snoc hcomma ⟨ha.word, hn⟩
      rw [← List.reverse_cons] at hfront
      exact ⟨before, _, haround, .afterSelector hinner hfront, by simp⟩
  | rule hr hk =>
    obtain ⟨before, front, haround, hb, hfront, rfl⟩ := front_of_chosen h hr
    rw [List.append_assoc]
    exact has_openBlock haround (.rule (fun h => h hb) hfront (his hk))
  | label hr hk =>
    have hname := nameAt_of_admits ha hr.stands hk
    obtain ⟨haround, hb, rfl⟩ := around_of_ready h hr
    exact ⟨ts, _, haround, .label hb hname, rfl⟩
  | conditional hr hk =>
    obtain ⟨haround, hb, -⟩ := around_of_ready h hr
    exact ⟨ts, _, haround, .condition hb (his hk), rfl⟩
  | close hr hk hs =>
    obtain ⟨haround, -, -⟩ := around_of_ready h hr
    exact has_closeBlock haround (his hk) hs
  | becomes hr hk =>
    rcases hr with hr | hr
    · obtain ⟨before, since, haround, hsince, rfl⟩ := h.since hr
      cases hsince with
      | named _ hname =>
        exact ⟨before, _, haround, .operand (.assignment hname (his hk)) .none .none, by simp⟩
    · obtain ⟨before, since, haround, hsince, rfl⟩ := h.since hr
      cases hsince with
      | label _ hname =>
        exact ⟨before, _, haround, .operand (.assignment hname (his hk)) .none .none, by simp⟩
  | colon hr hk =>
    obtain ⟨before, since, haround, hsince, rfl⟩ := h.since hr
    cases hsince with
    | label hinner hname =>
      exact ⟨before, _, haround, .operand (.declaration hinner hname (his hk)) .none .none, by simp⟩
  | bracket hr hk =>
    obtain ⟨before, since, haround, hsince, rfl⟩ := h.since hr
    cases hsince with
    | condition hinner hword =>
      exact ⟨before, _, haround, .operand (.condition hinner hword (his hk)) .none .none, by simp⟩
  | operand hr hn =>
    obtain ⟨before, since, haround, hsince, rfl⟩ := h.since hr
    have hat : r.place.At .operand := by
      rw [hr]
      exact .operand
    have hatom : Atom _ t := ⟨ha.word, fun hk => (hat.free_iff _).1 (ha.free (.inr hk)), hn⟩
    cases hsince with
    | operand hlead hterms hfactors =>
      exact ⟨before, _, haround, .operator hlead hterms (hfactors.product hatom), by simp⟩
  | star hr hk =>
    obtain ⟨before, since, haround, hsince, rfl⟩ := h.since hr
    cases hsince with
    | operator hlead hterms hp =>
      exact ⟨before, _, haround, .operand hlead hterms (.some hp (his hk)), by simp⟩
  | sign hr hop hk =>
    obtain ⟨before, since, haround, hsince, rfl⟩ := h.since hr
    cases hsince with
    | operator hlead hterms hp =>
      have hterms := Terms.some (hterms.expression hp) hop (his hk)
      exact ⟨before, _, haround, .operand hlead hterms .none, by simp⟩
  | stop hr hk =>
    obtain ⟨before, since, haround, hsince, rfl⟩ := h.since hr
    cases hsince with
    | operator hlead hterms hp =>
      exact has_endExpression haround hlead (hterms.expression hp) (his hk)
  | thenBlock hr hk =>
    obtain ⟨before, since, haround, hsince, rfl⟩ := h.since hr
    cases hsince with
    | thenBlock hinner hword hc =>
      rw [List.append_assoc]
      exact has_openBlock haround (.thenBranch hinner hword hc (his hk))
  | elseWord hr hk =>
    obtain ⟨before, since, haround, hsince, rfl⟩ := h.since hr
    cases hsince with
    | afterThen hinner hbranch =>
      exact ⟨before, _, haround, .elseBlock hinner hbranch (his hk), by simp⟩
  | elseBlock hr hk =>
    obtain ⟨before, since, haround, hsince, rfl⟩ := h.since hr
    cases hsince with
    | elseBlock hinner hbranch hother =>
      rw [List.append_assoc, List.append_assoc]
      exact has_openBlock haround (.elseBranch hinner hbranch hother (his hk))

theorem has_leads {r r' : Reading} {ts us : List Token} (h : Has r ts) (hleads : Leads r us r') :
    Has r' (ts ++ us) := by
  induction hleads generalizing ts with
  | nil _ => rwa [List.append_nil]
  | @cons r next r' t us ha hm _ ih =>
    have := ih (has_move h ha hm)
    rwa [List.append_assoc] at this

/-! ## The end of the text -/

theorem items_of_has {r : Reading} {ts : List Token} (h : Has r ts)
    (hcomplete : r.isComplete = true) : Items r.items.reverse ts := by
  have hidle : (∃ spot, Idle r spot) ∧ r.blocks = [] := by
    unfold Reading.isComplete at hcomplete
    split at hcomplete
    · next hp => exact ⟨⟨_, .item hp⟩, List.isEmpty_iff.1 hcomplete⟩
    · next hp =>
      have hb := List.isEmpty_iff.1 hcomplete
      exact ⟨⟨_, .assigned hp hb⟩, hb⟩
    · cases hcomplete
  obtain ⟨⟨spot, hr⟩, hb⟩ := hidle
  obtain ⟨haround, -, -⟩ := around_of_idle h hr
  rw [hb] at haround
  cases haround with
  | top hitems => exact hitems

/-- What is read to its end has a derivation, from the tokens that it is read from. -/
theorem derives_of_run {source : String} {r : Reading}
    (h : ({} : Reading).run {} {} source.toList = .ok r) :
    ∃ ts, Derives source r.items.reverse ts ∧ Leads {} ts r := by
  obtain ⟨ts, hlaid, hleads, hcomplete⟩ := Reading.run_eq_ok_iff.1 h
  exact ⟨ts, ⟨hlaid, items_of_has (has_leads has_start hleads) hcomplete⟩, hleads⟩

end StyleLang.Derived
