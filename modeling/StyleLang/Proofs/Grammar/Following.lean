import StyleLang.Proofs.Grammar.Acceptance
import StyleLang.Proofs.Grammar.Leading

/-!
# Every derivation is followed

Tokens lead a reader along every derivation of theirs, to the nodes that the derivation builds,
whatever names and numbers are noted as flaws on the way. The induction is on the derivation.
-/

namespace StyleLang

namespace Reading

@[simp] theorem noting_noting (r : Reading) (f g : Option BuildError) :
    (r.noting f).noting g = r.noting (f.or g) := by
  unfold noting
  rw [Option.or_assoc]

@[simp] theorem noting_goingTo (r : Reading) (p : Place) (f : Option BuildError) :
    (r.goingTo p).noting f = (r.noting f).goingTo p := rfl

@[simp] theorem noting_finish (r : Reading) (n : Node) (f : Option BuildError) :
    (r.finish n).noting f = (r.noting f).finish n := by
  obtain ⟨items, blocks, place, flaw⟩ := r
  cases blocks <;> rfl

end Reading

/-- A token that is neither a name nor a variable is admitted wherever it makes a move. -/
theorem Token.Is.admitted {t : Token} {k : TokenKind} (h : t.Is k) {place : Place}
    (hk : k ≠ .name ∧ k ≠ .reference := by decide) : place.Admits t := by
  obtain ⟨rfl, hw⟩ := h
  exact ⟨hw, fun h => h.elim (fun h => absurd h hk.1) (fun h => absurd h hk.2)⟩

namespace Derived

open Grammar (within closeBlock_goingTo)
open Reading (Chosen Idle Leads Moves Ready finish_goingTo goingTo_goingTo firstPosition)

/-! ## Expressions -/

theorem Atom.admitted {n : Node} {t : Token} (h : Atom n t) {place : Place}
    (hat : place.At .operand) : place.Admits t := by
  refine ⟨h.word, ?_⟩
  rintro (hk | hk)
  · have hnode := h.node
    rw [Token.operand?, hk] at hnode
    cases hnode
  · exact (hat.free_iff _).2 (h.free hk)

theorem leads_atom {n : Node} {t : Token} (h : Atom n t) (s : Reading) (goal : Goal)
    (pending : Pending) : Leads (s.goingTo (.operand goal pending)) [t]
      ((s.noting t.numberFlaw).goingTo
        (.operator goal pending.sum (.timesAfter pending.factor n))) :=
  .one (h.admitted .operand) (.operand rfl h.node)

theorem leads_product {n : Node} {ts : List Token} (h : Product n ts) (s : Reading) (goal : Goal)
    (sum : Option (Node × Operator)) : ∃ f, Leads (s.goingTo (.operand goal { sum })) ts
      ((s.noting f).goingTo (.operator goal sum n)) := by
  induction h with
  | atom ha => exact ⟨_, leads_atom ha s goal { sum }⟩
  | @times l a ts star t _ hstar ha ih =>
    obtain ⟨f, hl⟩ := ih
    have ha := leads_atom ha (s.noting f) goal { sum, factor := some l }
    rw [Reading.noting_noting] at ha
    exact ⟨_, hl.append (.cons hstar.admitted (.star rfl hstar.kind) ha)⟩

theorem leads_expression {n : Node} {ts : List Token} (h : Expression n ts) (s : Reading)
    (goal : Goal) : ∃ f sum p, Node.addedTo sum p = n ∧
      Leads (s.goingTo (.operand goal {})) ts ((s.noting f).goingTo (.operator goal sum p)) := by
  induction h with
  | @product n ts hp =>
    obtain ⟨f, hp⟩ := leads_product hp s goal none
    exact ⟨f, none, n, rfl, hp⟩
  | @sum _ a op ts us sign _ hop hsign ha ih =>
    obtain ⟨f, sum, p, rfl, hl⟩ := ih
    obtain ⟨g, ha⟩ := leads_product ha (s.noting f) goal (some (.addedTo sum p, op))
    rw [Reading.noting_noting] at ha
    have hadmits : ∀ place : Place, place.Admits sign := by
      intro place
      cases op <;> exact hsign.admitted
    exact ⟨_, some (.addedTo sum p, op), a, rfl,
      hl.append (.cons (hadmits _) (.sign rfl hop hsign.kind) ha)⟩

theorem leads_condition {n : Node} {ts : List Token} (h : Condition n ts) (s : Reading)
    (pos : Position) :
    ∃ f, Leads (s.goingTo (.condition pos)) ts ((s.noting f).goingTo (.thenBlock pos n)) := by
  obtain @⟨bracket, left, right, _, ts, hleft, he, hright⟩ := h
  obtain ⟨f, sum, p, rfl, hleads⟩ := leads_expression he s (.condition pos bracket)
  have hcloser : right.kind = (Goal.condition pos bracket).closer := by
    rw [hright.kind]
    cases bracket <;> rfl
  have hadmits : ∀ place : Place, place.Admits left ∧ place.Admits right := by
    intro place
    cases bracket <;> exact ⟨hleft.admitted, hright.admitted⟩
  exact ⟨f, .cons (hadmits _).1 (.bracket rfl hleft.kind)
    (hleads.append (.one (hadmits _).2 (.stop rfl hcloser)))⟩

/-! ## Statements -/

theorem NameAt.admitted {spot : Spot} {t : Token} (h : NameAt spot t) {place : Place}
    (hat : place.At spot) : place.Admits t :=
  ⟨h.name.kind ▸ h.name.word, fun _ => (hat.free_iff _).2 h.free⟩

/-- The expression of a statement, with the semicolon after it. -/
theorem leads_semicolon {n : Node} {ts : List Token} {stop : Token} (h : Expression n ts)
    (hstop : stop.Is .semicolon) (s : Reading) (goal : Goal) (hgoal : goal.closer = .semicolon) :
    ∃ f p, Leads (s.goingTo (.operand goal {})) (ts ++ [stop])
      (((s.noting f).goingTo p).endExpression goal n) := by
  obtain ⟨f, sum, p, rfl, hleads⟩ := leads_expression h s goal
  exact ⟨f, _, hleads.append (.one hstop.admitted (.stop rfl (hstop.kind.trans hgoal.symm)))⟩

theorem leads_assignment {spot : Spot} {n : Node} {ts : List Token} (h : Assignment spot n ts)
    {r s : Reading} (hat : r.place.At spot) (hmove : ∀ t : Token, t.kind = .name →
      ∃ place, (place = .named t ∨ place = .label t) ∧ Moves t r (s.goingTo place)) :
    ∃ f, Leads r ts (((s.noting f).finish n).goingTo .afterAssignment) := by
  obtain @⟨name, becomes, stop, e, ts, hname, hbecomes, he, hstop⟩ := h
  obtain ⟨place, hplace, hmove⟩ := hmove name hname.name.kind
  obtain ⟨f, p, hleads⟩ := leads_semicolon he hstop s (.assignment name) rfl
  refine ⟨f.or name.nameFlaw, ?_⟩
  have hend : ((s.noting f).goingTo p).endExpression (.assignment name) e =
      ((s.noting (f.or name.nameFlaw)).finish
        (.assignment name.position name.text e)).goingTo .afterAssignment := by
    simp [Reading.endExpression]
  rw [← hend]
  exact .cons (hname.admitted hat) hmove (.cons hbecomes.admitted (.becomes hplace hbecomes.kind)
    hleads)

section Closing

variable (s : Reading) (pos : Position) (c : Node) (b ns : List Node)

theorem closeBlock_rule : (within s (.rule pos b) ns.reverse).closeBlock =
    some ((s.finish (.rule pos b ns)).goingTo .item) := by
  unfold within Reading.closeBlock
  simp only [List.reverse_reverse]

theorem closeBlock_thenBranch : (within s (.thenBranch pos c) ns.reverse).closeBlock =
    some (s.goingTo (.afterThen pos c ns)) := by
  unfold within Reading.closeBlock
  simp only [List.reverse_reverse]

theorem closeBlock_elseBranch : (within s (.elseBranch pos c b) ns.reverse).closeBlock =
    some ((s.finish (.conditional pos c b (some ns))).goingTo .statement) := by
  unfold within Reading.closeBlock
  simp only [List.reverse_reverse]

end Closing

/-- The tokens of the body lead through every block that has just been opened. -/
def LeadsBody (ns : List Node) (ts : List Token) : Prop :=
  ∀ (s : Reading) (holder : Holder), ∃ f p r, Leads (s.openBlock holder) ts r ∧
    Ready r (Spot.afterStatement ns.getLast?) ((within (s.noting f) holder ns.reverse).goingTo p)

/-- A block leads from its opening brace to what its closing brace makes of it. -/
theorem LeadsBody.block {ns : List Node} {ts us : List Token} (h : LeadsBody ns ts)
    (hbraced : Braced ts us) {r s : Reading} (holder : Holder)
    (hopen : ∀ t : Token, t.kind = .leftBrace → Moves t r (s.openBlock holder)) :
    ∃ f, ∀ r', (within (s.noting f) holder ns.reverse).closeBlock = some r' → Leads r us r' := by
  obtain ⟨hleft, hright⟩ := hbraced
  obtain ⟨f, p, q, hbody, hready⟩ := h s holder
  refine ⟨f, fun r' hclose => ?_⟩
  rw [← closeBlock_goingTo _ p] at hclose
  exact .cons hleft.admitted (hopen _ hleft.kind)
    (hbody.append (.one hright.admitted (.close hready hright.kind hclose)))

/-- The first branch of a conditional, with the condition before it. -/
theorem leads_thenBranch {word : Token} {c : Node} {b : List Node} {cs bs us : List Token}
    (hword : word.Is .ifWord) (hc : Condition c cs) (hb : LeadsBody b bs) (hbraced : Braced bs us)
    {r s : Reading} {spot : Spot} (hr : Ready r spot s) :
    ∃ f, Leads r (word :: (cs ++ us))
      ((s.noting f).goingTo (.afterThen word.position c b)) := by
  obtain ⟨f, hcondition⟩ := leads_condition hc s word.position
  obtain ⟨g, hblock⟩ := hb.block hbraced (.thenBranch word.position c) fun t hk =>
    .thenBlock (r := (s.noting f).goingTo (.thenBlock word.position c)) rfl hk
  have hclosed := hblock _ (closeBlock_thenBranch ..)
  rw [Reading.noting_goingTo, Reading.noting_noting, goingTo_goingTo] at hclosed
  exact ⟨f.or g, .cons hword.admitted (.conditional hr hword.kind) (hcondition.append hclosed)⟩

mutual

theorem leads_statement {spot : Spot} {n : Node} {ts : List Token} (h : Statement spot n ts)
    {r s : Reading} (hr : Ready r spot s) (hs : s.blocks ≠ []) :
    ∃ f p r', Leads r ts r' ∧
      Ready r' (Spot.afterStatement (some n)) (((s.noting f).finish n).goingTo p) := by
  match h with
  | .assignment ha =>
    have hspot : Spot.afterStatement (some n) = .statement := by
      cases ha
      rfl
    obtain ⟨f, hleads⟩ := leads_assignment ha hr.stands fun t hk =>
      ⟨.label t, .inr rfl, .label hr hk⟩
    have hblocks : ((s.noting f).finish n).blocks ≠ [] :=
      fun he => hs ((Reading.blocks_finish_eq_nil_iff (s.noting f) n).1 he)
    rw [hspot]
    exact ⟨f, _, _, hleads, .assigned rfl hblocks⟩
  | @Statement.declaration _ name colon stop e ts hname hcolon he hstop =>
    obtain ⟨f, p, hleads⟩ := leads_semicolon he hstop s (.declaration name) rfl
    have hend : ((s.noting f).goingTo p).endExpression (.declaration name) e =
        ((s.noting f).finish (.declaration name.position name.text e)).goingTo .statement := by
      simp [Reading.endExpression]
    rw [hend] at hleads
    exact ⟨f, _, _, .cons (hname.admitted hr.stands) (.label hr hname.name.kind)
      (.cons hcolon.admitted (.colon rfl hcolon.kind) hleads), .statement rfl⟩
  | @Statement.conditional _ word c b cs bs us hword hc hb hbraced =>
    obtain ⟨f, hleads⟩ := leads_thenBranch hword hc (leads_body hb) hbraced hr
    have hready := Ready.decided
      (r := (s.noting f).goingTo (.afterThen word.position c b)) rfl
    rw [finish_goingTo] at hready
    exact ⟨f, _, _, hleads, hready⟩
  | @Statement.branching _ word other c b e cs bs us es vs hword hc hb hbraced hother he hbraced' =>
    obtain ⟨f, hleads⟩ := leads_thenBranch hword hc (leads_body hb) hbraced hr
    obtain ⟨g, hblock⟩ := (leads_body he).block hbraced' (.elseBranch word.position c b) fun t hk =>
      .elseBlock (r := (s.noting f).goingTo (.elseBlock word.position c b)) rfl hk
    have hclosed := hblock _ (closeBlock_elseBranch ..)
    rw [Reading.noting_goingTo, Reading.noting_noting, finish_goingTo, goingTo_goingTo] at hclosed
    have hall := hleads.append (.cons hother.admitted (.elseWord rfl hother.kind) hclosed)
    rw [List.cons_append, List.append_assoc] at hall
    exact ⟨f.or g, _, _, hall, .statement rfl⟩

theorem leads_body {ns : List Node} {ts : List Token} (h : Body ns ts) : LeadsBody ns ts := by
  intro s holder
  match h with
  | .nil =>
    refine ⟨none, .statement, _, .nil _, ?_⟩
    rw [Reading.noting_none]
    exact .statement rfl
  | @Body.snoc ns n ts us hb hn =>
    have ihn := @leads_statement _ _ _ hn
    obtain ⟨f, p, r, hbody, hready⟩ := leads_body hb s holder
    obtain ⟨g, q, r', hstatement, hready'⟩ := ihn hready (List.cons_ne_nil _ _)
    refine ⟨f.or g, q, r', hbody.append hstatement, ?_⟩
    have hwithin : (((within (s.noting f) holder ns.reverse).goingTo p).noting g).finish n =
        (within (s.noting (f.or g)) holder (ns ++ [n]).reverse).goingTo p := by
      rw [List.reverse_concat, ← Reading.noting_noting]
      rfl
    rw [hwithin] at hready'
    rw [List.getLast?_concat]
    exact hready'

end

/-! ## Items -/

theorem Selector.admitted {n : Node} {t : Token} (h : Selector n t) {place : Place}
    (hfree : t.kind = .name → ∀ k, (k, t.chars) ∈ TokenKind.keywords → place.allows k = false) :
    place.Admits t := by
  refine ⟨h.word, ?_⟩
  rintro (hk | hk)
  · exact hfree hk
  · have hnode := h.node
    rw [Token.selector?, hk] at hnode
    cases hnode

theorem leads_firstSelector {n : Node} {t : Token} (h : Selector n t) {r : Reading} {spot : Spot}
    (hr : Idle r spot) (hfree : t.kind = .name → ¬ Reserve.keywords spot t.chars) :
    ∃ p, Leads r [t] (r.goingTo p) ∧ Chosen (r.goingTo p) [n] := by
  have hadmits := h.admitted fun hk => (hr.stands.free_iff t.chars).2 (hfree hk)
  by_cases hk : t.kind = .name
  · have hnode := h.node
    rw [Token.selector?, hk] at hnode
    obtain rfl := Option.some.inj hnode
    exact ⟨.named t, .one hadmits (.named hr hk), .named rfl⟩
  · exact ⟨.afterSelector [n], .one hadmits (.selector hr hk h.node), .more rfl⟩

/-- Among selectors no keyword is looked for. -/
theorem allows_selector_keyword (ss : List Node) {k : TokenKind} {w : List Char}
    (hk : (k, w) ∈ TokenKind.keywords) : (Place.selector ss).allows k = false := by
  cases k <;> first
    | rfl
    | simp [TokenKind.keywords] at hk

theorem leads_selectors {ns : List Node} {ts : List Token} {r : Reading} {spot : Spot}
    (hr : Idle r spot) (h : Front spot ns ts) :
    ∃ p, Leads r ts (r.goingTo p) ∧ Chosen (r.goingTo p) ns.reverse := by
  obtain ⟨htokens, hfree⟩ := h
  induction htokens with
  | one hn => exact leads_firstSelector hn hr (hfree _ rfl)
  | @snoc ns n ts comma t hns hcomma hn ih =>
    rw [hns.head?_append] at hfree
    obtain ⟨p, hleads, hchosen⟩ := ih hfree
    have hanother := Moves.another (r := r.goingTo (.selector ns.reverse)) rfl hn.node
    have hadmits := hn.admitted fun _ _ hk => allows_selector_keyword ns.reverse hk
    refine ⟨.afterSelector (n :: ns.reverse), hleads.append
      (.cons hcomma.admitted (.comma hchosen hcomma.kind) (.one hadmits hanother)), ?_⟩
    rw [List.reverse_concat]
    exact .more rfl

theorem leads_item {spot : Spot} {n : Node} {ts : List Token} (h : Item spot n ts) {r : Reading}
    (hr : Idle r spot) (hb : r.blocks = []) :
    ∃ f p, Leads r ts (((r.noting f).finish n).goingTo p) ∧
      Idle (((r.noting f).finish n).goingTo p) (Spot.afterItem (some n)) := by
  have hblocks : ∀ f, ((r.noting f).finish n).blocks = [] :=
    fun f => (Reading.blocks_finish_eq_nil_iff (r.noting f) n).2 hb
  cases h with
  | assignment ha =>
    have hspot : Spot.afterItem (some n) = .afterAssignment := by
      cases ha
      rfl
    obtain ⟨f, hleads⟩ := leads_assignment ha hr.stands fun t hk =>
      ⟨.named t, .inl rfl, .named hr hk⟩
    rw [hspot]
    exact ⟨f, _, hleads, .assigned rfl (hblocks f)⟩
  | @rule s ss b ts bs us hfront hb hbraced =>
    obtain ⟨p, hleads, hchosen⟩ := leads_selectors hr hfront
    obtain ⟨f, hblock⟩ := (leads_body hb).block hbraced _ fun t hk => .rule hchosen hk
    have hfirst : firstPosition (s :: ss).reverse = s.position := by
      simp [firstPosition]
    have hclosed := hblock _ (closeBlock_rule ..)
    rw [hfirst, List.reverse_reverse, Reading.noting_goingTo, finish_goingTo,
      goingTo_goingTo] at hclosed
    exact ⟨f, _, hleads.append hclosed, .item rfl⟩

/-- The tokens of every derivation lead to the end, with the items that it builds. -/
theorem leads_items {ns : List Node} {ts : List Token} (h : Items ns ts) :
    ∃ f p, Leads {} ts (Reading.goingTo { items := ns.reverse, flaw := f } p) ∧
      Idle (Reading.goingTo { items := ns.reverse, flaw := f } p) (Spot.afterItem ns.getLast?) := by
  induction h with
  | nil => exact ⟨none, .item, .nil _, .item rfl⟩
  | @snoc ns n ts us _ hn ih =>
    obtain ⟨f, p, hleads, hidle⟩ := ih
    obtain ⟨g, q, hitem, hidle'⟩ := leads_item hn hidle rfl
    refine ⟨f.or g, q, ?_⟩
    rw [List.reverse_concat, List.getLast?_concat]
    exact ⟨hleads.append hitem, hidle'⟩

/-- A text with a derivation is read to its end, as the items that the derivation builds. -/
theorem run_of_derives {source : String} {ns : List Node} {ts : List Token}
    (h : Derives source ns ts) : ∃ r, ({} : Reading).run {} {} source.toList = .ok r ∧
      Leads {} ts r ∧ r.isComplete = true ∧ r.items.reverse = ns := by
  obtain ⟨f, p, hleads, hidle⟩ := leads_items h.items
  generalize Spot.afterItem ns.getLast? = spot at hidle
  have hcomplete : (Reading.goingTo { items := ns.reverse, flaw := f } p).isComplete = true := by
    cases hidle with
    | item hp | assigned hp _ =>
      unfold Reading.isComplete
      rw [hp]
      rfl
  exact ⟨_, Reading.run_of_leads hleads h.laid hcomplete _, hleads, hcomplete,
    List.reverse_reverse ns⟩

end Derived

end StyleLang
