import StyleLang.Proofs.Grammar.Spelling
import StyleLang.Read.Reading

/-!
# What a reading holds

A reading holds words if the words are those of its finished items, of the statements in its open
blocks with what stands before each block, and of the statement it is in the middle of, in order.
Main statement: with a token the words of a reading grow by the word of the token.
-/

namespace StyleLang.Grammar

open Reserve (keywords)
open Reading (flaw_finish blocks_finish_eq_nil_iff)

/-! ## Unfinished statements -/

/-- The words of the terms before a product, with the operator after them. -/
inductive Terms : Option (Node × Operator) → List (List Char) → Prop where
  | none : Terms none []
  | plus {l : Node} {ws : List (List Char)} : Expression keywords l.bare ws →
    Terms (some (l, .add)) (ws ++ [['+']])
  | minus {l : Node} {ws : List (List Char)} : Expression keywords l.bare ws →
    Terms (some (l, .subtract)) (ws ++ [['-']])

/-- The words of the factors before an atom, with the star after them. -/
inductive Factors : Option Node → List (List Char) → Prop where
  | none : Factors none []
  | some {l : Node} {ws : List (List Char)} : Product keywords l.bare ws →
    Factors (some l) (ws ++ [['*']])

/-- The words before the expression of a statement. -/
inductive Lead (spot : Spot) (inner : Prop) : Goal → List (List Char) → Prop where
  | assignment {t : Token} : IsName t.chars → ¬ keywords spot t.chars →
    Lead spot inner (.assignment t) [t.chars, [':', '=']]
  | declaration {t : Token} : inner → IsName t.chars → ¬ keywords spot t.chars →
    Lead spot inner (.declaration t) [t.chars, [':']]
  | square {pos : Position} : inner → Lead spot inner (.condition pos .square) [['i', 'f'], ['[']]
  | round {pos : Position} : inner → Lead spot inner (.condition pos .round) [['i', 'f'], ['(']]

/-- The words of a conditional up to the end of its first branch. -/
inductive Branch : Node → List Node → List (List Char) → Prop where
  | mk {c : Node} {b : List Node} {cs bs : List (List Char)} : Condition keywords c.bare cs →
    Body keywords (Node.bareAll b) bs → Branch c b (['i', 'f'] :: (cs ++ ['{'] :: (bs ++ [['}']])))

/-- The words of some selectors at the start of a rule. -/
structure Front (spot : Spot) (selectors : List Node) (ws : List (List Char)) : Prop where
  words : Selectors (Node.bareAll selectors) ws
  free : ∀ w ∈ ws.head?, ¬ keywords spot w

/-- The words since the last finished item or statement, at each place. `spot` is the spot there,
and `inner` says that it is in a block. -/
inductive Since (spot : Spot) (inner : Prop) : Place → List (List Char) → Prop where
  | item : ¬ inner → spot = .item → Since spot inner .item []
  | afterAssignment : (inner → spot = .statement) → (¬ inner → spot = .afterAssignment) →
    Since spot inner .afterAssignment []
  | named {t : Token} : ¬ inner → IsName t.chars → ¬ keywords spot t.chars →
    Since spot inner (.named t) [t.chars]
  | selector {selectors : List Node} {ws : List (List Char)} : ¬ inner →
    Front spot selectors.reverse ws → Since spot inner (.selector selectors) (ws ++ [[',']])
  | afterSelector {selectors : List Node} {ws : List (List Char)} : ¬ inner →
    Front spot selectors.reverse ws → Since spot inner (.afterSelector selectors) ws
  | statement : inner → spot = .statement → Since spot inner .statement []
  | label {t : Token} : inner → IsName t.chars → ¬ keywords spot t.chars →
    Since spot inner (.label t) [t.chars]
  | condition {pos : Position} : inner → Since spot inner (.condition pos) [['i', 'f']]
  | operand {goal : Goal} {sum : Option (Node × Operator)} {factor : Option Node}
      {gs ts fs : List (List Char)} : Lead spot inner goal gs → Terms sum ts →
    Factors factor fs → Since spot inner (.operand goal { sum, factor }) (gs ++ (ts ++ fs))
  | operator {goal : Goal} {sum : Option (Node × Operator)} {product : Node}
      {gs ts ps : List (List Char)} : Lead spot inner goal gs → Terms sum ts →
    Product keywords product.bare ps →
    Since spot inner (.operator goal sum product) (gs ++ (ts ++ ps))
  | thenBlock {pos : Position} {c : Node} {cs : List (List Char)} : inner →
    Condition keywords c.bare cs → Since spot inner (.thenBlock pos c) (['i', 'f'] :: cs)
  | afterThen {pos : Position} {c : Node} {b : List Node} {ws : List (List Char)} : inner →
    Branch c b ws → Since spot inner (.afterThen pos c b) ws
  | elseBlock {pos : Position} {c : Node} {b : List Node} {ws : List (List Char)} : inner →
    Branch c b ws → Since spot inner (.elseBlock pos c b) (ws ++ [['e', 'l', 's', 'e']])

/-! ## Finished items and open blocks -/

/-- Where the next item or statement starts. -/
def spotIn (items : List Node) : List OpenBlock → Spot
  | [] => Spot.afterItem (Node.bareAll items.reverse).getLast?
  | b :: _ => Spot.afterStatement (Node.bareAll b.done.reverse).getLast?

/-- The words before a block, from the start of the item or statement that it belongs to. -/
inductive Opening (spot : Spot) (inner : Prop) : Holder → List (List Char) → Prop where
  | rule {pos : Position} {selectors : List Node} {ws : List (List Char)} : ¬ inner →
    Front spot selectors ws → Opening spot inner (.rule pos selectors) (ws ++ [['{']])
  | thenBranch {pos : Position} {c : Node} {cs : List (List Char)} : inner →
    Condition keywords c.bare cs →
    Opening spot inner (.thenBranch pos c) (['i', 'f'] :: (cs ++ [['{']]))
  | elseBranch {pos : Position} {c : Node} {b : List Node} {ws : List (List Char)} : inner →
    Branch c b ws →
    Opening spot inner (.elseBranch pos c b) (ws ++ [['e', 'l', 's', 'e'], ['{']])

/-- The words of all that is finished, and of what stands before it. -/
inductive Around (items : List Node) : List OpenBlock → List (List Char) → Prop where
  | top {ws : List (List Char)} : Items keywords (Node.bareAll items.reverse) ws →
    Around items [] ws
  | block {blocks : List OpenBlock} {holder : Holder} {done : List Node}
      {ws hs ds : List (List Char)} : Around items blocks ws →
    Opening (spotIn items blocks) (blocks ≠ []) holder hs →
    Body keywords (Node.bareAll done.reverse) ds →
    Around items (⟨holder, done⟩ :: blocks) (ws ++ (hs ++ ds))

/-- The words of a reading. -/
def Holds (r : Reading) (ws : List (List Char)) : Prop :=
  ∃ before since, Around r.items r.blocks before ∧
    Since (spotIn r.items r.blocks) (r.blocks ≠ []) r.place since ∧ ws = before ++ since

theorem holds_start : Holds {} [] :=
  ⟨[], [], .top .nil, .item (fun h => h rfl) rfl, rfl⟩

/-! ## Finishing -/

theorem around_item {items : List Node} {n : Node} {ws vs : List (List Char)}
    (h : Around items [] ws) (hn : Item keywords (spotIn items []) n.bare vs) :
    Around (n :: items) [] (ws ++ vs) := by
  cases h with
  | top hitems =>
    refine .top ?_
    rw [List.reverse_cons, Node.bareAll_append]
    exact .snoc hitems hn

theorem around_statement {items done : List Node} {holder : Holder} {blocks : List OpenBlock}
    {n : Node} {ws vs : List (List Char)} (h : Around items (⟨holder, done⟩ :: blocks) ws)
    (hn : Statement keywords (spotIn items (⟨holder, done⟩ :: blocks)) n.bare vs) :
    Around items (⟨holder, n :: done⟩ :: blocks) (ws ++ vs) := by
  cases h with
  | @block _ _ _ ws hs ds haround hopening hbody =>
    have hbody' : Body keywords (Node.bareAll (n :: done).reverse) (ds ++ vs) := by
      rw [List.reverse_cons, Node.bareAll_append]
      exact .snoc hbody hn
    have hwords : ws ++ (hs ++ ds) ++ vs = ws ++ (hs ++ (ds ++ vs)) := by
      simp only [List.append_assoc]
    rw [hwords]
    exact .block haround hopening hbody'

theorem around_finish {r : Reading} {n : Node} {ws vs : List (List Char)}
    (h : Around r.items r.blocks ws)
    (hitem : r.blocks = [] → Item keywords (spotIn r.items r.blocks) n.bare vs)
    (hstatement : r.blocks ≠ [] → Statement keywords (spotIn r.items r.blocks) n.bare vs) :
    Around (r.finish n).items (r.finish n).blocks (ws ++ vs) := by
  obtain ⟨items, blocks, place, flaw⟩ := r
  cases blocks with
  | nil => exact around_item h (hitem rfl)
  | cons b blocks => exact around_statement h (hstatement (List.cons_ne_nil _ _))

theorem spotIn_finish_item {r : Reading} (hb : r.blocks = []) (n : Node) :
    spotIn (r.finish n).items (r.finish n).blocks = Spot.afterItem (some n.bare) := by
  obtain ⟨items, blocks, place, flaw⟩ := r
  obtain rfl := hb
  simp only [Reading.finish, spotIn, List.reverse_cons, Node.bareAll_append, Node.bareAll_cons,
    Node.bareAll_nil, List.getLast?_concat]

theorem spotIn_finish_statement {r : Reading} (hb : r.blocks ≠ []) (n : Node) :
    spotIn (r.finish n).items (r.finish n).blocks = Spot.afterStatement (some n.bare) := by
  obtain ⟨items, blocks, place, flaw⟩ := r
  cases blocks with
  | nil => exact absurd rfl hb
  | cons b blocks =>
    simp only [Reading.finish, spotIn, List.reverse_cons, Node.bareAll_append, Node.bareAll_cons,
      Node.bareAll_nil, List.getLast?_concat]

/-! ## Steps -/

theorem holds_closeBlock {r r' : Reading} {ws : List (List Char)}
    (h : Around r.items r.blocks ws) (hs : r.closeBlock = some r') : Holds r' (ws ++ [['}']]) := by
  obtain ⟨items, blocks, place, flaw⟩ := r
  cases h with
  | top _ => cases hs
  | @block blocks holder done ws hs ds haround hopening hbody =>
    cases hopening with
    | @rule pos selectors ss hinner hfront =>
      obtain rfl : blocks = [] := Classical.not_not.1 hinner
      obtain rfl := Option.some.inj hs
      have hrule : Item keywords (spotIn items []) (Node.rule pos selectors done.reverse).bare
          (ss ++ ['{'] :: (ds ++ [['}']])) := .rule hfront.words hfront.free hbody
      have hspot : spotIn (.rule pos selectors done.reverse :: items) [] = .item :=
        spotIn_finish_item (r := { items, blocks := [] }) rfl _
      refine ⟨_, [], around_item haround hrule, .item (fun h => h rfl) hspot, ?_⟩
      simp
    | @thenBranch pos c cs hinner hc =>
      obtain rfl := Option.some.inj hs
      refine ⟨ws, _, haround, .afterThen hinner (.mk hc hbody), ?_⟩
      simp
    | @elseBranch pos c b es hinner hbranch =>
      obtain rfl := Option.some.inj hs
      obtain @⟨cs, bs, hc, hb⟩ := hbranch
      let n := Node.conditional pos c b (some done.reverse)
      have hn : Statement keywords (spotIn items blocks) n.bare
          (['i', 'f'] :: (cs ++ ['{'] :: (bs ++
            ['}'] :: ['e', 'l', 's', 'e'] :: ['{'] :: (ds ++ [['}']])))) :=
        .branching hc hb hbody
      let s : Reading := { items, blocks, place, flaw }
      have hspot : spotIn (s.finish n).items (s.finish n).blocks = .statement :=
        spotIn_finish_statement hinner n
      have hinner' : (s.finish n).blocks ≠ [] :=
        fun h => hinner ((blocks_finish_eq_nil_iff s n).1 h)
      refine ⟨_, [], around_finish (r := s) haround (fun h => absurd h hinner) fun _ => hn,
        .statement hinner' hspot, ?_⟩
      simp

/-- A token at the start of a statement, with all statements before it finished. -/
theorem holds_stepStatement {r r' : Reading} {t : Token} {ws : List (List Char)}
    (h : Around r.items r.blocks ws) (hb : r.blocks ≠ []) (hw : t.kind.Word t.chars)
    (hfree : t.kind = .name → ¬ keywords (spotIn r.items r.blocks) t.chars)
    (hs : r.stepStatement t = some r') : Holds r' (ws ++ [t.chars]) := by
  obtain ⟨k, w, start⟩ := t
  unfold Reading.stepStatement at hs
  split at hs
  · next hk =>
    obtain rfl : k = .name := hk
    obtain rfl := Option.some.inj hs
    exact ⟨ws, _, h, .label hb hw (hfree rfl), rfl⟩
  · next hk =>
    obtain rfl : k = .ifWord := hk
    obtain rfl := Option.some.inj hs
    obtain rfl : w = ['i', 'f'] := hw
    exact ⟨ws, _, h, .condition hb, rfl⟩
  · next hk =>
    obtain rfl : k = .rightBrace := hk
    obtain rfl : w = ['}'] := hw
    exact holds_closeBlock h hs
  · cases hs

theorem selector_of_token {t : Token} {n : Node} (hw : t.kind.Word t.chars)
    (h : t.selector? = some n) : Selector n.bare t.chars := by
  obtain ⟨k, w, start⟩ := t
  unfold Token.selector? at h
  split at h
  · next hk =>
    obtain rfl : k = .name := hk
    obtain rfl := Option.some.inj h
    exact .tag hw
  · next hk =>
    obtain rfl : k = .classSelector := hk
    obtain rfl := Option.some.inj h
    obtain ⟨v, hv, rfl⟩ := hw
    exact .className hv
  · next hk =>
    obtain rfl : k = .idSelector := hk
    obtain rfl := Option.some.inj h
    obtain ⟨v, hv, rfl⟩ := hw
    exact .id hv
  · cases h

/-- A selector is reserved only if it is a name. -/
theorem not_keywords_of_selector {t : Token} {n : Node} (hw : t.kind.Word t.chars)
    (h : t.selector? = some n) (hk : t.kind ≠ .name) (spot : Spot) :
    ¬ keywords spot t.chars := by
  obtain ⟨k, w, start⟩ := t
  unfold Token.selector? at h
  split at h
  · next hname => exact absurd hname hk
  · next hk =>
    obtain rfl : k = .classSelector := hk
    obtain ⟨v, -, rfl⟩ := hw
    cases spot <;> simp [keywords]
  · next hk =>
    obtain rfl : k = .idSelector := hk
    obtain ⟨v, -, rfl⟩ := hw
    cases spot <;> simp [keywords]
  · cases h

/-- A token at the start of an item. -/
theorem holds_stepItem {r r' : Reading} {t : Token} {ws : List (List Char)}
    (h : Around r.items r.blocks ws) (hb : r.blocks = []) (hw : t.kind.Word t.chars)
    (hfree : t.kind = .name → ¬ keywords (spotIn r.items r.blocks) t.chars)
    (hs : r.stepItem t = some r') : Holds r' (ws ++ [t.chars]) := by
  unfold Reading.stepItem at hs
  split at hs
  · next hk =>
    obtain rfl := Option.some.inj hs
    rw [hk] at hw
    exact ⟨ws, _, h, .named (fun h => h hb) hw (hfree hk), rfl⟩
  · next hk =>
    obtain ⟨n, hn, rfl⟩ := Option.map_eq_some_iff.1 hs
    have hselector := not_keywords_of_selector hw hn hk (spotIn r.items r.blocks)
    refine ⟨ws, _, h, .afterSelector (fun h => h hb) ⟨.one (selector_of_token hw hn), ?_⟩, rfl⟩
    rintro _ ⟨⟩
    exact hselector

/-- A token after a selector. -/
theorem holds_stepAfterSelector {r r' : Reading} {t : Token} {selectors : List Node}
    {pos : Position} {ws vs : List (List Char)} (h : Around r.items r.blocks ws)
    (hb : r.blocks = []) (hfront : Front (spotIn r.items r.blocks) selectors.reverse vs)
    (hw : t.kind.Word t.chars) (hs : r.stepAfterSelector selectors pos t = some r') :
    Holds r' (ws ++ vs ++ [t.chars]) := by
  obtain ⟨k, w, start⟩ := t
  unfold Reading.stepAfterSelector at hs
  split at hs
  · next hk =>
    obtain rfl : k = .comma := hk
    obtain rfl := Option.some.inj hs
    obtain rfl : w = [','] := hw
    exact ⟨ws, _, h, .selector (fun h => h hb) hfront, List.append_assoc _ _ _⟩
  · next hk =>
    obtain rfl : k = .leftBrace := hk
    obtain rfl := Option.some.inj hs
    obtain rfl : w = ['{'] := hw
    have hopening : Opening (spotIn r.items r.blocks) (r.blocks ≠ [])
        (.rule pos selectors.reverse) (vs ++ [['{']]) := .rule (fun h => h hb) hfront
    refine ⟨_, [], .block h hopening .nil, .statement (List.cons_ne_nil _ _) rfl, ?_⟩
    simp
  · cases hs

/-! ## Expressions -/

theorem Terms.expression {sum : Option (Node × Operator)} {p : Node} {ts ps : List (List Char)}
    (h : Terms sum ts) (hp : Product keywords p.bare ps) :
    Expression keywords (Node.addedTo sum p).bare (ts ++ ps) := by
  cases h with
  | none => exact .product hp
  | plus hl =>
    rw [List.append_assoc]
    exact .plus hl hp
  | minus hl =>
    rw [List.append_assoc]
    exact .minus hl hp

theorem Factors.product {factor : Option Node} {a : Node} {fs : List (List Char)} {w : List Char}
    (h : Factors factor fs) (ha : Atom keywords a.bare w) :
    Product keywords (Node.timesAfter factor a).bare (fs ++ [w]) := by
  cases h with
  | none => exact .atom ha
  | some hl =>
    rw [List.append_assoc]
    exact .times hl ha

theorem atom_of_number {m : Measure} {t : Token} (hm : t.measure? = some m)
    (hw : ∃ ds, IsDigits ds ∧ t.chars = ds ++ m.unit.toList) (hflaw : t.numberFlaw = none) :
    Atom keywords (.literal {} (.number m (readDigits t.digits))) t.chars := by
  obtain ⟨ds, hds, hchars⟩ := hw
  have hdigits : t.digits = ds := by
    unfold Token.digits
    rw [hchars, takeWhile_isDigit hds m]
  have hlength : ds.length ≤ digitLimit := by
    unfold Token.numberFlaw at hflaw
    rw [hm, hdigits] at hflaw
    by_cases hl : digitLimit < ds.length
    · simp [hl] at hflaw
    · omega
  rw [hdigits, hchars]
  exact .number hds hlength

theorem atom_of_token {t : Token} {a : Node} (hw : t.kind.Word t.chars)
    (hfree : t.kind = .reference → ¬ keywords .operand t.chars) (h : t.operand? = some a)
    (hflaw : t.numberFlaw = none) : Atom keywords a.bare t.chars := by
  obtain ⟨k, w, start⟩ := t
  cases k with
  | pixel =>
    obtain rfl := Option.some.inj h
    exact atom_of_number rfl hw hflaw
  | percentage =>
    obtain rfl := Option.some.inj h
    exact atom_of_number rfl hw hflaw
  | scalar =>
    obtain rfl := Option.some.inj h
    exact atom_of_number rfl hw hflaw
  | color =>
    obtain rfl := Option.some.inj h
    exact .color hw
  | trueCapital | falseCapital =>
    obtain rfl := Option.some.inj h
    obtain rfl := hw
    exact .bool List.mem_cons_self
  | trueSmall | falseSmall =>
    obtain rfl := Option.some.inj h
    obtain rfl := hw
    exact .bool (List.mem_cons_of_mem _ List.mem_cons_self)
  | reference =>
    obtain rfl := Option.some.inj h
    exact .reference hw (hfree rfl)
  | _ => cases h

theorem isVariable_of_nameFlaw {t : Token} (h : IsName t.chars) (hflaw : t.nameFlaw = none) :
    IsVariable t.chars := by
  obtain ⟨c, cs, hchars, hc, hcs⟩ := h
  have hhyphen : '-' ∉ t.chars := by
    unfold Token.nameFlaw at hflaw
    intro hmem
    simp [hmem] at hflaw
  refine ⟨c, cs, hchars, hc, fun d hd => ?_⟩
  rcases Bool.or_eq_true_iff.1 (hcs d hd) with hword | hd'
  · exact hword
  · rw [hchars, ← eq_of_beq hd'] at hhyphen
    exact absurd (List.mem_cons_of_mem _ hd) hhyphen

/-- The end of an expression, with the word that ends it. -/
theorem holds_endExpression {r : Reading} {goal : Goal} {e : Node} {w : List Char}
    {ws gs es : List (List Char)} (h : Around r.items r.blocks ws)
    (hlead : Lead (spotIn r.items r.blocks) (r.blocks ≠ []) goal gs)
    (he : Expression keywords e.bare es) (hw : goal.closer.Word w)
    (hflaw : (r.endExpression goal e).flaw = none) :
    Holds (r.endExpression goal e) (ws ++ (gs ++ es) ++ [w]) := by
  cases hlead with
  | @assignment t hname hfree =>
    obtain rfl : w = [';'] := hw
    let n := Node.assignment t.position t.text e
    let s := r.noting t.nameFlaw
    have hflaw' : r.flaw.or t.nameFlaw = none := (flaw_finish s n).symm.trans hflaw
    have hvariable := isVariable_of_nameFlaw hname (Option.or_eq_none_iff.1 hflaw').2
    have hn : Assignment keywords (spotIn r.items r.blocks) n.bare
        (t.chars :: [':', '='] :: (es ++ [[';']])) := .mk hvariable hfree he
    have haround := around_finish (r := s) h (fun _ => .assignment hn) (fun _ => .assignment hn)
    refine ⟨_, [], haround, .afterAssignment (fun hb => ?_) (fun hb => ?_), by simp⟩
    · have hblocks : s.blocks ≠ [] := fun h => hb ((blocks_finish_eq_nil_iff s n).2 h)
      exact spotIn_finish_statement hblocks n
    · have hblocks : s.blocks = [] := (blocks_finish_eq_nil_iff s n).1 (Classical.not_not.1 hb)
      exact spotIn_finish_item hblocks n
  | @declaration t hinner hname hfree =>
    obtain rfl : w = [';'] := hw
    let n := Node.declaration t.position t.text e
    have hn : Statement keywords (spotIn r.items r.blocks) n.bare
        (t.chars :: [':'] :: (es ++ [[';']])) := .declaration hname hfree he
    have haround := around_finish h (fun hb => absurd hb hinner) (fun _ => hn)
    have hinner' : (r.finish n).blocks ≠ [] :=
      fun hb => hinner ((blocks_finish_eq_nil_iff r n).1 hb)
    exact ⟨_, [], haround, .statement hinner' (spotIn_finish_statement hinner n), by simp⟩
  | square hinner =>
    obtain rfl : w = [']'] := hw
    refine ⟨ws, _, h, .thenBlock hinner (.square he), ?_⟩
    simp
  | round hinner =>
    obtain rfl : w = [')'] := hw
    refine ⟨ws, _, h, .thenBlock hinner (.round he), ?_⟩
    simp

/-- A token after an operand. -/
theorem holds_stepOperator {r r' : Reading} {goal : Goal} {sum : Option (Node × Operator)}
    {p : Node} {t : Token} {ws gs ts ps : List (List Char)} (h : Around r.items r.blocks ws)
    (hlead : Lead (spotIn r.items r.blocks) (r.blocks ≠ []) goal gs) (hsum : Terms sum ts)
    (hp : Product keywords p.bare ps) (hw : t.kind.Word t.chars)
    (hs : r.stepOperator goal sum p t = some r') (hflaw : r'.flaw = none) :
    Holds r' (ws ++ (gs ++ (ts ++ ps)) ++ [t.chars]) := by
  obtain ⟨k, w, start⟩ := t
  unfold Reading.stepOperator at hs
  split at hs
  · next hk =>
    obtain rfl : k = .star := hk
    obtain rfl := Option.some.inj hs
    obtain rfl : w = ['*'] := hw
    exact ⟨ws, _, h, .operand hlead hsum (.some hp), by simp⟩
  · next hk =>
    obtain rfl : k = .plus := hk
    obtain rfl := Option.some.inj hs
    obtain rfl : w = ['+'] := hw
    exact ⟨ws, _, h, .operand hlead (.plus (hsum.expression hp)) .none, by simp⟩
  · next hk =>
    obtain rfl : k = .minus := hk
    obtain rfl := Option.some.inj hs
    obtain rfl : w = ['-'] := hw
    exact ⟨ws, _, h, .operand hlead (.minus (hsum.expression hp)) .none, by simp⟩
  · split at hs
    · next hcloser =>
      obtain rfl := Option.some.inj hs
      have hword : goal.closer.Word w := hcloser ▸ hw
      exact holds_endExpression h hlead (hsum.expression hp) hword hflaw
    · cases hs

/-! ## A step -/

theorem holds_goal {r : Reading} {goal : Goal} {ws gs : List (List Char)}
    (h : Around r.items r.blocks ws)
    (hlead : Lead (spotIn r.items r.blocks) (r.blocks ≠ []) goal gs) :
    Holds (r.goingTo (.operand goal {})) (ws ++ gs) :=
  ⟨ws, _, h, .operand hlead .none .none, by simp⟩

theorem holds_openBlock {r : Reading} {holder : Holder} {ws hs : List (List Char)}
    (h : Around r.items r.blocks ws)
    (hopening : Opening (spotIn r.items r.blocks) (r.blocks ≠ []) holder hs) :
    Holds (r.openBlock holder) (ws ++ hs) :=
  ⟨_, [], .block h hopening .nil, .statement (List.cons_ne_nil _ _) rfl, by simp⟩

theorem Front.snoc {spot : Spot} {selectors : List Node} {n : Node} {ws : List (List Char)}
    {w : List Char} (h : Front spot selectors ws) (hn : Selector n.bare w) :
    Front spot (selectors ++ [n]) (ws ++ [[','], w]) where
  words := by
    rw [Node.bareAll_append]
    exact .snoc h.words hn
  free := by
    rw [h.words.head?_append]
    exact h.free

/-- A conditional without a second branch is finished by the token after it. -/
theorem holds_stepAfterThen {r r' : Reading} {pos : Position} {c : Node} {b : List Node} {t : Token}
    {ws vs : List (List Char)} (h : Around r.items r.blocks ws) (hb : r.blocks ≠ [])
    (hbranch : Branch c b vs) (hw : t.kind.Word t.chars)
    (hfree : t.kind = .name → ¬ keywords .afterThen t.chars)
    (hs : (r.finish (.conditional pos c b none)).stepStatement t = some r') :
    Holds r' (ws ++ vs ++ [t.chars]) := by
  let n := Node.conditional pos c b none
  have hn : Statement keywords (spotIn r.items r.blocks) n.bare vs := by
    obtain ⟨hc, hbody⟩ := hbranch
    exact .conditional hc hbody
  have haround := around_finish h (fun h => absurd h hb) (fun _ => hn)
  have hblocks : (r.finish n).blocks ≠ [] :=
    fun h => hb ((blocks_finish_eq_nil_iff r n).1 h)
  refine holds_stepStatement haround hblocks hw ?_ hs
  rw [spotIn_finish_statement hb]
  exact hfree

/-- With a token the words of a reading grow by the word of the token. -/
theorem holds_step {r r' : Reading} {t : Token} {ws : List (List Char)} (h : Holds r ws)
    (hw : t.kind.Word t.chars) (hfree : t.kind = .name ∨ t.kind = .reference →
      ∀ k, (k, t.chars) ∈ TokenKind.keywords → r.place.allows k = false)
    (hs : r.step t = some r') (hflaw : r'.flaw = none) : Holds r' (ws ++ [t.chars]) := by
  obtain ⟨before, since, haround, hsince, rfl⟩ := h
  have hname : ∀ spot, r.place.At spot → t.kind = .name → ¬ keywords spot t.chars :=
    fun spot hat hk => (hat.free_iff t.chars).1 (hfree (.inl hk))
  obtain ⟨k, w, start⟩ := t
  generalize hplace : r.place = place at hsince
  unfold Reading.step at hs
  simp only [hplace] at hs hname
  cases hsince with
  | item hinner hspot =>
    have hb : r.blocks = [] := Classical.not_not.1 hinner
    rw [List.append_nil]
    refine holds_stepItem haround hb hw ?_ hs
    rw [hspot]
    exact hname _ .item
  | afterAssignment hstatement hitem =>
    rw [List.append_nil]
    by_cases hb : r.blocks = []
    · rw [if_pos (List.isEmpty_iff.2 hb)] at hs
      refine holds_stepItem haround hb hw ?_ hs
      rw [hitem fun h => h hb]
      exact hname _ .afterAssignment
    · rw [if_neg fun h => hb (List.isEmpty_iff.1 h)] at hs
      refine holds_stepStatement haround hb hw ?_ hs
      rw [hstatement hb]
      exact hname _ .afterInnerAssignment
  | @named name hinner hisName hfreeName =>
    dsimp only at hs
    split at hs
    · obtain rfl := Option.some.inj hs
      obtain rfl : w = [':', '='] := hw
      rw [List.append_assoc]
      exact holds_goal haround (.assignment hisName hfreeName)
    · have hfront : Front (spotIn r.items r.blocks)
          [Node.selector name.position .tag name.text].reverse [name.chars] := by
        refine ⟨.one (.tag hisName), ?_⟩
        rintro _ ⟨⟩
        exact hfreeName
      exact holds_stepAfterSelector haround (Classical.not_not.1 hinner) hfront hw hs
  | @selector selectors ws hinner hfront =>
    obtain ⟨n, hn, rfl⟩ := Option.map_eq_some_iff.1 hs
    have hfront' := hfront.snoc (selector_of_token hw hn)
    rw [← List.reverse_cons] at hfront'
    exact ⟨before, _, haround, .afterSelector hinner hfront', by simp⟩
  | afterSelector hinner hfront =>
    exact holds_stepAfterSelector haround (Classical.not_not.1 hinner) hfront hw hs
  | statement hinner hspot =>
    rw [List.append_nil]
    refine holds_stepStatement haround hinner hw ?_ hs
    rw [hspot]
    exact hname _ .statement
  | label hinner hisName hfreeName =>
    dsimp only at hs
    split at hs
    · obtain rfl := Option.some.inj hs
      obtain rfl : w = [':', '='] := hw
      rw [List.append_assoc]
      exact holds_goal haround (.assignment hisName hfreeName)
    · obtain rfl := Option.some.inj hs
      obtain rfl : w = [':'] := hw
      rw [List.append_assoc]
      exact holds_goal haround (.declaration hinner hisName hfreeName)
    · cases hs
  | condition hinner =>
    dsimp only at hs
    split at hs
    · obtain rfl := Option.some.inj hs
      obtain rfl : w = ['['] := hw
      rw [List.append_assoc]
      exact holds_goal haround (.square hinner)
    · obtain rfl := Option.some.inj hs
      obtain rfl : w = ['('] := hw
      rw [List.append_assoc]
      exact holds_goal haround (.round hinner)
    · cases hs
  | operand hlead hsum hfactor =>
    obtain ⟨a, ha, rfl⟩ := Option.map_eq_some_iff.1 hs
    have hat : r.place.At .operand := by
      rw [hplace]
      exact .operand
    have hatom := atom_of_token hw (fun hk => (hat.free_iff _).1 (hfree (.inr hk))) ha
      (Option.or_eq_none_iff.1 hflaw).2
    exact ⟨before, _, haround, .operator hlead hsum (hfactor.product hatom), by simp⟩
  | operator hlead hsum hp => exact holds_stepOperator haround hlead hsum hp hw hs hflaw
  | thenBlock hinner hc =>
    dsimp only at hs
    split at hs
    · next hk =>
      obtain rfl := Option.some.inj hs
      rw [hk] at hw
      obtain rfl : w = ['{'] := hw
      rw [List.append_assoc]
      exact holds_openBlock haround (.thenBranch hinner hc)
    · cases hs
  | afterThen hinner hbranch =>
    dsimp only at hs
    split at hs
    · obtain rfl := Option.some.inj hs
      obtain rfl : w = ['e', 'l', 's', 'e'] := hw
      rw [List.append_assoc]
      exact ⟨before, _, haround, .elseBlock hinner hbranch, rfl⟩
    · exact holds_stepAfterThen haround hinner hbranch hw (hname _ .afterThen) hs
  | elseBlock hinner hbranch =>
    dsimp only at hs
    split at hs
    · next hk =>
      obtain rfl := Option.some.inj hs
      rw [hk] at hw
      obtain rfl : w = ['{'] := hw
      rw [List.append_assoc, List.append_assoc]
      exact holds_openBlock haround (.elseBranch hinner hbranch)
    · cases hs

end StyleLang.Grammar
