import Mathlib.Data.List.Induction
import StyleLang.Proofs.Grammar.Correctness
import StyleLang.Proofs.Pass.Faults
import StyleLang.Proofs.Syntax.Grafting

/-!
# Replacing a part of a tree

The words of every part of a tree that is spelled stand together in the spelling, and what has the
role of the part in the grammar can be spelled there instead. Main statement: a text that is read
goes on being read when an expression in it is replaced by an atom, and the tree is the old one with
the atom grafted in.
-/

namespace StyleLang

namespace Node

/-- Grafting below a node that stands in a block does not change what may come after the node. -/
theorem spot_graft {n m : Node} {path : Path} (hpath : path ≠ []) :
    Spot.afterStatement (some (n.graft path m)) = Spot.afterStatement (some n) ∧
      Spot.afterItem (some (n.graft path m)) = Spot.afterItem (some n) := by
  cases path with
  | nil => exact absurd rfl hpath
  | cons step path =>
    cases n with
    | conditional pos c body elseBody => cases elseBody <;> cases step <;> exact ⟨rfl, rfl⟩
    | _ => cases step <;> exact ⟨rfl, rfl⟩

theorem alterAt_append_of_lt {f : Node → Option Node} {nodes : List Node} {i : Nat}
    (h : i < nodes.length) (rest : List Node) :
    alterAt f i (nodes ++ rest) = alterAt f i nodes ++ rest := by
  induction nodes generalizing i with
  | nil => exact absurd h (Nat.not_lt_zero i)
  | cons n ns ih =>
    cases i with
    | zero => exact (List.append_assoc _ _ _).symm
    | succ i => exact congrArg (n :: ·) (ih (Nat.lt_of_succ_lt_succ h))

theorem alterAt_length_append (f : Node → Option Node) (nodes rest : List Node) :
    alterAt f nodes.length (nodes ++ rest) = nodes ++ alterAt f 0 rest := by
  induction nodes with
  | nil => rfl
  | cons n ns ih => exact congrArg (n :: ·) ih

theorem PlacedExpression.bare : ∀ {n : Node}, n.PlacedExpression → n.bare.PlacedExpression
  | literal _ _, _ => trivial
  | reference _ _, _ => trivial
  | operation _ _ _ _, h => ⟨h.1.bare, h.2.bare⟩

theorem exists_append_of_getElem? {ns : List Node} {n : Node} {i : Nat} (h : ns[i]? = some n) :
    ∃ before after, ns = before ++ n :: after ∧ before.length = i := by
  obtain ⟨hi, rfl⟩ := List.getElem?_eq_some_iff.1 h
  refine ⟨ns.take i, ns.drop (i + 1), ?_, List.length_take_of_le (Nat.le_of_lt hi)⟩
  rw [← List.drop_eq_getElem_cons hi, List.take_append_drop]

end Node

namespace Grammar

variable {R : Reserve}

theorem Atom.placed {n : Node} {w : List Char} (h : Atom R n w) : n.PlacedExpression := by
  cases h <;> trivial

theorem Product.placed {n : Node} {ws : List (List Char)} (h : Product R n ws) :
    n.PlacedExpression := by
  induction h with
  | atom ha => exact ha.placed
  | times _ ha ih => exact ⟨ih, ha.placed⟩

theorem Expression.placed {n : Node} {ws : List (List Char)} (h : Expression R n ws) :
    n.PlacedExpression := by
  induction h with
  | product hp => exact hp.placed
  | plus _ hp ih => exact ⟨ih, hp.placed⟩
  | minus _ hp ih => exact ⟨ih, hp.placed⟩

theorem Atom.bare {n : Node} {w : List Char} (h : Atom R n w) : n.bare = n := by
  cases h <;> rfl

/-- An atom has no children. -/
theorem Atom.child? {n : Node} {w : List Char} (h : Atom R n w) (step : Step) :
    n.child? step = none := by
  cases h <;> cases step <;> rfl

/-! ## Roles -/

/-- What a node is in the grammar. -/
inductive Role where
  | sheet
  | item (spot : Spot)
  | statement (spot : Spot)
  | expression
  | product
  | atom

namespace Role

/-- The words are those of the node in the role. -/
def Words (R : Reserve) : Role → Node → List (List Char) → Prop
  | sheet, n, ws => ∃ ns, n = .sheet {} ns ∧ Items R ns ws
  | item spot, n, ws => Item R spot n ws
  | statement spot, n, ws => Statement R spot n ws
  | expression, n, ws => Expression R n ws
  | product, n, ws => Product R n ws
  | atom, n, ws => ∃ w, ws = [w] ∧ Atom R n w

/-- The roles that a node can have at the end of an edge. -/
def At : Role → Step → Prop
  | item _, .item _ => True
  | statement _, .body _ | statement _, .elseBody _ => True
  | expression, .expression | expression, .condition | expression, .lhs => True
  | product, .lhs | product, .rhs => True
  | atom, .rhs => True
  | _, _ => False

theorem eq_expression {role : Role} {step : Step} (h : role.At step)
    (hstep : step = .expression ∨ step = .condition) : role = expression := by
  rcases hstep with rfl | rfl <;> cases role <;> first | rfl | exact h.elim

end Role

/-- What may come after the one node may come after the other. -/
def Alike (n m : Node) : Prop :=
  Spot.afterStatement (some m) = Spot.afterStatement (some n) ∧
    Spot.afterItem (some m) = Spot.afterItem (some n)

theorem alike_of_placed {n m : Node} (hn : n.PlacedExpression) (hm : m.PlacedExpression) :
    Alike n m := by
  have hspot : ∀ {e : Node}, e.PlacedExpression →
      Spot.afterStatement (some e) = .statement ∧ Spot.afterItem (some e) = .item := by
    intro e he
    cases e <;> first | exact ⟨rfl, rfl⟩ | exact he.elim
  unfold Alike
  rw [(hspot hn).1, (hspot hn).2, (hspot hm).1, (hspot hm).2]
  exact ⟨rfl, rfl⟩

/-! ## Slots -/

/-- The words of the node in the role stand together among the words, and where they stand the words
of another node in the role may stand; `Q` says what is spelled then. -/
def Slot (R : Reserve) (role : Role) (n : Node) (ws : List (List Char))
    (Q : Node → List (List Char) → Prop) : Prop :=
  ∃ before us after, ws = before ++ us ++ after ∧ role.Words R n us ∧
    ∀ {m : Node} {vs : List (List Char)}, role.Words R m vs → Alike n m →
      Q m (before ++ vs ++ after)

/-- The part at the end of the edge is a selector, or it has a slot, and `P` says what is spelled
with another node for it. -/
def HasSlot (R : Reserve) (n part : Node) (step : Step) (ws : List (List Char))
    (P : Node → List (List Char) → Prop) : Prop :=
  (∃ i kind name, step = .selector i ∧ part = .selector {} kind name) ∨
    ∃ role : Role, role.At step ∧ Slot R role part ws fun m vs =>
      ∀ f : Node → Option Node, f part = some m → P (n.alter f step) vs

section Slots

variable {role : Role} {n part : Node} {ws : List (List Char)} {step : Step}
  {P P' Q Q' : Node → List (List Char) → Prop}

theorem Slot.whole (h : role.Words R n ws)
    (hQ : ∀ {m : Node} {vs : List (List Char)}, role.Words R m vs → Q m vs) :
    Slot R role n ws Q :=
  ⟨[], ws, [], by simp, h, fun hm _ => by simpa using hQ hm⟩

theorem Slot.mono (h : Slot R role n ws Q)
    (hQ : ∀ {m : Node} {vs : List (List Char)}, Q m vs → Q' m vs) : Slot R role n ws Q' := by
  obtain ⟨before, us, after, hws, hn, hother⟩ := h
  exact ⟨before, us, after, hws, hn, fun hm halike => hQ (hother hm halike)⟩

/-- Words around the words with a slot. -/
theorem Slot.within {ws' : List (List Char)} (h : Slot R role n ws Q)
    (left right : List (List Char)) (hws : ws' = left ++ ws ++ right)
    (hQ : ∀ {m : Node} {vs : List (List Char)}, Q m vs → Q' m (left ++ vs ++ right)) :
    Slot R role n ws' Q' := by
  obtain ⟨before, us, after, rfl, hn, hother⟩ := h
  refine ⟨left ++ before, us, after ++ right, by simp [hws], hn, fun hm halike => ?_⟩
  have hq := hQ (hother hm halike)
  simpa only [List.append_assoc] using hq

theorem HasSlot.mono (h : HasSlot R n part step ws P)
    (hP : ∀ {m : Node} {vs : List (List Char)}, P m vs → P' m vs) :
    HasSlot R n part step ws P' :=
  h.imp_right fun ⟨role, hrole, hslot⟩ => ⟨role, hrole, hslot.mono fun hp f hf => hP (hp f hf)⟩

theorem Product.slot (h : Product R n ws) : Slot R .product n ws (Product R) := .whole h id

theorem Expression.slot (h : Expression R n ws) : Slot R .expression n ws (Expression R) :=
  .whole h id

theorem Condition.slot (h : Condition R n ws) : Slot R .expression n ws (Condition R) := by
  cases h with
  | square hn => exact hn.slot.within [['[']] [[']']] rfl .square
  | round hn => exact hn.slot.within [['(']] [[')']] rfl .round

theorem Product.hasSlot (h : Product R n ws) (hpart : n.child? step = some part) :
    HasSlot R n part step ws (Product R) := by
  cases h with
  | atom ha =>
    rw [ha.child?] at hpart
    cases hpart
  | @times l r us w hl hr =>
    cases step with
    | lhs =>
      obtain rfl := Option.some.inj hpart
      exact .inr ⟨.product, trivial, hl.slot.within [] [['*'], w] rfl fun hm f hf => by
        simpa [Node.alter, hf] using Product.times hm hr⟩
    | rhs =>
      obtain rfl := Option.some.inj hpart
      have hslot : Slot R .atom r [w] fun m vs => ∃ v, vs = [v] ∧ Atom R m v :=
        .whole ⟨w, rfl, hr⟩ id
      refine .inr ⟨.atom, trivial, hslot.within (us ++ [['*']]) [] (by simp) ?_⟩
      rintro m _ ⟨v, rfl, hm⟩ f hf
      simpa [Node.alter, hf] using Product.times hl hm
    | _ => cases hpart

theorem Expression.hasSlot (h : Expression R n ws) (hpart : n.child? step = some part) :
    HasSlot R n part step ws (Expression R) := by
  -- a sum and a difference differ in their sign only
  have hsum : ∀ {op : Operator} {sign : List Char} {l r : Node} {us vs : List (List Char)},
      (∀ {l r : Node} {us vs : List (List Char)}, Expression R l us → Product R r vs →
        Expression R (.operation {} op l r) (us ++ sign :: vs)) →
      Expression R l us → Product R r vs → (Node.operation {} op l r).child? step = some part →
      HasSlot R (.operation {} op l r) part step (us ++ sign :: vs) (Expression R) := by
    intro op sign l r us vs hop hl hr hpart
    cases step with
    | lhs =>
      obtain rfl := Option.some.inj hpart
      exact .inr ⟨.expression, trivial, hl.slot.within [] (sign :: vs) rfl fun hm f hf => by
        simpa [Node.alter, hf] using hop hm hr⟩
    | rhs =>
      obtain rfl := Option.some.inj hpart
      exact .inr ⟨.product, trivial, hr.slot.within (us ++ [sign]) [] (by simp) fun hm f hf => by
        simpa [Node.alter, hf] using hop hl hm⟩
    | _ => cases hpart
  cases h with
  | product hp => exact (hp.hasSlot hpart).mono .product
  | plus hl hr => exact hsum .plus hl hr hpart
  | minus hl hr => exact hsum .minus hl hr hpart

theorem Assignment.hasSlot {spot : Spot} (h : Assignment R spot n ws)
    (hpart : n.child? step = some part) : HasSlot R n part step ws (Assignment R spot) := by
  cases h with
  | @mk w e us hw hfree he =>
    cases step with
    | expression =>
      obtain rfl := Option.some.inj hpart
      exact .inr ⟨.expression, trivial, he.slot.within [w, [':', '=']] [[';']] (by simp)
        fun hm f hf => by simpa [Node.alter, hf] using Assignment.mk hw hfree hm⟩
    | _ => cases hpart

/-- In a list that is spelled from its front, where the spot of a member depends on the one before
it, every member has a slot. -/
theorem slot_of_member {B : List Node → List (List Char) → Prop} (role : Spot → Role)
    {after : Option Node → Spot}
    (hlast : ∀ {ns : List Node} {n : Node} {ws : List (List Char)}, B (ns ++ [n]) ws →
      ∃ us vs, ws = us ++ vs ∧ B ns us ∧ (role (after ns.getLast?)).Words R n vs)
    (hsnoc : ∀ {ns : List Node} {n : Node} {us vs : List (List Char)}, B ns us →
      (role (after ns.getLast?)).Words R n vs → B (ns ++ [n]) (us ++ vs))
    (halike : ∀ {n m : Node}, Alike n m → after (some m) = after (some n))
    {ns : List Node} {ws : List (List Char)} {i : Nat} (h : B ns ws) (hpart : ns[i]? = some part) :
    ∃ spot, Slot R (role spot) part ws fun m vs =>
      ∀ f : Node → Option Node, f part = some m → B (Node.alterAt f i ns) vs := by
  obtain ⟨xs, ys, rfl, rfl⟩ := Node.exists_append_of_getElem? hpart
  have hslot : Slot R (role (after xs.getLast?)) part ws fun m vs => B (xs ++ m :: ys) vs := by
    clear hpart
    induction ys using List.reverseRecOn generalizing ws with
    | nil =>
      obtain ⟨us, vs, rfl, hxs, hn⟩ := hlast h
      exact ⟨us, vs, [], by simp, hn, fun hm _ => by simpa using hsnoc hxs hm⟩
    | append_singleton ys y ih =>
      rw [← List.cons_append, ← List.append_assoc] at h
      obtain ⟨us, vs, rfl, hxs, hy⟩ := hlast h
      obtain ⟨before, mid, rest, rfl, hn, hother⟩ := ih hxs
      refine ⟨before, mid, rest ++ vs, by simp, hn, fun {m us} hm hnm => ?_⟩
      have hspot : after (xs ++ part :: ys).getLast? = after (xs ++ m :: ys).getLast? := by
        cases ys with
        | nil => simp [halike hnm]
        | cons z zs => simp [List.getLast?_append, List.getLast?_cons_cons]
      rw [hspot] at hy
      have hlonger := hsnoc (hother hm hnm) hy
      rwa [List.append_assoc, List.cons_append, List.append_assoc] at hlonger
  refine ⟨_, hslot.mono fun hB f hf => ?_⟩
  rw [Node.alterAt_length_append, Node.alterAt, hf]
  exact hB

theorem Body.slot {ns : List Node} {i : Nat} (h : Body R ns ws) (hpart : ns[i]? = some part) :
    ∃ spot, Slot R (.statement spot) part ws fun m vs =>
      ∀ f : Node → Option Node, f part = some m → Body R (Node.alterAt f i ns) vs :=
  slot_of_member .statement Body.last .snoc (fun h => h.1) h hpart

theorem Items.slot {ns : List Node} {i : Nat} (h : Items R ns ws) (hpart : ns[i]? = some part) :
    ∃ spot, Slot R (.item spot) part ws fun m vs =>
      ∀ f : Node → Option Node, f part = some m → Items R (Node.alterAt f i ns) vs :=
  slot_of_member .item Items.last .snoc (fun h => h.2) h hpart

theorem Statement.hasSlot {spot : Spot} (h : Statement R spot n ws)
    (hpart : n.child? step = some part) : HasSlot R n part step ws (Statement R spot) := by
  cases h with
  | assignment ha => exact (ha.hasSlot hpart).mono .assignment
  | @declaration _ w e us hw hfree he =>
    cases step with
    | expression =>
      obtain rfl := Option.some.inj hpart
      exact .inr ⟨.expression, trivial, he.slot.within [w, [':']] [[';']] (by simp)
        fun hm f hf => by simpa [Node.alter, hf] using Statement.declaration hw hfree hm⟩
    | _ => cases hpart
  | @conditional _ c b cs bs hc hb =>
    cases step with
    | condition =>
      obtain rfl := Option.some.inj hpart
      exact .inr ⟨.expression, trivial,
        hc.slot.within [['i', 'f']] (['{'] :: (bs ++ [['}']])) (by simp)
          fun hm f hf => by simpa [Node.alter, hf] using Statement.conditional hm hb⟩
    | body i =>
      obtain ⟨spot', hslot⟩ := hb.slot hpart
      exact .inr ⟨.statement spot', trivial,
        hslot.within (['i', 'f'] :: (cs ++ [['{']])) [['}']] (by simp)
          fun hm f hf => by simpa [Node.alter] using Statement.conditional hc (hm f hf)⟩
    | _ => cases hpart
  | @branching _ c b es cs bs vs hc hb hes =>
    cases step with
    | condition =>
      obtain rfl := Option.some.inj hpart
      exact .inr ⟨.expression, trivial,
        hc.slot.within [['i', 'f']]
          (['{'] :: (bs ++ ['}'] :: ['e', 'l', 's', 'e'] :: ['{'] :: (vs ++ [['}']]))) (by simp)
          fun hm f hf => by simpa [Node.alter, hf] using Statement.branching hm hb hes⟩
    | body i =>
      obtain ⟨spot', hslot⟩ := hb.slot hpart
      exact .inr ⟨.statement spot', trivial,
        hslot.within (['i', 'f'] :: (cs ++ [['{']]))
          (['}'] :: ['e', 'l', 's', 'e'] :: ['{'] :: (vs ++ [['}']])) (by simp)
          fun hm f hf => by simpa [Node.alter] using Statement.branching hc (hm f hf) hes⟩
    | elseBody i =>
      obtain ⟨spot', hslot⟩ := hes.slot hpart
      exact .inr ⟨.statement spot', trivial,
        hslot.within
          (['i', 'f'] :: (cs ++ ['{'] :: (bs ++ [['}'], ['e', 'l', 's', 'e'], ['{']]))) [['}']]
          (by simp) fun hm f hf => by
            simpa [Node.alter] using Statement.branching hc hb (hm f hf)⟩
    | _ => cases hpart

theorem Item.hasSlot {spot : Spot} (h : Item R spot n ws) (hpart : n.child? step = some part) :
    HasSlot R n part step ws (Item R spot) := by
  cases h with
  | assignment ha => exact (ha.hasSlot hpart).mono .assignment
  | @rule ss b us bs hs hfree hb =>
    cases step with
    | selector i =>
      obtain ⟨kind, name, rfl⟩ := hs.isSelector (List.mem_of_getElem? hpart)
      exact .inl ⟨i, kind, name, rfl, rfl⟩
    | body i =>
      obtain ⟨spot', hslot⟩ := hb.slot hpart
      exact .inr ⟨.statement spot', trivial, hslot.within (us ++ [['{']]) [['}']] (by simp)
        fun hm f hf => by simpa [Node.alter] using Item.rule hs hfree (hm f hf)⟩
    | _ => cases hpart

end Slots

namespace Role.Words

variable {role : Role} {n e part : Node} {ws : List (List Char)} {step : Step} {path : Path}

/-- One edge down. -/
theorem hasSlot (h : role.Words R n ws) (hpart : n.child? step = some part) :
    HasSlot R n part step ws (role.Words R) := by
  cases role with
  | sheet =>
    obtain ⟨ns, rfl, hitems⟩ := h
    cases step with
    | item i =>
      obtain ⟨spot, hslot⟩ := hitems.slot hpart
      exact .inr ⟨.item spot, trivial, hslot.mono fun hm f hf => ⟨_, rfl, hm f hf⟩⟩
    | _ => cases hpart
  | item spot => exact Item.hasSlot h hpart
  | statement spot => exact Statement.hasSlot h hpart
  | expression => exact Expression.hasSlot h hpart
  | product => exact Product.hasSlot h hpart
  | atom =>
    obtain ⟨w, rfl, ha⟩ := h
    rw [ha.child?] at hpart
    cases hpart

/-- At the end of any path there is a selector, or a node with a slot. -/
theorem slot (h : role.Words R n ws) (hat : n.at? path = some e) :
    (∃ i kind name, path.getLast? = some (.selector i) ∧ e = .selector {} kind name) ∨
      ∃ role' : Role, (∀ step, path.getLast? = some step → role'.At step) ∧
        Slot R role' e ws fun m => role.Words R (n.graft path m) := by
  induction path generalizing role n ws with
  | nil =>
    obtain rfl := Option.some.inj hat
    refine .inr ⟨role, ?_, Slot.whole h id⟩
    intro step hstep
    cases hstep
  | cons step path ih =>
    obtain ⟨part, hpart, hat⟩ := Option.bind_eq_some_iff.1 hat
    rcases h.hasSlot hpart with ⟨i, kind, name, rfl, rfl⟩ | ⟨role₁, hrole₁, hslot⟩
    · cases path with
      | nil =>
        obtain rfl := Option.some.inj hat
        exact .inl ⟨i, kind, name, rfl, rfl⟩
      | cons step' path => cases step' <;> cases hat
    · obtain ⟨before, us, after, rfl, hus, hother⟩ := hslot
      cases path with
      | nil =>
        obtain rfl := Option.some.inj hat
        refine .inr ⟨role₁, fun step' hstep' => ?_, before, us, after, rfl, hus, ?_⟩
        · obtain rfl := Option.some.inj hstep'
          exact hrole₁
        · exact fun hm halike => hother hm halike _ rfl
      | cons step' path =>
        rw [List.getLast?_cons_cons]
        refine (ih hus hat).imp_right fun ⟨role', hrole', hinner⟩ => ⟨role', hrole', ?_⟩
        exact hinner.within before after rfl fun hm =>
          hother hm (Node.spot_graft (List.cons_ne_nil step' path)) _ rfl

/-- An expression has the role of one, and an atom may have its role. -/
theorem of_placed (h : role.Words R n ws) (hn : n.PlacedExpression) :
    Expression R n ws ∧ ∀ {m : Node} {w : List Char}, Atom R m w → role.Words R m [w] := by
  cases role with
  | sheet =>
    obtain ⟨ns, rfl, -⟩ := h
    exact hn.elim
  | item spot =>
    cases h with
    | assignment ha =>
      cases ha
      exact hn.elim
    | rule => exact hn.elim
  | statement spot =>
    cases h with
    | assignment ha =>
      cases ha
      exact hn.elim
    | _ => exact hn.elim
  | expression => exact ⟨h, fun hm => .product (.atom hm)⟩
  | product => exact ⟨.product h, .atom⟩
  | atom =>
    obtain ⟨w, rfl, ha⟩ := h
    exact ⟨.product (.atom ha), fun hm => ⟨_, rfl, hm⟩⟩

end Role.Words

end Grammar

/-! ## Names -/

/-- The node names a variable or a property, if it does so, in the letters of the grammar. -/
def Node.Worded : Node → Prop
  | reference _ name => IsVariable name.toList
  | assignment _ name _ => IsVariable name.toList
  | declaration _ property _ => IsName property.toList
  | _ => True

theorem Node.worded_bare {n : Node} : n.bare.Worded ↔ n.Worded := by
  cases n <;> exact Iff.rfl

namespace Grammar

section Names

variable {n : Node} {ws : List (List Char)}

theorem Atom.worded {w : List Char} (h : Atom R n w) : n.Worded := by
  cases h with
  | reference hw _ =>
    rw [Node.Worded, String.toList_ofList]
    exact hw
  | _ => trivial

theorem Product.worded (h : Product R n ws) : n.Worded := by
  cases h with
  | atom ha => exact ha.worded
  | times => trivial

theorem Expression.worded (h : Expression R n ws) : n.Worded := by
  cases h with
  | product hp => exact hp.worded
  | plus | minus => trivial

theorem Assignment.worded {spot : Spot} (h : Assignment R spot n ws) : n.Worded := by
  cases h with
  | mk hw _ _ =>
    rw [Node.Worded, String.toList_ofList]
    exact hw

theorem Role.Words.worded {role : Role} (h : role.Words R n ws) : n.Worded := by
  cases role with
  | sheet =>
    obtain ⟨ns, rfl, -⟩ := h
    trivial
  | item spot =>
    cases h with
    | assignment ha => exact ha.worded
    | rule => trivial
  | statement spot =>
    cases h with
    | assignment ha => exact ha.worded
    | declaration hw _ _ =>
      rw [Node.Worded, String.toList_ofList]
      exact hw
    | conditional | branching => trivial
  | expression => exact Expression.worded h
  | product => exact Product.worded h
  | atom =>
    obtain ⟨w, -, ha⟩ := h
    exact ha.worded

end Names

end Grammar

/-! ## Whole texts -/

namespace Stylesheet

open Grammar

/-- The tree with another node at the end of the path. -/
def graft (sheet : Stylesheet) : Path → Node → Stylesheet
  | .item i :: path, m =>
    { sheet with items := Node.alterAt (fun n => some (n.graft path m)) i sheet.items }
  | _, _ => sheet

variable {text : String} {sheet : Stylesheet} {path : Path}

/-- Below the root there are the items. -/
theorem at?_toNode {n : Node} (h : sheet.toNode.at? path = some n) :
    n = sheet.toNode ∨ ∃ i rest, path = .item i :: rest ∧
      (sheet.items[i]?.bind fun n => n.at? rest) = some n := by
  cases path with
  | nil => exact .inl (Option.some.inj h).symm
  | cons step path =>
    cases step with
    | item i => exact .inr ⟨i, path, rfl, h⟩
    | _ => cases h

theorem toNode_graft {old : Node} (h : sheet.toNode.at? path = some old)
    (hne : old ≠ sheet.toNode) (m : Node) :
    (sheet.graft path m).toNode = sheet.toNode.graft path m := by
  obtain ⟨i, rest, rfl, -⟩ := (at?_toNode h).resolve_left hne
  rfl

/-- Wherever a part other than a selector stands in a text that is read, the words of another one
in its role may stand, and then the tree is read with the other part in it. -/
theorem parse_slot {e : Node} (h : Stylesheet.parse text = .ok sheet)
    (hat : sheet.toNode.at? path = some e) :
    (∃ i kind name, path.getLast? = some (.selector i) ∧ e.bare = .selector {} kind name) ∨
      ∃ (role : Role) (before words after : List (List Char)),
        Spelled (before ++ words ++ after) text.toList ∧
        (∀ step, path.getLast? = some step → role.At step) ∧
        role.Words .keywords e.bare words ∧
        (e ≠ sheet.toNode → ∀ {text' : String} {m : Node} {vs : List (List Char)},
          role.Words .keywords m.bare vs → Alike e.bare m.bare →
          Spelled (before ++ vs ++ after) text'.toList →
          ∃ read, Stylesheet.parse text' = .ok read ∧
            read.toNode.same (sheet.graft path m).toNode = true) := by
  obtain ⟨ws, body, gap, hitems, hbody, hgap, htext⟩ := spells_of_parse h
  have hroot : Role.sheet.Words .keywords sheet.toNode.bare ws := ⟨_, rfl, hitems⟩
  have hbare : sheet.toNode.bare.at? path = some e.bare :=
    (Node.at?_bare _ _).trans (congrArg (Option.map Node.bare) hat)
  refine (hroot.slot hbare).imp_right ?_
  rintro ⟨role, hrole, before, words, after, rfl, hwords, hother⟩
  refine ⟨role, before, words, after, ⟨body, gap, hbody, hgap, htext⟩, hrole, hwords, ?_⟩
  rintro hne text' m vs hm halike ⟨body', gap', hbody', hgap', htext'⟩
  have hnew : Role.sheet.Words .keywords (sheet.toNode.bare.graft path m.bare) _ :=
    hother hm halike
  rw [← Node.bare_graft, ← toNode_graft hat hne] at hnew
  obtain ⟨ns, hns, hitems'⟩ := hnew
  obtain rfl := (Node.sheet.inj hns).2
  exact parse_of_spells ⟨_, body', gap', hitems', hbody', hgap', htext'⟩

/-- Wherever a text that is read names a variable or a property, it does so in the letters of the
grammar. -/
theorem worded_of_parse {n : Node} (h : Stylesheet.parse text = .ok sheet)
    (hat : sheet.toNode.at? path = some n) : n.Worded := by
  refine Node.worded_bare.1 ?_
  rcases parse_slot h hat with ⟨i, kind, name, -, hn⟩ | ⟨role, before, words, after, -, -, hn, -⟩
  · rw [hn]
    trivial
  · exact hn.worded

/-- The variables of a text that is read have names that a reference could have, as far as letters
go. -/
theorem isVariable_of_parse {pos : Position} {name : String} {e : Node}
    (h : Stylesheet.parse text = .ok sheet)
    (hat : sheet.toNode.at? path = some (.assignment pos name e)) : IsVariable name.toList :=
  worded_of_parse h hat

/-- Wherever an expression stands in a text that is read, the word of an atom may stand, and then
the tree is read with the atom in it. -/
theorem parse_graft {e : Node} (h : Stylesheet.parse text = .ok sheet)
    (hat : sheet.toNode.at? path = some e) (he : e.PlacedExpression) :
    ∃ before words after, Spelled (before ++ words ++ after) text.toList ∧
      Expression .keywords e.bare words ∧
      ∀ {text' : String} {m : Node} {w : List Char}, Atom .keywords m w →
        Spelled (before ++ w :: after) text'.toList → ∃ read, Stylesheet.parse text' = .ok read ∧
          read.toNode.same (sheet.graft path m).toNode = true := by
  have hne : e ≠ sheet.toNode := by
    rintro rfl
    exact he
  rcases parse_slot h hat with
    ⟨i, kind, name, -, hsel⟩ | ⟨role, before, words, after, htext, -, hwords, hother⟩
  · have hbare := he.bare
    rw [hsel] at hbare
    exact hbare.elim
  · obtain ⟨hexpression, hatom⟩ := hwords.of_placed he.bare
    refine ⟨before, words, after, htext, hexpression, fun {text' m w} hm htext' => ?_⟩
    have hword : role.Words .keywords m.bare [w] := by
      rw [hm.bare]
      exact hatom hm
    refine hother hne hword (alike_of_placed he.bare hm.placed.bare) ?_
    rwa [List.append_assoc]

end Stylesheet

end StyleLang
