import StyleLang.Proofs.Grammar.Deriving
import StyleLang.Proofs.Grammar.Prefixes
import StyleLang.Proofs.Syntax.Widths

/-!
# Where nodes stand

Every node of a tree that is read stands where the first of its tokens starts, and its tokens are
found by counting. Main statement: for every source that is read, each node but the root of a tree
without items has the line and the column of its first token, so siblings stand in the order of the
text and no node starts before the one that holds it.
-/

namespace StyleLang

/-- The token is the one that the node starts with: a node of one token is read from it, a statement
starts with its name or with an `if`, and everything else with the first of its parts. -/
def Node.OpensWith : Node → Token → Prop
  | selector pos kind name, t => t.selector? = some (.selector pos kind name)
  | literal pos value, t => t.operand? = some (.literal pos value)
  | reference pos name, t => t.operand? = some (.reference pos name)
  | operation _ _ lhs _, t => lhs.OpensWith t
  | declaration _ property _, t => t.kind = .name ∧ t.text = property
  | assignment _ name _, t => t.kind = .name ∧ t.text = name
  | conditional _ _ _ _, t => t.kind = .ifWord
  | rule _ [] _, _ => False
  | rule _ (s :: _) _, t => s.OpensWith t
  | sheet _ [], _ => False
  | sheet _ (n :: _), t => n.OpensWith t

namespace Derived

open Node (widthAll)

/-- The tokens are derived as the node, whatever its kind is. -/
inductive Phrase : Node → List Token → Prop where
  | selector {n : Node} {t : Token} : Selector n t → Phrase n [t]
  | expression {n : Node} {ts : List Token} : Expression n ts → Phrase n ts
  | statement {spot : Spot} {n : Node} {ts : List Token} : Statement spot n ts → Phrase n ts
  | item {spot : Spot} {n : Node} {ts : List Token} : Item spot n ts → Phrase n ts
  | sheet {n : Node} {ns : List Node} {ts : List Token} : Items (n :: ns) ts →
    Phrase (.sheet n.position (n :: ns)) ts

/-! ## How many tokens -/

theorem Atom.width {n : Node} {t : Token} (h : Atom n t) : n.width = 1 := by
  have hnode := h.node
  unfold Token.operand? at hnode
  split at hnode <;> cases hnode <;> rfl

theorem Product.width {n : Node} {ts : List Token} (h : Product n ts) : ts.length = n.width := by
  induction h with
  | atom ha => exact ha.width.symm
  | times _ _ ha ih =>
    rw [Node.width, ha.width, List.length_append, ih]
    rfl

theorem Expression.width {n : Node} {ts : List Token} (h : Expression n ts) :
    ts.length = n.width := by
  induction h with
  | product hp => exact hp.width
  | sum _ _ _ hp ih =>
    rw [Node.width, List.length_append, List.length_cons, ih, hp.width]
    omega

theorem Condition.width {c : Node} {ts : List Token} (h : Condition c ts) :
    ts.length = c.width + 2 := by
  cases h with
  | mk _ he _ => simp [he.width]

theorem Braced.length {ts us : List Token} (h : Braced ts us) : us.length = ts.length + 2 := by
  cases h with
  | mk _ _ => simp

theorem Assignment.width {spot : Spot} {n : Node} {ts : List Token} (h : Assignment spot n ts) :
    ts.length = n.width := by
  cases h with
  | mk _ _ he _ =>
    simp only [Node.width, List.length_cons, List.length_append, List.length_nil, he.width]
    omega

mutual

theorem Statement.width {spot : Spot} {n : Node} {ts : List Token} (h : Statement spot n ts) :
    ts.length = n.width := by
  match h with
  | .assignment ha => exact ha.width
  | .declaration _ _ he _ =>
    simp only [Node.width, List.length_cons, List.length_append, List.length_nil, he.width]
    omega
  | .conditional _ hc hb hbraced =>
    have hbody := Body.width hb
    simp only [Node.width, List.length_cons, List.length_append, hc.width, hbraced.length, hbody]
    omega
  | .branching _ hc hb hbraced _ he hbraced' =>
    have hbody := Body.width hb
    have hother := Body.width he
    simp only [Node.width, List.length_cons, List.length_append, hc.width, hbraced.length,
      hbraced'.length, hbody, hother]
    omega

theorem Body.width {ns : List Node} {ts : List Token} (h : Body ns ts) :
    ts.length = widthAll ns := by
  match h with
  | .nil => rfl
  | .snoc hb hn =>
    have hbody := Body.width hb
    have hlast := Statement.width hn
    simp only [List.length_append, hbody, hlast, Node.widthAll_append, Node.widthAll_cons,
      Node.widthAll_nil, Nat.add_zero]

end

theorem Selector.width {n : Node} {t : Token} (h : Selector n t) : n.width = 1 := by
  have hnode := h.node
  unfold Token.selector? at hnode
  split at hnode <;> cases hnode <;> rfl

/-- Of the tokens of some selectors all but the first have a comma before them. -/
theorem Selectors.width {ns : List Node} {ts : List Token} (h : Selectors ns ts) :
    ts.length + 1 = widthAll ns + ns.length := by
  induction h with
  | one hn => simp [hn.width]
  | snoc _ _ hn ih =>
    simp only [List.length_append, Node.widthAll_append, Node.widthAll_cons, Node.widthAll_nil,
      hn.width, List.length_cons, List.length_nil]
    omega

theorem Item.width {spot : Spot} {n : Node} {ts : List Token} (h : Item spot n ts) :
    ts.length = n.width := by
  cases h with
  | assignment ha => exact ha.width
  | rule hfront hb hbraced =>
    have hselectors := hfront.tokens.width
    simp only [Node.width, List.length_append, hbraced.length, hb.width, List.length_cons] at *
    omega

theorem Items.width {ns : List Node} {ts : List Token} (h : Items ns ts) :
    ts.length = widthAll ns := by
  induction h with
  | nil => rfl
  | snoc _ hn ih =>
    simp only [List.length_append, ih, hn.width, Node.widthAll_append, Node.widthAll_cons,
      Node.widthAll_nil, Nat.add_zero]

theorem Phrase.width {n : Node} {ts : List Token} (h : Phrase n ts) : ts.length = n.width := by
  cases h with
  | selector hn => exact hn.width.symm
  | expression he => exact he.width
  | statement hn => exact hn.width
  | item hn => exact hn.width
  | sheet hitems => exact hitems.width

/-! ## The tokens of a node among those of another -/

/-- The tokens are among others, with so many before them. -/
def Part (ts : List Token) (k : Nat) (own : List Token) : Prop :=
  ∃ before after, ts = before ++ (own ++ after) ∧ before.length = k

namespace Part

variable {ts us own : List Token} {k l : Nat}

theorem all (ts : List Token) : Part ts 0 ts := ⟨[], [], by simp, rfl⟩

theorem trans (h : Part ts k us) (h' : Part us l own) : Part ts (k + l) own := by
  obtain ⟨before, after, rfl, rfl⟩ := h
  obtain ⟨before', after', rfl, rfl⟩ := h'
  exact ⟨before ++ before', after' ++ after, by simp, by simp⟩

theorem within (h : Part ts k own) (before after : List Token) (hus : us = before ++ (ts ++ after))
    (hl : l = before.length + k) : Part us l own := by
  subst hus hl
  exact trans ⟨before, after, rfl, rfl⟩ h

theorem getElem? {t : Token} (h : Part ts k (t :: own)) : ts[k]? = some t := by
  obtain ⟨before, after, rfl, rfl⟩ := h
  simp

end Part

/-- A node in a list has its tokens among those of the list, if the list before its last node is
like that. Between the nodes there may be tokens that belong to none of them: `extra` says how many
of these come before a node. -/
theorem exists_part_concat {ns : List Node} {n m : Node} {ts between us : List Token} {i : Nat}
    (extra : Nat → Nat)
    (hwidth : ts.length + between.length = widthAll ns + extra ns.length) (hn : Phrase n us)
    (hinit : ns[i]? = some m →
      ∃ own, Phrase m own ∧ Part ts (widthAll (ns.take i) + extra i) own)
    (hm : (ns ++ [n])[i]? = some m) : ∃ own, Phrase m own ∧
      Part (ts ++ (between ++ us)) (widthAll ((ns ++ [n]).take i) + extra i) own := by
  by_cases hi : i < ns.length
  · rw [List.getElem?_append_left hi] at hm
    rw [List.take_append_of_le_length (Nat.le_of_lt hi)]
    obtain ⟨own, hown, hpart⟩ := hinit hm
    exact ⟨own, hown, hpart.within [] (between ++ us) rfl (Nat.zero_add _).symm⟩
  · rw [List.getElem?_append_right (Nat.le_of_not_lt hi), List.getElem?_singleton] at hm
    split at hm
    · next hlast =>
      obtain rfl := Option.some.inj hm
      obtain rfl : i = ns.length := by omega
      rw [List.take_left, ← hwidth]
      exact ⟨us, hn, ts ++ between, [], by simp, by simp⟩
    · cases hm

theorem Body.part {ns : List Node} {ts : List Token} (h : Body ns ts) {i : Nat} {m : Node}
    (hm : ns[i]? = some m) : ∃ own, Phrase m own ∧ Part ts (widthAll (ns.take i)) own := by
  match h with
  | .nil => cases hm
  | .snoc hb hn =>
    exact @exists_part_concat _ _ _ _ [] _ _ (fun _ => 0) hb.width (.statement hn) (Body.part hb) hm

theorem Items.part {ns : List Node} {ts : List Token} (h : Items ns ts) {i : Nat} {m : Node}
    (hm : ns[i]? = some m) : ∃ own, Phrase m own ∧ Part ts (widthAll (ns.take i)) own := by
  induction h with
  | nil => cases hm
  | snoc hns hn ih =>
    exact @exists_part_concat _ _ _ _ [] _ _ (fun _ => 0) hns.width (.item hn) ih hm

/-- Before a selector there is also a comma for each selector before it. -/
theorem Selectors.part {ns : List Node} {ts : List Token} (h : Selectors ns ts) {i : Nat} {m : Node}
    (hm : ns[i]? = some m) : ∃ own, Phrase m own ∧ Part ts (widthAll (ns.take i) + i) own := by
  induction h with
  | @one n t hn =>
    rw [List.getElem?_singleton] at hm
    split at hm
    · next hi =>
      obtain rfl := Option.some.inj hm
      obtain rfl := hi
      exact ⟨[t], .selector hn, .all [t]⟩
    · cases hm
  | @snoc ns n ts comma t hns _ hn ih =>
    exact @exists_part_concat _ _ _ _ [comma] _ _ id hns.width (.selector hn) ih hm

theorem Expression.child {n m : Node} {step : Step} {ts : List Token} (h : Expression n ts)
    (hm : n.child? step = some m) : ∃ own, Phrase m own ∧ Part ts (n.lead step) own := by
  cases h with
  | product hp =>
    cases hp with
    | atom ha =>
      have hnode := ha.node
      unfold Token.operand? at hnode
      split at hnode <;> cases hnode <;> cases hm
    | @times l r ts star t hl hstar ha =>
      cases step with
      | lhs =>
        obtain rfl := Option.some.inj hm
        exact ⟨ts, .expression (.product hl), [], [star, t], rfl, rfl⟩
      | rhs =>
        obtain rfl := Option.some.inj hm
        refine ⟨[t], .expression (.product (.atom ha)), ts ++ [star], [], by simp, ?_⟩
        simp [Node.lead, hl.width]
      | _ => cases hm
  | @sum l r op ts us sign hl _ _ hr =>
    cases step with
    | lhs =>
      obtain rfl := Option.some.inj hm
      exact ⟨ts, .expression hl, [], sign :: us, rfl, rfl⟩
    | rhs =>
      obtain rfl := Option.some.inj hm
      refine ⟨us, .expression (.product hr), ts ++ [sign], [], by simp, ?_⟩
      simp [Node.lead, hl.width]
    | _ => cases hm

theorem Assignment.child {spot : Spot} {n m : Node} {step : Step} {ts : List Token}
    (h : Assignment spot n ts) (hm : n.child? step = some m) :
    ∃ own, Phrase m own ∧ Part ts (n.lead step) own := by
  obtain @⟨name, becomes, stop, e, ts, hname, hbecomes, he, hstop⟩ := h
  cases step with
  | expression =>
    obtain rfl := Option.some.inj hm
    exact ⟨ts, .expression he, [name, becomes], [stop], rfl, rfl⟩
  | _ => cases hm

theorem Braced.part {ts us own : List Token} {k : Nat} (h : Braced ts us) (hpart : Part ts k own) :
    Part us (1 + k) own := by
  cases h with
  | mk _ _ => exact hpart.within [_] [_] rfl rfl

theorem Condition.part {c : Node} {ts : List Token} (h : Condition c ts) :
    ∃ own, Phrase c own ∧ Part ts 1 own := by
  cases h with
  | mk _ he _ => exact ⟨_, .expression he, [_], [_], rfl, rfl⟩

theorem Statement.child {spot : Spot} {n m : Node} {step : Step} {ts : List Token}
    (h : Statement spot n ts) (hm : n.child? step = some m) :
    ∃ own, Phrase m own ∧ Part ts (n.lead step) own := by
  cases h with
  | assignment ha => exact ha.child hm
  | @declaration _ name colon stop e ts _ _ he _ =>
    cases step with
    | expression =>
      obtain rfl := Option.some.inj hm
      exact ⟨ts, .expression he, [name, colon], [stop], rfl, rfl⟩
    | _ => cases hm
  | @conditional _ word c b cs bs us _ hc hb hbraced =>
    cases step with
    | condition =>
      obtain rfl := Option.some.inj hm
      obtain ⟨own, hown, hpart⟩ := hc.part
      exact ⟨own, hown, hpart.within [word] us rfl rfl⟩
    | body i =>
      obtain ⟨own, hown, hpart⟩ := hb.part hm
      refine ⟨own, hown, (hbraced.part hpart).within (word :: cs) [] (by simp) ?_⟩
      simp only [Node.lead, List.length_cons, hc.width]
      omega
    | _ => cases hm
  | @branching _ word other c b e cs bs us es vs _ hc hb hbraced _ he hbraced' =>
    cases step with
    | condition =>
      obtain rfl := Option.some.inj hm
      obtain ⟨own, hown, hpart⟩ := hc.part
      exact ⟨own, hown, hpart.within [word] _ rfl rfl⟩
    | body i =>
      obtain ⟨own, hown, hpart⟩ := hb.part hm
      refine ⟨own, hown, (hbraced.part hpart).within (word :: cs) (other :: vs) (by simp) ?_⟩
      simp only [Node.lead, List.length_cons, hc.width]
      omega
    | elseBody i =>
      obtain ⟨own, hown, hpart⟩ := he.part hm
      refine ⟨own, hown,
        (hbraced'.part hpart).within (word :: (cs ++ (us ++ [other]))) [] (by simp) ?_⟩
      simp only [Node.lead, List.length_cons, List.length_append, List.length_nil, hc.width,
        hbraced.length, hb.width]
      omega
    | _ => cases hm

theorem Item.child {spot : Spot} {n m : Node} {step : Step} {ts : List Token}
    (h : Item spot n ts) (hm : n.child? step = some m) :
    ∃ own, Phrase m own ∧ Part ts (n.lead step) own := by
  cases h with
  | assignment ha => exact ha.child hm
  | @rule s ss b ts bs us hfront hb hbraced =>
    cases step with
    | selector i =>
      obtain ⟨own, hown, hpart⟩ := hfront.tokens.part hm
      exact ⟨own, hown, hpart.within [] us rfl (Nat.zero_add _).symm⟩
    | body i =>
      obtain ⟨own, hown, hpart⟩ := hb.part hm
      have hselectors := hfront.tokens.width
      refine ⟨own, hown, (hbraced.part hpart).within ts [] (by simp) ?_⟩
      simp only [Node.lead]
      omega
    | _ => cases hm

/-- The node at the end of an edge has its tokens among those of the node. -/
theorem Phrase.child {n m : Node} {step : Step} {ts : List Token} (h : Phrase n ts)
    (hm : n.child? step = some m) : ∃ own, Phrase m own ∧ Part ts (n.lead step) own := by
  cases h with
  | selector hn =>
    have hnode := hn.node
    unfold Token.selector? at hnode
    split at hnode <;> cases hnode <;> cases hm
  | expression he => exact he.child hm
  | statement hn => exact hn.child hm
  | item hn => exact hn.child hm
  | sheet hitems =>
    cases step with
    | item i => exact hitems.part hm
    | _ => cases hm

/-- So has the node at the end of a path. -/
theorem Phrase.descendant {n m : Node} {path : Path} {ts : List Token} (h : Phrase n ts)
    (hm : n.at? path = some m) : ∃ own, Phrase m own ∧ Part ts (n.leadTo path) own := by
  induction path generalizing n ts with
  | nil =>
    obtain rfl := Option.some.inj hm
    exact ⟨ts, h, .all ts⟩
  | cons step path ih =>
    obtain ⟨child, hchild, hm⟩ := Option.bind_eq_some_iff.1 hm
    obtain ⟨us, hus, hpart⟩ := h.child hchild
    obtain ⟨own, hown, hpart'⟩ := ih hus hm
    have hlead : n.leadTo (step :: path) = n.lead step + child.leadTo path := by
      rw [Node.leadTo, hchild]
      rfl
    rw [hlead]
    exact ⟨own, hown, hpart.trans hpart'⟩

/-! ## First tokens -/

/-- The tokens start with the one that the node starts with, and the node stands there. -/
def Starts (n : Node) (ts : List Token) : Prop :=
  ∃ t us, ts = t :: us ∧ n.OpensWith t ∧ n.position = t.position

theorem Starts.append {n : Node} {ts : List Token} (h : Starts n ts) (us : List Token) :
    Starts n (ts ++ us) := by
  obtain ⟨t, vs, rfl, hopens, hposition⟩ := h
  exact ⟨t, vs ++ us, rfl, hopens, hposition⟩

theorem Atom.starts {n : Node} {t : Token} (h : Atom n t) : Starts n [t] := by
  have hnode := h.node
  refine ⟨t, [], rfl, ?_⟩
  unfold Token.operand? at hnode
  split at hnode <;> cases hnode <;> exact ⟨h.node, rfl⟩

theorem Product.starts {n : Node} {ts : List Token} (h : Product n ts) : Starts n ts := by
  induction h with
  | atom ha => exact ha.starts
  | times _ _ _ ih =>
    obtain ⟨t, us, rfl, hopens, hposition⟩ := ih
    exact ⟨t, _, rfl, hopens, hposition⟩

theorem Expression.starts {n : Node} {ts : List Token} (h : Expression n ts) : Starts n ts := by
  induction h with
  | product hp => exact hp.starts
  | sum _ _ _ _ ih =>
    obtain ⟨t, us, rfl, hopens, hposition⟩ := ih
    exact ⟨t, _, rfl, hopens, hposition⟩

theorem Assignment.starts {spot : Spot} {n : Node} {ts : List Token} (h : Assignment spot n ts) :
    Starts n ts := by
  cases h with
  | mk hname _ _ _ => exact ⟨_, _, rfl, ⟨hname.name.kind, rfl⟩, rfl⟩

theorem Statement.starts {spot : Spot} {n : Node} {ts : List Token} (h : Statement spot n ts) :
    Starts n ts := by
  cases h with
  | assignment ha => exact ha.starts
  | declaration hname _ _ _ => exact ⟨_, _, rfl, ⟨hname.name.kind, rfl⟩, rfl⟩
  | conditional hword _ _ _ => exact ⟨_, _, rfl, hword.kind, rfl⟩
  | branching hword _ _ _ _ _ _ => exact ⟨_, _, rfl, hword.kind, rfl⟩

theorem Selector.starts {n : Node} {t : Token} (h : Selector n t) : Starts n [t] := by
  have hnode := h.node
  refine ⟨t, [], rfl, ?_⟩
  unfold Token.selector? at hnode
  split at hnode <;> cases hnode <;> exact ⟨h.node, rfl⟩

theorem Selectors.starts {ns : List Node} {ts : List Token} (h : Selectors ns ts) :
    ∃ n ∈ ns.head?, Starts n ts := by
  induction h with
  | one hn => exact ⟨_, rfl, hn.starts⟩
  | @snoc ns n _ _ _ _ _ _ ih =>
    obtain ⟨s, hs, hstarts⟩ := ih
    refine ⟨s, ?_, hstarts.append _⟩
    rw [List.head?_append, hs]
    rfl

theorem Item.starts {spot : Spot} {n : Node} {ts : List Token} (h : Item spot n ts) :
    Starts n ts := by
  cases h with
  | assignment ha => exact ha.starts
  | rule hfront _ _ =>
    obtain ⟨_, ⟨⟩, hstarts⟩ := hfront.tokens.starts
    obtain ⟨t, us, rfl, hopens, hposition⟩ := hstarts
    exact ⟨t, _, rfl, hopens, hposition⟩

theorem Items.starts {ns : List Node} {ts : List Token} (h : Items ns ts) :
    ∀ n ∈ ns.head?, Starts n ts := by
  induction h with
  | nil => exact fun n hn => by cases hn
  | @snoc ns n ts us hns hn ih =>
    intro m hm
    cases ns with
    | nil =>
      obtain rfl := List.length_eq_zero_iff.1 hns.width
      obtain rfl := Option.some.inj hm
      exact hn.starts
    | cons s ss => exact (ih m hm).append us

theorem Phrase.starts {n : Node} {ts : List Token} (h : Phrase n ts) : Starts n ts := by
  cases h with
  | selector hn => exact hn.starts
  | expression he => exact he.starts
  | statement hn => exact hn.starts
  | item hn => exact hn.starts
  | sheet hitems =>
    obtain ⟨t, us, rfl, hopens, hposition⟩ := hitems.starts _ rfl
    exact ⟨t, us, rfl, hopens, hposition⟩

end Derived

/-! ## Tokens in a text -/

/-- Tokens that are not empty stand one after the other. -/
theorem Laid.pairwise {place : Cursor} {ts : List Token} {cs : List Char} (h : Laid place ts cs)
    (hne : ∀ t ∈ ts, t.chars ≠ []) : ts.Pairwise fun a b => a.start.Before b.start := by
  induction h with
  | nil _ => exact .nil
  | @cons place gap rest t ts _ _ hrest ih =>
    refine .cons (fun u hu => ?_) (ih fun u hu => hne u (List.mem_cons_of_mem _ hu))
    obtain ⟨seen, rest', -, hseen⟩ := hrest.exists_seen hu
    obtain ⟨c, cs, hcs⟩ := List.exists_cons_of_ne_nil (hne t List.mem_cons_self)
    rw [hseen, ← Cursor.after_append, hcs, List.cons_append]
    exact Cursor.before_after _ _ _

theorem Reading.Leads.word {r r' : Reading} {ts : List Token} (h : Leads r ts r') :
    ∀ t ∈ ts, t.kind.Word t.chars := by
  induction h with
  | nil _ => exact fun t ht => absurd ht List.not_mem_nil
  | cons ha _ _ ih => exact List.forall_mem_cons.2 ⟨ha.word, ih⟩

/-- Both places are known, and the first is before the second. -/
def Position.Before (p q : Position) : Prop :=
  ∃ a b : Cursor, p = a.position ∧ q = b.position ∧ a.Before b

namespace Stylesheet

open Derived

/-- What is read has a derivation from tokens that stand in the text, one after the other. -/
theorem derives_of_parse {source : String} {sheet : Stylesheet}
    (h : Stylesheet.parse source = .ok sheet) :
    ∃ ts, Derives source sheet.items ts ∧
      sheet.pos = (sheet.items.head?.map Node.position).getD {} ∧
      ts.Pairwise fun a b => a.start.Before b.start := by
  unfold Stylesheet.parse at h
  split at h
  · cases h
  · next r hrun =>
    split at h
    · cases h
    · obtain rfl := Except.ok.inj h
      obtain ⟨ts, hderives, hleads⟩ := derives_of_run hrun
      refine ⟨ts, hderives, ?_, hderives.laid.pairwise fun t ht => ?_⟩
      · unfold Reading.sheet Reading.firstPosition
        rw [List.head?_reverse]
      · obtain ⟨c, cs, hcs, -⟩ := TokenKind.start_of_word (hleads.word t ht)
        rw [hcs]
        exact List.cons_ne_nil c cs

variable {sheet : Stylesheet} {ts : List Token}

theorem phrase_of_at? (hitems : Items sheet.items ts)
    (hpos : sheet.pos = (sheet.items.head?.map Node.position).getD {}) {path : Path} {n : Node}
    (hn : sheet.toNode.at? path = some n) (hne : ∀ pos, n ≠ .sheet pos []) :
    ∃ own, Phrase n own ∧ Part ts (sheet.toNode.leadTo path) own := by
  obtain ⟨pos, items⟩ := sheet
  cases items with
  | nil =>
    cases path with
    | nil => exact absurd (Option.some.inj hn).symm (hne pos)
    | cons step path =>
      obtain ⟨m, hm, -⟩ := Option.bind_eq_some_iff.1 hn
      cases step <;> cases hm
  | cons m ms =>
    obtain rfl : pos = m.position := hpos
    exact (Phrase.sheet hitems).descendant hn

theorem before_of_lt (h : ts.Pairwise fun a b => a.start.Before b.start) {i j : Nat} {t u : Token}
    (ht : ts[i]? = some t) (hu : ts[j]? = some u) (hij : i < j) :
    t.position.Before u.position := by
  obtain ⟨hi, rfl⟩ := List.getElem?_eq_some_iff.1 ht
  obtain ⟨hj, rfl⟩ := List.getElem?_eq_some_iff.1 hu
  exact ⟨_, _, rfl, rfl, List.pairwise_iff_getElem.1 h i j hi hj hij⟩

/-- The child of a node that is derived starts after as many tokens as there are before it. -/
theorem child_token {k : Nat} {us : List Token} {n m : Node} {step : Step} (h : Phrase n us)
    (hpart : Part ts k us) (hm : n.child? step = some m) :
    ∃ t, ts[k + n.lead step]? = some t ∧ m.position = t.position ∧ 0 < m.width := by
  obtain ⟨own, hown, hpart'⟩ := h.child hm
  have hwidth := hown.width
  obtain ⟨t, vs, rfl, -, hposition⟩ := hown.starts
  refine ⟨t, (hpart.trans hpart').getElem?, hposition, ?_⟩
  rw [← hwidth]
  exact Nat.succ_pos _

/-- Every node of a tree that is read, but the root of a tree without items, stands where the first
of its tokens starts in the text. Nodes in the same node stand in the order of the text, and none
starts before the node that it is in. -/
theorem node_positions {source : String} (h : Stylesheet.parse source = .ok sheet) :
    ∃ ts, Derives source sheet.items ts ∧ (∀ t ∈ ts, t.StandsIn source) ∧
      (∀ path n, sheet.toNode.at? path = some n → (∀ pos, n ≠ .sheet pos []) →
        ∃ t us, Phrase n (t :: us) ∧ Part ts (sheet.toNode.leadTo path) (t :: us) ∧
          n.OpensWith t ∧ n.position = t.position) ∧
      (∀ path n a b m m', sheet.toNode.at? path = some n → n.child? a = some m →
        n.child? b = some m' → a.Ahead b → m.position.Before m'.position) ∧
      ∀ path n step m, sheet.toNode.at? path = some n → n.child? step = some m →
        n.position = m.position ∨ n.position.Before m.position := by
  obtain ⟨ts, hderives, hpos, hpairwise⟩ := derives_of_parse h
  have hphrase := fun {path n} => @phrase_of_at? sheet ts hderives.items hpos path n
  have hparent : ∀ {n : Node} {step : Step} {m : Node}, n.child? step = some m →
      ∀ pos, n ≠ .sheet pos [] := by
    rintro n step m hm pos rfl
    cases step <;> cases hm
  refine ⟨ts, hderives, hderives.stands, ?_, ?_, ?_⟩
  · intro path n hn hne
    obtain ⟨own, hown, hpart⟩ := hphrase hn hne
    obtain ⟨t, us, rfl, hopens, hposition⟩ := hown.starts
    exact ⟨t, us, hown, hpart, hopens, hposition⟩
  · intro path n a b m m' hn hm hm' hab
    obtain ⟨us, hus, hpart⟩ := hphrase hn (hparent hm)
    obtain ⟨t, ht, hposition, hwidth⟩ := child_token hus hpart hm
    obtain ⟨u, hu, hposition', -⟩ := child_token hus hpart hm'
    have hlead := Node.lead_add_width_le hm hm' hab
    rw [hposition, hposition']
    exact before_of_lt hpairwise ht hu (by omega)
  · intro path n step m hn hm
    obtain ⟨us, hus, hpart⟩ := hphrase hn (hparent hm)
    obtain ⟨u, hu, hposition', -⟩ := child_token hus hpart hm
    obtain ⟨t, vs, rfl, -, hposition⟩ := hus.starts
    rw [hposition, hposition']
    by_cases hzero : n.lead step = 0
    · rw [hzero, Nat.add_zero, hpart.getElem?] at hu
      obtain rfl := Option.some.inj hu
      exact .inl rfl
    · exact .inr (before_of_lt hpairwise hpart.getElem? hu (by omega))

/-- A sum after a comment of two lines. -/
theorem parse_sum : Stylesheet.parse "/*\n*/p{w:1+X;}" =
    .ok ⟨⟨some 2, some 3⟩, [.rule ⟨some 2, some 3⟩ [.selector ⟨some 2, some 3⟩ .tag "p"]
      [.declaration ⟨some 2, some 5⟩ "w" (.operation ⟨some 2, some 7⟩ .add
        (.literal ⟨some 2, some 7⟩ (.number .scalar 1)) (.reference ⟨some 2, some 9⟩ "X"))]]⟩ := by
  have hcomment : Gap ['/', '*', '\n', '*', '/'] := .comment ⟨['\n'], rfl, by decide⟩ .nil
  have htext : "/*\n*/p{w:1+X;}".toList =
      ['/', '*', '\n', '*', '/'] ++ ['p', '{', 'w', ':', '1', '+', 'X', ';', '}'] := by decide
  have hrun : ({} : Reading).run {} {} (['/', '*', '\n', '*', '/'] ++
      ['p', '{', 'w', ':', '1', '+', 'X', ';', '}']) = .ok { items := [.rule ⟨some 2, some 3⟩
        [.selector ⟨some 2, some 3⟩ .tag "p"] [.declaration ⟨some 2, some 5⟩ "w"
          (.operation ⟨some 2, some 7⟩ .add (.literal ⟨some 2, some 7⟩ (.number .scalar 1))
            (.reference ⟨some 2, some 9⟩ "X"))]] } := by
    refine (Reading.run_token (m := ⟨.name, ['p'], _⟩) _ hcomment rfl _ _).trans ?_
    refine (Reading.run_token (g := []) (m := ⟨.leftBrace, ['{'], _⟩) _ .nil rfl _ _).trans ?_
    refine (Reading.run_token (g := []) (m := ⟨.name, ['w'], _⟩) _ .nil rfl _ _).trans ?_
    refine (Reading.run_token (g := []) (m := ⟨.colon, [':'], _⟩) _ .nil rfl _ _).trans ?_
    refine (Reading.run_token (g := []) (m := ⟨.scalar, ['1'], _⟩) _ .nil rfl _ _).trans ?_
    refine (Reading.run_token (g := []) (m := ⟨.plus, ['+'], _⟩) _ .nil rfl _ _).trans ?_
    refine (Reading.run_token (g := []) (m := ⟨.reference, ['X'], _⟩) _ .nil rfl _ _).trans ?_
    refine (Reading.run_token (g := []) (m := ⟨.semicolon, [';'], _⟩) _ .nil rfl _ _).trans ?_
    refine (Reading.run_token (g := []) (m := ⟨.rightBrace, ['}'], _⟩) _ .nil rfl _ _).trans ?_
    exact Reading.run_gap .nil rfl _ _
  unfold Stylesheet.parse
  rw [htext, hrun]
  rfl

/-- The sum stands where its left operand stands, and before its right one. -/
theorem node_positions_sum : ∃ sheet ts n m m',
    Stylesheet.parse "/*\n*/p{w:1+X;}" = .ok sheet ∧
      sheet.toNode.at? [.item 0, .body 0, .expression] = some n ∧
      n.child? .lhs = some m ∧ n.child? .rhs = some m' ∧
      (∃ t us, Phrase n (t :: us) ∧ Part ts 4 (t :: us) ∧ t.StandsIn "/*\n*/p{w:1+X;}" ∧
        n.OpensWith t ∧ n.position = t.position) ∧
      n.position = ⟨some 2, some 7⟩ ∧ m.position.Before m'.position ∧
      (n.position = m.position ∨ n.position.Before m.position) := by
  obtain ⟨ts, -, hstands, hfirst, hsiblings, hparent⟩ := node_positions parse_sum
  have hsum : ∀ pos, Node.operation ⟨some 2, some 7⟩ .add
      (.literal ⟨some 2, some 7⟩ (.number .scalar 1)) (.reference ⟨some 2, some 9⟩ "X") ≠
        .sheet pos [] := fun pos h => by cases h
  obtain ⟨t, us, hphrase, hpart, hopens, hposition⟩ :=
    hfirst [.item 0, .body 0, .expression] _ rfl hsum
  have hmem : t ∈ ts := List.mem_of_getElem? hpart.getElem?
  exact ⟨_, ts, _, _, _, parse_sum, rfl, rfl, rfl,
    ⟨t, us, hphrase, hpart, hstands t hmem, hopens, hposition⟩, rfl,
    hsiblings [.item 0, .body 0, .expression] _ .lhs .rhs _ _ rfl rfl rfl (.inl (by decide)),
    hparent [.item 0, .body 0, .expression] _ .lhs _ rfl rfl⟩

end Stylesheet

end StyleLang
