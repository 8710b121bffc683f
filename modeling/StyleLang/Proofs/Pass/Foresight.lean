import StyleLang.Proofs.Pass.Isolation
import StyleLang.Proofs.Syntax.Insertion

/-!
# Nothing looks ahead

Neither pass knows what comes later when it looks at a statement. Main statement: if statements are
inserted at a point of a block, then both passes say the same of everything ahead of that point, and
what is left of it is the same; so with more items behind it, a tree keeps its findings and its
evaluated items.
-/

namespace StyleLang

variable {τ α β : Type}

/-! ## What is left ahead of a point -/

namespace Remnant

/-- The selectors that stand before the end of the edge. -/
def selectorsUpTo (selectors : List Node) : Step → List Node
  | .selector i => selectors.take i
  | _ => selectors

mutual

/-- What of the remnant is left of statements ahead of the point. Of a rule around the point that is
what is left of the statements in it. -/
def upTo (point : Path) : Remnant → Option Remnant
  | declaration origin pos property value =>
    if origin.aheadOf point then some (declaration origin pos property value) else none
  | rule origin pos selectors body =>
    match point.dropPrefix? origin with
    | some (s :: rest) =>
      some (rule origin pos (selectorsUpTo selectors s) (allUpTo (s :: rest) body))
    | _ => if origin.aheadOf point then some (rule origin pos selectors body) else none

/-- `upTo`, member by member. -/
def allUpTo (point : Path) : List Remnant → List Remnant
  | [] => []
  | r :: rs => (r.upTo point).toList ++ allUpTo point rs

end

theorem allUpTo_append (point : Path) (rs rs' : List Remnant) :
    allUpTo point (rs ++ rs') = allUpTo point rs ++ allUpTo point rs' := by
  induction rs with
  | nil => rfl
  | cons r rs ih => rw [List.cons_append, allUpTo, ih, allUpTo, List.append_assoc]

theorem allUpTo_rule (s : Step) (rest : Path) (pos : Position) (selectors : List Node)
    (body : List Remnant) : allUpTo (s :: rest) [.rule [] pos selectors body] =
      [.rule [] pos (selectorsUpTo selectors s) (allUpTo (s :: rest) body)] := by
  rw [allUpTo, upTo]
  rfl

theorem upTo_under (s t : Step) (rest : Path) (r : Remnant) : (r.under t).upTo (s :: rest) =
    if t = s then (r.upTo rest).map (under t) else
      if t.aheadOf s then some (r.under t) else none := by
  cases r with
  | declaration origin pos property value =>
    rw [under, upTo, upTo, Path.aheadOf]
    by_cases hts : t = s
    · rw [if_pos hts, if_pos hts]
      cases origin.aheadOf rest <;> rfl
    · rw [if_neg hts, if_neg hts]
  | rule origin pos selectors body =>
    rw [under, upTo, upTo, Path.aheadOf]
    by_cases hts : t = s
    · subst hts
      have hdrop : List.dropPrefix? (t :: rest) (t :: origin) = rest.dropPrefix? origin := by
        simp [List.dropPrefix?]
      rw [hdrop, if_pos rfl, if_pos rfl]
      rcases rest.dropPrefix? origin with _ | _ | ⟨s', rest'⟩
      · cases origin.aheadOf rest <;> rfl
      · cases origin.aheadOf rest <;> rfl
      · rfl
    · have hdrop : List.dropPrefix? (s :: rest) (t :: origin) = none := by
        simp [List.dropPrefix?, Ne.symm hts]
      rw [hdrop, if_neg hts, if_neg hts]

theorem allUpTo_under (s t : Step) (rest : Path) (rs : List Remnant) :
    allUpTo (s :: rest) (rs.map (under t)) =
      if t = s then (allUpTo rest rs).map (under t) else
        if t.aheadOf s then rs.map (under t) else [] := by
  induction rs with
  | nil => split <;> (try split) <;> rfl
  | cons r rs ih =>
    rw [List.map_cons, allUpTo, allUpTo, ih, upTo_under]
    split
    · rw [List.map_append]
      cases r.upTo rest <;> rfl
    · split <;> rfl

/-- Nothing is left ahead of the root. -/
theorem allUpTo_nil (rs : List Remnant) : allUpTo [] rs = [] := by
  induction rs with
  | nil => rfl
  | cons r rs ih =>
    have hnone : ∀ origin : Path, origin.aheadOf [] = false := by
      intro origin
      cases origin <;> rfl
    rw [allUpTo, ih, List.append_nil]
    cases r with
    | declaration origin => rw [upTo, hnone]; rfl
    | rule origin =>
      rw [upTo, hnone]
      cases origin <;> rfl

end Remnant

/-- How a result is cut off at a point. -/
structure Gathering.Truncation (G : Gathering α) where
  upTo : Path → α → α
  upTo_nil : ∀ a, upTo [] a = G.empty
  upTo_empty : ∀ point, upTo point G.empty = G.empty
  upTo_join : ∀ point a b, upTo point (G.join a b) = G.join (upTo point a) (upTo point b)
  under_empty : ∀ t, G.under t G.empty = G.empty
  upTo_under : ∀ s t rest a, upTo (s :: rest) (G.under t a) =
    if t = s then G.under t (upTo rest a) else if t.aheadOf s then G.under t a else G.empty

namespace Gathering

def nothingUpTo : nothing.Truncation where
  upTo _ _ := ()
  upTo_nil _ := rfl
  upTo_empty _ := rfl
  upTo_join _ _ _ := rfl
  under_empty _ := rfl
  upTo_under _ _ _ _ := rfl

def remnantsUpTo : remnants.Truncation where
  upTo := Remnant.allUpTo
  upTo_nil := Remnant.allUpTo_nil
  upTo_empty _ := rfl
  upTo_join := Remnant.allUpTo_append
  under_empty _ := rfl
  upTo_under := Remnant.allUpTo_under

end Gathering

/-! ## Reports that are the same up to a point -/

/-- The finding is about a node ahead of the point. -/
def Finding.aheadOf (point : Path) (f : Finding) : Bool := f.path.aheadOf point

namespace Report

variable {point : Path} {R : α → α → Prop} {S : β → β → Prop}

/-- Both reports return, with related results, and have the same findings ahead of the point. -/
structure SameUpTo (point : Path) (R : α → α → Prop) (r r' : Report α) : Prop where
  findings : r'.findings.filter (Finding.aheadOf point) = r.findings.filter (Finding.aheadOf point)
  results : ∃ a a', r.result = .ok a ∧ r'.result = .ok a' ∧ R a a'

theorem sameUpTo_ok {a a' : α} (h : R a a') : SameUpTo point R (ok a) (ok a') :=
  ⟨rfl, a, a', rfl, rfl, h⟩

/-- A report that returns is the same as itself. -/
theorem sameUpTo_self {r : Report α} (h : ∃ a, r.result = .ok a) (point : Path) :
    SameUpTo point Eq r r := by
  obtain ⟨a, ha⟩ := h
  exact ⟨rfl, a, a, ha, ha, rfl⟩

theorem SameUpTo.mono {Q : α → α → Prop} {r r' : Report α} (h : SameUpTo point R r r')
    (hRQ : ∀ a a', R a a' → Q a a') : SameUpTo point Q r r' := by
  obtain ⟨hfindings, a, a', ha, ha', hR⟩ := h
  exact ⟨hfindings, a, a', ha, ha', hRQ a a' hR⟩

theorem SameUpTo.andThen {r r' : Report α} {next next' : α → Report β}
    (h : SameUpTo point R r r') (hn : ∀ a a', R a a' → SameUpTo point S (next a) (next' a')) :
    SameUpTo point S (r.andThen next) (r'.andThen next') := by
  obtain ⟨hfindings, a, a', ha, ha', hR⟩ := h
  obtain ⟨hfindings', b, b', hb, hb', hS⟩ := hn a a' hR
  refine ⟨?_, b, b', ?_, ?_, hS⟩
  · rw [findings_andThen ha, findings_andThen ha', List.filter_append, List.filter_append,
      hfindings, hfindings']
  · rw [result_andThen ha, hb]
  · rw [result_andThen ha', hb']

theorem filter_under (point : Path) (step : Step) (findings : List Finding) :
    (findings.map (Finding.under step)).filter (Finding.aheadOf (step :: point)) =
      (findings.filter (Finding.aheadOf point)).map (Finding.under step) := by
  rw [List.filter_map]
  congr 2
  funext f
  simp [Finding.aheadOf, Path.aheadOf]

theorem SameUpTo.under {r r' : Report α} (h : SameUpTo point R r r') (step : Step) :
    SameUpTo (step :: point) R (r.under step) (r'.under step) := by
  refine ⟨?_, h.results⟩
  unfold Report.under
  dsimp only
  rw [filter_under, filter_under, h.findings]

end Report

namespace Gathering.Truncation

open Report

variable {G : Gathering α} {statement : Node → Passing τ α} {edge : Nat → Step} {point : Path}
  {env : Env τ}

/-- What is left ahead of the point is the same. -/
def SameLeft (T : G.Truncation) (point : Path) (r r' : α × Env τ) : Prop :=
  T.upTo point r'.1 = T.upTo point r.1

/-- What is left ahead of the point is the same, and so is what is bound afterwards. -/
def SameKept (T : G.Truncation) (point : Path) (r r' : α × Env τ) : Prop :=
  T.SameLeft point r r' ∧ r'.2 = r.2

variable {T : G.Truncation}

theorem sameKept_of_eq (r r' : α × Env τ) (h : r = r') : T.SameKept point r r' := by
  subst h
  exact ⟨rfl, rfl⟩

/-- A report that returns is the same as itself, whatever the point. -/
theorem sameUpTo_self {r : Report (α × Env τ)} (h : ∃ a, r.result = .ok a) (point : Path) :
    SameUpTo point (T.SameKept point) r r := (Report.sameUpTo_self h point).mono sameKept_of_eq

/-- Scopes that are left keep nothing of what is bound in them. -/
theorem sameUpTo_child {p p' : Passing τ α}
    (h : SameUpTo point (T.SameLeft point) (p env) (p' env)) :
    SameUpTo point (T.SameKept point) (p.child env) (p'.child env) :=
  h.andThen fun _ _ hr => sameUpTo_ok ⟨hr, rfl⟩

theorem sameUpTo_member {p p' : Passing τ α} (step : Step)
    (h : SameUpTo point (T.SameKept point) (p env) (p' env)) :
    SameUpTo (step :: point) (T.SameKept (step :: point)) (G.member step p env)
      (G.member step p' env) := by
  refine (h.under step).andThen fun r r' hr => sameUpTo_ok ⟨?_, hr.2⟩
  show T.upTo (step :: point) (G.under step r'.1) = T.upTo (step :: point) (G.under step r.1)
  rw [T.upTo_under, T.upTo_under, if_pos rfl, if_pos rfl, hr.1]

/-- Whatever comes ahead of them, two blocks are the same up to a point if their ends are. -/
theorem sameUpTo_append {before after after' : List Node}
    (hbefore : ∃ r, (G.block statement edge 0 before env).result = .ok r)
    (h : ∀ env, SameUpTo point (T.SameLeft point) (G.block statement edge before.length after env)
      (G.block statement edge before.length after' env)) :
    SameUpTo point (T.SameLeft point) (G.block statement edge 0 (before ++ after) env)
      (G.block statement edge 0 (before ++ after') env) := by
  rw [block_append, block_append, Nat.zero_add]
  refine (Report.sameUpTo_self hbefore point).andThen fun r r' heq => ?_
  subst heq
  refine (h r.2).andThen fun s s' hs => sameUpTo_ok ?_
  show T.upTo point (G.join r.1 s'.1) = T.upTo point (G.join r.1 s.1)
  rw [T.upTo_join, T.upTo_join, hs]

/-- Whatever is bound before them, the statements return. -/
def Returns (statement : Node → Passing τ α) (nodes : List Node) : Prop :=
  ∀ n ∈ nodes, ∀ env, ∃ r, (statement n env).result = .ok r

/-- The report returns, and nothing of it is ahead of the point. -/
structure Late (T : G.Truncation) (point : Path) (r : Report (α × Env τ)) : Prop where
  findings : ∀ f ∈ r.findings, f.aheadOf point = false
  result : ∃ a, r.result = .ok a ∧ T.upTo point a.1 = G.empty

theorem Late.sameUpTo {r r' : Report (α × Env τ)} (h : T.Late point r) (h' : T.Late point r') :
    SameUpTo point (T.SameLeft point) r r' := by
  obtain ⟨hfindings, a, ha, hleft⟩ := h
  obtain ⟨hfindings', a', ha', hleft'⟩ := h'
  have hnone : ∀ findings : List Finding, (∀ f ∈ findings, f.aheadOf point = false) →
      findings.filter (Finding.aheadOf point) = [] := fun findings hf =>
    List.filter_eq_nil_iff.2 fun f hmem => by simp [hf f hmem]
  exact ⟨(hnone _ hfindings').trans (hnone _ hfindings).symm, a, a', ha, ha',
    hleft'.trans hleft.symm⟩

theorem result_member {p : Passing τ α} {step : Step} {a : α} {mid : Env τ}
    (h : (p env).result = .ok (a, mid)) :
    (G.member step p env).result = .ok (G.under step a, mid) :=
  result_andThen (r := (p env).under step) h _

theorem result_block_cons {index : Nat} {n : Node} {ns : List Node} {a b : α} {mid last : Env τ}
    (hn : (statement n env).result = .ok (a, mid))
    (hns : (G.block statement edge (index + 1) ns mid).result = .ok (b, last)) :
    (G.block statement edge index (n :: ns) env).result =
      .ok (G.join (G.under (edge index) a) b, last) :=
  (result_andThen (result_member hn) _).trans (result_andThen hns _)

/-- A block whose statements all stand behind the point comes late. -/
theorem late_block (hedge : Step.BlockEdge edge) {k : Nat} {nodes : List Node}
    (h : Returns statement nodes) {index : Nat} (hk : k ≤ index) (env : Env τ) :
    T.Late [edge k] (G.block statement edge index nodes env) := by
  constructor
  · intro f hf
    obtain ⟨j, rest, hpath, hj, -⟩ := (about_block index nodes env).findings f hf
    unfold Finding.aheadOf
    rw [hpath, Path.aheadOf]
    by_cases hjk : edge j = edge k
    · rw [if_pos hjk]
      cases rest <;> rfl
    · rw [if_neg hjk, Bool.eq_false_iff, ne_eq, hedge.aheadOf]
      omega
  · induction nodes generalizing index env with
    | nil => exact ⟨_, rfl, T.upTo_empty _⟩
    | cons n ns ih =>
      obtain ⟨⟨a, mid⟩, ha⟩ := h n List.mem_cons_self env
      obtain ⟨⟨b, last⟩, hb, hleft⟩ :=
        ih (fun m hm => h m (List.mem_cons_of_mem n hm)) (Nat.le_succ_of_le hk) mid
      have hnot : (edge index).aheadOf (edge k) = false := by
        rw [Bool.eq_false_iff, ne_eq, hedge.aheadOf]
        omega
      have hfirst : T.upTo [edge k] (G.under (edge index) a) = G.empty := by
        rw [T.upTo_under, T.upTo_nil, T.under_empty, hnot]
        split <;> rfl
      refine ⟨(G.join (G.under (edge index) a) b, last), result_block_cons ha hb, ?_⟩
      rw [T.upTo_join, hfirst, G.empty_join]
      exact hleft

/-- A block returns if its statements do. -/
theorem exists_result_block {nodes : List Node}
    (h : Returns statement nodes) (index : Nat) (env : Env τ) :
    ∃ r, (G.block statement edge index nodes env).result = .ok r := by
  induction nodes generalizing index env with
  | nil => exact ⟨_, rfl⟩
  | cons n ns ih =>
    obtain ⟨⟨a, mid⟩, ha⟩ := h n List.mem_cons_self env
    obtain ⟨⟨b, last⟩, hb⟩ := ih (fun m hm => h m (List.mem_cons_of_mem n hm)) (index + 1) mid
    exact ⟨_, result_block_cons ha hb⟩

/-- What a block says begins with what its beginning says. -/
theorem exists_block_prefix {before after : List Node} {findings : List Finding} {a : α}
    {last : Env τ}
    (h : G.block statement edge 0 (before ++ after) env = ⟨findings, .ok (a, last)⟩) :
    ∃ first a' mid b, G.block statement edge 0 before env = ⟨first, .ok (a', mid)⟩ ∧
      first <+: findings ∧ a = G.join a' b := by
  rw [block_append] at h
  have hresult := congrArg Report.result h
  obtain ⟨⟨a', mid⟩, ha, hrest⟩ := exists_of_andThen hresult
  obtain ⟨⟨b, last'⟩, -, hjoin⟩ := exists_of_andThen hrest
  have hfindings := (congrArg Report.findings h).symm.trans (findings_andThen ha _)
  refine ⟨_, a', mid, b, by rw [← ha], ⟨_, hfindings.symm⟩, ?_⟩
  exact (Prod.mk.inj (Except.ok.inj hjoin)).1.symm

/-- Insertion at the end of a path leaves what a statement says ahead of the point. -/
def Unforeseen (T : G.Truncation) (statement : Node → Passing τ α) (new : List Node) (path : Path)
    (n : Node) : Prop :=
  ∀ env, SameUpTo path (T.SameKept path) (statement n env) (statement (n.insert new path) env)

/-- Statements inserted in a block are not foreseen by those before them. -/
theorem sameUpTo_splice (hedge : Step.BlockEdge edge) {before new after : List Node}
    (hbefore : Returns statement before) (hnew : Returns statement new)
    (hafter : Returns statement after) (env : Env τ) :
    SameUpTo [edge before.length] (T.SameLeft [edge before.length])
      (G.block statement edge 0 (before ++ after) env)
      (G.block statement edge 0 (before ++ (new ++ after)) env) := by
  refine sameUpTo_append (exists_result_block hbefore 0 env) fun env => ?_
  have hboth : Returns statement (new ++ after) := List.forall_mem_append.2 ⟨hnew, hafter⟩
  exact (late_block hedge hafter (Nat.le_refl _) env).sameUpTo
    (late_block hedge hboth (Nat.le_refl _) env)

/-- Statements inserted in a statement of a block are not foreseen in the block. -/
theorem sameUpTo_inside {before new after : List Node} {n : Node} {path : Path}
    (hbefore : Returns statement before) (hn : T.Unforeseen statement new path n)
    (hafter : Returns statement after) (env : Env τ) :
    SameUpTo (edge before.length :: path) (T.SameLeft (edge before.length :: path))
      (G.block statement edge 0 (before ++ n :: after) env)
      (G.block statement edge 0 (before ++ n.insert new path :: after) env) := by
  refine sameUpTo_append (exists_result_block hbefore 0 env) fun env => ?_
  refine (sameUpTo_member (edge before.length) (hn env)).andThen fun r r' hr => ?_
  obtain ⟨hleft, henv⟩ := hr
  rw [henv]
  have hrest : ∃ s, (G.block statement edge (before.length + 1) after r.2).result = .ok s :=
    exists_result_block hafter _ _
  refine (Report.sameUpTo_self hrest _).andThen fun s s' hs => sameUpTo_ok ?_
  subst hs
  show T.upTo _ (G.join r'.1 s.1) = T.upTo _ (G.join r.1 s.1)
  rw [T.upTo_join, T.upTo_join, hleft]

theorem sameUpTo_block (hedge : Step.BlockEdge edge) {new nodes : List Node} {path : Path} {k : Nat}
    (hgap : Node.GapIn nodes path k) (hnew : Returns statement new)
    (hnodes : Returns statement nodes)
    (h : ∀ n ∈ nodes, n.HasGap path → T.Unforeseen statement new path n) (env : Env τ) :
    SameUpTo (edge k :: path) (T.SameLeft (edge k :: path)) (G.block statement edge 0 nodes env)
      (G.block statement edge 0 (Node.insertIn new path k nodes) env) := by
  have hfront : Returns statement (nodes.take k) := fun n hn => hnodes n (List.mem_of_mem_take hn)
  rcases hgap with ⟨rfl, hk⟩ | ⟨n, hn, hgap⟩
  · have hback : Returns statement (nodes.drop k) := fun n hn => hnodes n (List.mem_of_mem_drop hn)
    have hlength : (nodes.take k).length = k := List.length_take_of_le hk
    have hsplice := sameUpTo_splice (T := T) hedge hfront hnew hback env
    rwa [hlength, List.take_append_drop, ← List.append_assoc] at hsplice
  · obtain ⟨hk, rfl⟩ := List.getElem?_eq_some_iff.1 hn
    have hback : Returns statement (nodes.drop (k + 1)) := fun n hn =>
      hnodes n (List.mem_of_mem_drop hn)
    have hlength : (nodes.take k).length = k := List.length_take_of_le (Nat.le_of_lt hk)
    have hinside : SameUpTo (edge (nodes.take k).length :: path) _ _ _ :=
      sameUpTo_inside hfront (h _ (List.getElem_mem hk) hgap) hback env
    rw [hlength] at hinside
    rwa [← Node.insertIn_eq hk hgap.ne_nil, ← List.drop_eq_getElem_cons hk,
      List.take_append_drop] at hinside

end Gathering.Truncation

namespace Node

/-- An expression has no block, so it has no point for statements. -/
theorem PlacedExpression.not_hasGap {e : Node} (h : e.PlacedExpression) {point : Path} :
    ¬ e.HasGap point := by
  intro hgap
  induction hgap with
  | items | rule | branch | elseBranch => exact h
  | @inside n child s path hchild _ ih =>
    have hat : n.at? [s] = some child := by
      rw [at?_cons, hchild]
      rfl
    exact ih (h.at? hat)

/-- Where statements may be inserted in a statement, and what that makes of it. -/
theorem PlacedStatement.inserted {n : Node} (h : n.PlacedStatement) {point : Path}
    (hgap : n.HasGap point) (new : List Node) : Inserted new n point (n.insert new point) := by
  cases hgap with
  | items => exact h.elim
  | rule hk => exact .body (.inl ⟨rfl, hk⟩)
  | branch hk => exact .branch (.inl ⟨rfl, hk⟩)
  | elseBranch hk => exact .elseBranch (.inl ⟨rfl, hk⟩)
  | @inside _ child s path hchild hgap =>
    obtain ⟨s', path, rfl⟩ := List.exists_cons_of_ne_nil hgap.ne_nil
    cases n with
    | declaration pos property e | assignment pos name e =>
      cases s with
      | expression =>
        obtain rfl := Option.some.inj hchild
        exact absurd hgap (PlacedExpression.not_hasGap h)
      | _ => cases hchild
    | rule pos selectors body =>
      cases s with
      | selector i => exact .selector (take_alterAt _ _ _)
      | body k => exact .body (.inr ⟨child, hchild, hgap⟩)
      | _ => cases hchild
    | conditional pos c body elseBody =>
      cases s with
      | condition =>
        have hc : c = child := by cases elseBody <;> exact Option.some.inj hchild
        exact absurd (hc ▸ hgap) h.1.not_hasGap
      | body k =>
        have hk : body[k]? = some child := by cases elseBody <;> exact hchild
        exact .branch (.inr ⟨child, hk, hgap⟩)
      | elseBody k =>
        cases elseBody with
        | none => cases hchild
        | some elseBody => exact .elseBranch (.inr ⟨child, hchild, hgap⟩)
      | _ => cases elseBody <;> cases hchild
    | _ => exact h.elim

end Node

open Gathering.Truncation Passing Report

/-! ## The checker -/

namespace Check.Lexical

theorem returns {nodes : List Node} (h : Node.PlacedBlock nodes) : Returns statement nodes :=
  fun n hn types => exists_result_statement (Node.placedBlock_iff.1 h n hn) types

theorem exists_result_child {edge : Nat → Step} {nodes : List Node} (h : Node.PlacedBlock nodes)
    (types : Env ValueType) : ∃ r, ((block edge 0 nodes).child types).result = .ok r := by
  obtain ⟨r, hr⟩ := exists_result_block h edge types
  exact ⟨_, result_andThen hr _⟩

theorem exists_result_condition {c : Node} (h : c.PlacedExpression) (pos : Position)
    (types : Env ValueType) :
    ∃ r, (reading (fun types => condition types pos c) types).result = .ok r := by
  obtain ⟨r, hr⟩ := Check.exists_result_condition h pos
  exact ⟨_, result_andThen hr _⟩

/-- Inserted statements are not foreseen by the checker. -/
theorem unforeseen {new : List Node} (hnew : Node.PlacedBlock new) :
    ∀ (path : Path) (n : Node), n.PlacedStatement → n.HasGap path →
      Gathering.nothingUpTo.Unforeseen statement new path n
  | [], _, _, hgap => absurd rfl hgap.ne_nil
  | s :: path, n, hplaced, hgap => by
    intro types
    have hblock : ∀ {edge : Nat → Step} {nodes : List Node} {k : Nat}, Step.BlockEdge edge →
        Node.PlacedBlock nodes → Node.GapIn nodes path k → ∀ types,
        SameUpTo (edge k :: path) (Gathering.nothingUpTo.SameKept (edge k :: path))
          ((block edge 0 nodes).child types)
          ((block edge 0 (Node.insertIn new path k nodes)).child types) := by
      intro edge nodes k hedge hnodes hk types
      rw [block_eq, block_eq]
      refine sameUpTo_child (sameUpTo_block hedge hk (returns hnew) (returns hnodes) ?_ types)
      exact fun m hm => unforeseen hnew path m (Node.placedBlock_iff.1 hnodes m hm)
    have hinserted := hplaced.inserted hgap new
    generalize n.insert new (s :: path) = n' at hinserted
    cases hinserted with
    | selector =>
      rw [statement, statement]
      exact Gathering.Truncation.sameUpTo_self (exists_result_child hplaced types) _
    | body hk =>
      rw [statement, statement]
      exact hblock (.inr (.inl rfl)) hplaced hk types
    | @branch pos c body elseBody k _ hk =>
      obtain ⟨hc, hbody, helse⟩ := hplaced
      have hcond := Report.sameUpTo_self (exists_result_condition hc pos types) (.body k :: path)
      cases elseBody with
      | none =>
        rw [statement, statement]
        refine hcond.andThen fun r r' hr => ?_
        subst hr
        exact (hblock (.inr (.inl rfl)) hbody hk r.2).andThen fun s s' hs => sameUpTo_ok hs
      | some elseBody =>
        rw [statement, statement]
        refine hcond.andThen fun r r' hr => ?_
        subst hr
        refine (hblock (.inr (.inl rfl)) hbody hk r.2).andThen fun s s' hs => ?_
        rw [hs.2]
        exact Gathering.Truncation.sameUpTo_self (exists_result_child helse s.2) _
    | @elseBranch pos c body elseBody k _ hk =>
      obtain ⟨hc, hbody, helse⟩ := hplaced
      rw [statement, statement]
      refine (Report.sameUpTo_self (exists_result_condition hc pos types) _).andThen
        fun r r' hr => ?_
      subst hr
      refine (Report.sameUpTo_self (exists_result_child hbody r.2) _).andThen fun s s' hs => ?_
      subst hs
      exact hblock (.inr (.inr rfl)) helse hk s.2

end Check.Lexical

/-! ## The evaluator -/

namespace Evaluate.Traced

theorem returns {nodes : List Node} (h : Node.PlacedBlock nodes) : Returns statement nodes := by
  intro n hn values
  obtain ⟨r, hr⟩ := exists_result_statement (Node.placedBlock_iff.1 h n hn) values
  rw [statement_eq_traced] at hr
  exact result_of_andThen_ok hr

theorem exists_result_child {edge : Nat → Step} {nodes : List Node} (h : Node.PlacedBlock nodes)
    (values : Env Constant) : ∃ r, ((block edge 0 nodes).child values).result = .ok r := by
  obtain ⟨r, hr⟩ := exists_result_block h edge values
  rw [block_eq_traced] at hr
  obtain ⟨r, hr⟩ := result_of_andThen_ok hr
  exact ⟨_, result_andThen hr _⟩

theorem exists_result_choose {c : Node} (h : c.PlacedExpression) (pos : Position)
    (values : Env Constant) :
    ∃ r, (reading (fun values => choose values pos c) values).result = .ok r := by
  obtain ⟨r, hr⟩ := Evaluate.exists_result_choose h pos
  exact ⟨_, result_andThen hr _⟩

/-- What is left of rules around a point is the same ahead of it if their selectors and what is left
in them are. -/
theorem sameKept_rule {s : Step} {path : Path} {pos : Position} {selectors selectors' : List Node}
    {r r' : List Remnant × Env Constant}
    (hsel : Remnant.selectorsUpTo selectors' s = Remnant.selectorsUpTo selectors s)
    (h : Gathering.remnantsUpTo.SameKept (s :: path) r r') :
    Gathering.remnantsUpTo.SameKept (s :: path) ([.rule [] pos selectors r.1], r.2)
      ([.rule [] pos selectors' r'.1], r'.2) := by
  obtain ⟨hleft, henv⟩ := h
  have hleft : Remnant.allUpTo (s :: path) r'.1 = Remnant.allUpTo (s :: path) r.1 := hleft
  refine ⟨?_, henv⟩
  show Remnant.allUpTo (s :: path) _ = Remnant.allUpTo (s :: path) _
  rw [Remnant.allUpTo_rule, Remnant.allUpTo_rule, hsel, hleft]

/-- Inserted statements are not foreseen by the evaluator. -/
theorem unforeseen {new : List Node} (hnew : Node.PlacedBlock new) :
    ∀ (path : Path) (n : Node), n.PlacedStatement → n.HasGap path →
      Gathering.remnantsUpTo.Unforeseen statement new path n
  | [], _, _, hgap => absurd rfl hgap.ne_nil
  | s :: path, n, hplaced, hgap => by
    intro values
    have hblock : ∀ {edge : Nat → Step} {nodes : List Node} {k : Nat}, Step.BlockEdge edge →
        Node.PlacedBlock nodes → Node.GapIn nodes path k → ∀ values,
        SameUpTo (edge k :: path) (Gathering.remnantsUpTo.SameKept (edge k :: path))
          ((block edge 0 nodes).child values)
          ((block edge 0 (Node.insertIn new path k nodes)).child values) := by
      intro edge nodes k hedge hnodes hk values
      rw [block_eq, block_eq]
      refine sameUpTo_child (sameUpTo_block hedge hk (returns hnew) (returns hnodes) ?_ values)
      exact fun m hm => unforeseen hnew path m (Node.placedBlock_iff.1 hnodes m hm)
    have hinserted := hplaced.inserted hgap new
    generalize n.insert new (s :: path) = n' at hinserted
    cases hinserted with
    | selector hsel =>
      rw [statement, statement]
      refine (Gathering.Truncation.sameUpTo_self (exists_result_child hplaced values) _).andThen
        fun r r' hr => sameUpTo_ok (sameKept_rule hsel hr)
    | body hk =>
      rw [statement, statement]
      exact (hblock (.inr (.inl rfl)) hplaced hk values).andThen fun r r' hr =>
        sameUpTo_ok (sameKept_rule rfl hr)
    | @branch pos c body elseBody k _ hk =>
      obtain ⟨hc, hbody, helse⟩ := hplaced
      have hchoose := Report.sameUpTo_self (exists_result_choose hc pos values) (.body k :: path)
      cases elseBody with
      | none =>
        rw [statement, statement]
        refine hchoose.andThen fun r r' hr => ?_
        subst hr
        obtain ⟨b, values⟩ := r
        cases b with
        | true => exact hblock (.inr (.inl rfl)) hbody hk values
        | false => exact sameUpTo_ok ⟨rfl, rfl⟩
      | some elseBody =>
        rw [statement, statement]
        refine hchoose.andThen fun r r' hr => ?_
        subst hr
        obtain ⟨b, values⟩ := r
        cases b with
        | true => exact hblock (.inr (.inl rfl)) hbody hk values
        | false => exact Gathering.Truncation.sameUpTo_self (exists_result_child helse values) _
    | @elseBranch pos c body elseBody k _ hk =>
      obtain ⟨hc, hbody, helse⟩ := hplaced
      rw [statement, statement]
      refine (Report.sameUpTo_self (exists_result_choose hc pos values) _).andThen
        fun r r' hr => ?_
      subst hr
      obtain ⟨b, values⟩ := r
      cases b with
      | true => exact Gathering.Truncation.sameUpTo_self (exists_result_child hbody values) _
      | false => exact hblock (.inr (.inr rfl)) helse hk values

end Evaluate.Traced

/-! ## Whole trees -/

namespace Stylesheet

variable {sheet : Stylesheet} {findings : List Finding} {e : Evaluation} {new : List Node}
  {point : Path}

/-- What the evaluator leaves, with the places of the statements that it is left of. -/
structure Leaves (sheet : Stylesheet) (e : Evaluation) (rs : List Remnant) : Prop where
  trace : ∃ values, sheet.trace = ⟨e.defects, .ok (rs, values)⟩
  origins : ∀ r ∈ rs, r.Of sheet.toNode
  stylesheet : e.stylesheet = { sheet with items := Remnant.toNodes rs }

theorem exists_leaves (he : sheet.evaluate = .ok e) : ∃ rs, sheet.Leaves e rs := by
  obtain ⟨rs, values, ht, hleft⟩ := trace_of_evaluate he
  exact ⟨rs, ⟨values, ht⟩, of_trace (by rw [ht]), hleft⟩

/-- Points of the tree are in the items or deeper. -/
theorem exists_item_of_hasGap (h : sheet.toNode.HasGap point) :
    ∃ k path, point = .item k :: path ∧ Node.GapIn sheet.items path k := by
  unfold toNode at h
  cases h with
  | items hk => exact ⟨_, [], rfl, .inl ⟨rfl, hk⟩⟩
  | @inside _ child s path hchild hgap =>
    cases s with
    | item k => exact ⟨k, path, rfl, .inr ⟨child, hchild, hgap⟩⟩
    | _ => cases hchild

theorem check_insert (hc : sheet.check = .ok findings) (hgap : sheet.toNode.HasGap point)
    (hnew : Node.PlacedBlock new) : ∃ findings', (sheet.insert new point).check = .ok findings' ∧
      findings'.filter (Finding.aheadOf point) = findings.filter (Finding.aheadOf point) := by
  obtain ⟨k, path, rfl, hin⟩ := exists_item_of_hasGap hgap
  obtain ⟨types, -, rfl⟩ := checkReport_of_check hc
  have hplaced := placed_of_check hc
  have hsame := sameUpTo_block (T := Gathering.nothingUpTo) (.inl rfl) hin
    (Check.Lexical.returns hnew) (Check.Lexical.returns hplaced)
    (fun n hn => Check.Lexical.unforeseen hnew path n (Node.placedBlock_iff.1 hplaced n hn)) .empty
  rw [← Check.Lexical.block_eq, ← Check.Lexical.block_eq] at hsame
  obtain ⟨hfindings, -, r', -, hr', -⟩ := hsame
  refine ⟨(sheet.insert new (.item k :: path)).checkReport.findings, ?_, hfindings⟩
  have hresult : (sheet.insert new (.item k :: path)).checkReport.result = .ok r' := hr'
  rw [check_eq, hresult]
  rfl

theorem evaluate_insert (hplaced : sheet.Placed) {rs : List Remnant} (hleft : sheet.Leaves e rs)
    (hgap : sheet.toNode.HasGap point) (hnew : Node.PlacedBlock new) :
    ∃ e' rs', (sheet.insert new point).evaluate = .ok e' ∧ (sheet.insert new point).Leaves e' rs' ∧
      e'.defects.filter (Finding.aheadOf point) = e.defects.filter (Finding.aheadOf point) ∧
      Remnant.allUpTo point rs' = Remnant.allUpTo point rs := by
  obtain ⟨k, path, rfl, hin⟩ := exists_item_of_hasGap hgap
  have hsame := sameUpTo_block (T := Gathering.remnantsUpTo) (.inl rfl) hin
    (Evaluate.Traced.returns hnew) (Evaluate.Traced.returns hplaced)
    (fun n hn => Evaluate.Traced.unforeseen hnew path n (Node.placedBlock_iff.1 hplaced n hn))
    .empty
  rw [← Evaluate.Traced.block_eq, ← Evaluate.Traced.block_eq] at hsame
  have hsame : SameUpTo (.item k :: path) (Gathering.remnantsUpTo.SameLeft (.item k :: path))
      sheet.trace (sheet.insert new (.item k :: path)).trace := hsame
  obtain ⟨values, ht⟩ := hleft.trace
  obtain ⟨hdefects, r, ⟨rs', values'⟩, hr, hr', hkept⟩ := hsame
  rw [ht] at hr hdefects
  obtain rfl := Except.ok.inj hr
  have he' := evaluate_of_trace (show (sheet.insert new (.item k :: path)).trace =
    ⟨(sheet.insert new (.item k :: path)).trace.findings, .ok (rs', values')⟩ by rw [← hr'])
  exact ⟨_, rs', he', ⟨⟨values', by rw [← hr']⟩, of_trace hr', rfl⟩, hdefects, hkept⟩

/-- The tree with its first items only. -/
def take (sheet : Stylesheet) (k : Nat) : Stylesheet := { sheet with items := sheet.items.take k }

theorem check_take (hc : sheet.check = .ok findings) (k : Nat) :
    ∃ first, (sheet.take k).check = .ok first ∧ first <+: findings := by
  obtain ⟨types, hresult, rfl⟩ := checkReport_of_check hc
  have hreport : Check.Lexical.block .item 0 (sheet.items.take k ++ sheet.items.drop k) .empty =
      ⟨sheet.checkReport.findings, .ok ((), types)⟩ := by
    rw [List.take_append_drop, ← hresult]
    rfl
  rw [Check.Lexical.block_eq] at hreport
  obtain ⟨first, _, mid, _, hfirst, hprefix, -⟩ := exists_block_prefix hreport
  rw [← Check.Lexical.block_eq] at hfirst
  have hreport' : (sheet.take k).checkReport = ⟨first, .ok ((), mid)⟩ := hfirst
  refine ⟨first, ?_, hprefix⟩
  rw [check_eq, hreport']
  rfl

theorem evaluate_take (he : sheet.evaluate = .ok e) (k : Nat) :
    ∃ first, (sheet.take k).evaluate = .ok first ∧ first.defects <+: e.defects ∧
      first.stylesheet.items <+: e.stylesheet.items := by
  obtain ⟨rs, values, ht, hleft⟩ := trace_of_evaluate he
  have htrace : Evaluate.Traced.block .item 0 (sheet.items.take k ++ sheet.items.drop k) .empty =
      ⟨e.defects, .ok (rs, values)⟩ := by
    rw [List.take_append_drop]
    exact ht
  rw [Evaluate.Traced.block_eq] at htrace
  obtain ⟨first, rs', mid, rest, hfirst, hprefix, rfl⟩ := exists_block_prefix htrace
  rw [← Evaluate.Traced.block_eq] at hfirst
  have htrace' : (sheet.take k).trace = ⟨first, .ok (rs', mid)⟩ := hfirst
  refine ⟨_, evaluate_of_trace htrace', hprefix, ?_⟩
  rw [hleft]
  exact ⟨Remnant.toNodes rest, (Remnant.toNodes_append rs' rest).symm⟩

/-- The two runs on the tree with statements inserted find and leave ahead of the point what they
find and leave without them. -/
structure Unforeseen (sheet : Stylesheet) (new : List Node) (point : Path) (findings : List Finding)
    (e : Evaluation) (rs : List Remnant) : Prop where
  /-- What is ahead of the point and not around it stays where it is. -/
  ahead : ∀ path, Path.aheadOf path point = true → ¬ path <+: point →
    (sheet.insert new point).toNode.at? path = sheet.toNode.at? path
  /-- What is around the point has the statements inserted. -/
  around : ∀ path rest, point = path ++ rest → rest ≠ [] →
    (sheet.insert new point).toNode.at? path = (sheet.toNode.at? path).map (Node.insert new rest)
  checked : ∃ findings', (sheet.insert new point).check = .ok findings' ∧
    findings'.filter (Finding.aheadOf point) = findings.filter (Finding.aheadOf point)
  evaluated : ∃ e' rs', (sheet.insert new point).evaluate = .ok e' ∧
    (sheet.insert new point).Leaves e' rs' ∧
    e'.defects.filter (Finding.aheadOf point) = e.defects.filter (Finding.aheadOf point) ∧
    Remnant.allUpTo point rs' = Remnant.allUpTo point rs

/-- **Nothing looks ahead.** If the checker returns, then so does the evaluator, and with statements
inserted at a point of a block both return and say the same of all nodes that have their turn before
that point, and the same is left of these; with items left out at the end, they say and leave the
beginning of what they say and leave of the whole. -/
theorem nothing_looks_ahead (hc : sheet.check = .ok findings) :
    (∀ path point, Path.aheadOf path point = true ↔ path.Earlier point ∧ ¬ point <+: path) ∧
    ∃ e rs, sheet.evaluate = .ok e ∧ sheet.Leaves e rs ∧
      (∀ point new, sheet.toNode.HasGap point → Node.PlacedBlock new →
        sheet.Unforeseen new point findings e rs) ∧
      ∀ k, ∃ fs first, (sheet.take k).check = .ok fs ∧ fs <+: findings ∧
        (sheet.take k).evaluate = .ok first ∧ first.defects <+: e.defects ∧
        first.stylesheet.items <+: e.stylesheet.items := by
  have hplaced := placed_of_check hc
  obtain ⟨e, he⟩ := exists_evaluate_of_placed hplaced
  obtain ⟨rs, hleft⟩ := exists_leaves he
  refine ⟨fun _ _ => Path.aheadOf_iff, e, rs, he, hleft, fun point new hgap hnew => ?_, fun k => ?_⟩
  · have htree : (sheet.insert new point).toNode = sheet.toNode.insert new point := by
      obtain ⟨k, path, rfl, -⟩ := exists_item_of_hasGap hgap
      exact toNode_insert sheet new k path
    refine ⟨fun path hahead haround => ?_, fun path rest hpoint hrest => ?_,
      check_insert hc hgap hnew, evaluate_insert hplaced hleft hgap hnew⟩
    · rw [htree]
      exact Node.at?_insert_ahead hgap hahead haround
    · rw [htree, hpoint]
      exact Node.at?_insert_around hrest _
  · obtain ⟨fs, hfs, hprefix⟩ := check_take hc k
    obtain ⟨first, hfirst, hdefects, hitems⟩ := evaluate_take he k
    exact ⟨fs, first, hfs, hprefix, hfirst, hdefects, hitems⟩

/-- An assignment inserted in a branch: the unknown variables before it and around it stay unknown,
though the assignment binds one of them. -/
theorem nothing_looks_ahead_branch :
    let late : Node := .reference {} "Late"
    let sheet : Stylesheet :=
      { items := [.declaration {} "width" late, .rule {} [.selector {} .tag "p"]
          [.conditional {} late [.declaration {} "width" late] none]] }
    let point : Path := [.item 1, .body 0, .body 0]
    let new : List Node := [.assignment {} "Late" (.literal {} (.number .pixel 1))]
    let unknown (path : Path) : Finding :=
      { severity := .error, problem := .unknownVariable "Late", path }
    let ahead : List Finding :=
      [unknown [.item 0, .expression], unknown [.item 1, .body 0, .condition]]
    sheet.check = .ok (ahead ++ [unknown (point ++ [.expression])]) ∧ sheet.toNode.HasGap point ∧
      ∃ findings, (sheet.insert new point).check = .ok findings ∧
        findings.filter (Finding.aheadOf point) = ahead := by
  intro late sheet point new unknown ahead
  have hc : sheet.check = .ok (ahead ++ [unknown (point ++ [.expression])]) := rfl
  have hgap : sheet.toNode.HasGap point :=
    .inside rfl (.inside rfl (.branch (Nat.zero_le _)))
  obtain ⟨-, e, rs, -, -, hinsert, -⟩ := nothing_looks_ahead hc
  obtain ⟨findings, hfindings, hfilter⟩ := (hinsert point new hgap ⟨trivial, trivial⟩).checked
  exact ⟨hc, hgap, findings, hfindings, hfilter⟩

end Stylesheet

end StyleLang
