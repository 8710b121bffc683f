import Mathlib.Data.List.Pairwise
import StyleLang.Proofs.Syntax.Order
import StyleLang.Proofs.Syntax.Place

/-!
# Strays

Statements belong into items, bodies and branches; expressions belong to statements and operations.
A stray is a node of another kind at one of these places, if the way to it leads through nodes that
are where they belong. Nothing is asked of selectors. The strays of a tree are listed in the order
of its nodes. Main statements: the list holds the strays and nothing else, it starts with the one
that no other one is earlier than, and it is empty if every node outside selectors is placed.
-/

namespace StyleLang

namespace Step

/-- The edge leads to an item, or into a body or a branch. -/
def ToStatement : Step → Prop
  | item _ | body _ | elseBody _ => True
  | _ => False

/-- The edge leads to a condition, to the expression of a statement, or to an operand. -/
def ToExpression : Step → Prop
  | condition | expression | lhs | rhs => True
  | _ => False

theorem toStatement_or_toExpression {step : Step} (h : ∀ i, step ≠ selector i) :
    step.ToStatement ∨ step.ToExpression := by
  cases step with
  | selector i => exact absurd rfl (h i)
  | item | body | elseBody => exact .inl trivial
  | condition | expression | lhs | rhs => exact .inr trivial

end Step

namespace Node

/-! ## Places and kinds -/

def StatementKind : Node → Prop
  | rule _ _ _ | assignment _ _ _ | declaration _ _ _ | conditional _ _ _ _ => True
  | _ => False

def ExpressionKind : Node → Prop
  | literal _ _ | reference _ _ | operation _ _ _ _ => True
  | _ => False

def SelectorKind : Node → Prop
  | selector _ _ _ => True
  | _ => False

/-- The node is of a kind that belongs to the end of the edge. -/
def Suits (n : Node) : Step → Prop
  | .item _ | .body _ | .elseBody _ => n.StatementKind
  | .condition | .expression | .lhs | .rhs => n.ExpressionKind
  | .selector _ => n.SelectorKind

theorem suits_iff_statementKind {step : Step} (h : step.ToStatement) (n : Node) :
    n.Suits step ↔ n.StatementKind := by
  cases step <;> first | exact h.elim | exact Iff.rfl

theorem suits_iff_expressionKind {step : Step} (h : step.ToExpression) (n : Node) :
    n.Suits step ↔ n.ExpressionKind := by
  cases step <;> first | exact h.elim | exact Iff.rfl

/-! ## Strays on paths -/

/-- The node stands at the end of an edge, and a path leads from it to a stray. -/
inductive StrayFrom : Step → Node → Path → Node → Prop where
  | here {step : Step} {n : Node} (h : ¬ n.Suits step) : StrayFrom step n [] n
  | under {step next : Step} {n child m : Node} {path : Path} (hn : n.Suits step)
      (hchild : n.child? next = some child) (hnext : ∀ i, next ≠ .selector i)
      (h : StrayFrom next child path m) : StrayFrom step n (next :: path) m

variable {n e m : Node} {nodes : List Node} {step : Step} {path : Path}

theorem strayFrom_iff_of_not_suits (h : ¬ n.Suits step) :
    StrayFrom step n path m ↔ path = [] ∧ m = n := by
  constructor
  · intro hm
    cases hm with
    | here => exact ⟨rfl, rfl⟩
    | under hn => exact absurd hn h
  · rintro ⟨rfl, rfl⟩
    exact .here h

theorem strayFrom_iff_of_suits (h : n.Suits step) : StrayFrom step n path m ↔
    ∃ next child rest, path = next :: rest ∧ n.child? next = some child ∧
      (∀ i, next ≠ .selector i) ∧ StrayFrom next child rest m := by
  constructor
  · intro hm
    cases hm with
    | here hn => exact absurd h hn
    | under _ hchild hnext hm => exact ⟨_, _, _, rfl, hchild, hnext, hm⟩
  · rintro ⟨next, child, rest, rfl, hchild, hnext, hm⟩
    exact .under h hchild hnext hm

/-! ## Lists of strays -/

/-- The strays as seen from one edge further up. -/
def straysUnder (step : Step) (strays : List (Path × Node)) : List (Path × Node) :=
  strays.map fun stray => (step :: stray.1, stray.2)

/-- The strays of a node in the place of an expression. -/
def expressionStrays : Node → List (Path × Node)
  | literal _ _ => []
  | reference _ _ => []
  | operation _ _ lhs rhs =>
    straysUnder .lhs lhs.expressionStrays ++ straysUnder .rhs rhs.expressionStrays
  | node => [([], node)]

mutual

/-- The strays of a node in the place of a statement. -/
def statementStrays : Node → List (Path × Node)
  | assignment _ _ expression => straysUnder .expression expression.expressionStrays
  | declaration _ _ expression => straysUnder .expression expression.expressionStrays
  | conditional _ condition body elseBody =>
    straysUnder .condition condition.expressionStrays ++
      (blockStrays .body 0 body ++ elseStrays elseBody)
  | rule _ _ body => blockStrays .body 0 body
  | node => [([], node)]

/-- The strays of a block; `edge` leads to the statement at an index. -/
def blockStrays (edge : Nat → Step) (index : Nat) : List Node → List (Path × Node)
  | [] => []
  | n :: ns => straysUnder (edge index) n.statementStrays ++ blockStrays edge (index + 1) ns

/-- `blockStrays` for a branch that may be missing. -/
def elseStrays : Option (List Node) → List (Path × Node)
  | none => []
  | some nodes => blockStrays .elseBody 0 nodes

end

theorem mem_straysUnder {strays : List (Path × Node)} :
    (path, m) ∈ straysUnder step strays ↔ ∃ rest, path = step :: rest ∧ (rest, m) ∈ strays := by
  unfold straysUnder
  rw [List.mem_map]
  constructor
  · rintro ⟨⟨rest, m'⟩, hmem, heq⟩
    obtain ⟨rfl, rfl⟩ := Prod.mk.inj heq
    exact ⟨rest, rfl, hmem⟩
  · rintro ⟨rest, rfl, hmem⟩
    exact ⟨(rest, m), hmem, rfl⟩

mutual

theorem mem_expressionStrays : ∀ (e : Node) {step : Step} {path : Path}, step.ToExpression →
    ((path, m) ∈ e.expressionStrays ↔ StrayFrom step e path m)
  | literal _ _, step, path, hstep | reference _ _, step, path, hstep => by
    refine Iff.trans ?_ (Iff.symm (strayFrom_iff_of_suits
      ((suits_iff_expressionKind hstep _).2 trivial)))
    refine ⟨fun hm => absurd hm List.not_mem_nil, ?_⟩
    rintro ⟨next, child, rest, -, hchild, -⟩
    cases next <;> cases hchild
  | operation pos op lhs rhs, step, path, hstep => by
    have hsuits : (operation pos op lhs rhs).Suits step :=
      (suits_iff_expressionKind hstep _).2 trivial
    rw [strayFrom_iff_of_suits hsuits, expressionStrays, List.mem_append,
      mem_expressionUnder .lhs lhs trivial, mem_expressionUnder .rhs rhs trivial]
    constructor
    · rintro (⟨rest, rfl, hm⟩ | ⟨rest, rfl, hm⟩)
      · exact ⟨.lhs, lhs, rest, rfl, rfl, by simp, hm⟩
      · exact ⟨.rhs, rhs, rest, rfl, rfl, by simp, hm⟩
    · rintro ⟨next, child, rest, rfl, hchild, -, hm⟩
      cases next <;> cases hchild
      · exact .inl ⟨rest, rfl, hm⟩
      · exact .inr ⟨rest, rfl, hm⟩
  | selector _ _ _, step, path, hstep | declaration _ _ _, step, path, hstep
  | assignment _ _ _, step, path, hstep | conditional _ _ _ _, step, path, hstep
  | rule _ _ _, step, path, hstep | sheet _ _, step, path, hstep => by
    rw [strayFrom_iff_of_not_suits (mt (suits_iff_expressionKind hstep _).1 id), expressionStrays,
      List.mem_singleton, Prod.mk.injEq]
    all_goals simp

theorem mem_expressionUnder (step : Step) (e : Node) {path : Path} (hstep : step.ToExpression) :
    (path, m) ∈ straysUnder step e.expressionStrays ↔
      ∃ rest, path = step :: rest ∧ StrayFrom step e rest m := by
  rw [mem_straysUnder]
  exact exists_congr fun rest => and_congr_right fun _ => mem_expressionStrays e hstep

end

mutual

theorem mem_statementStrays : ∀ (n : Node) {step : Step} {path : Path}, step.ToStatement →
    ((path, m) ∈ n.statementStrays ↔ StrayFrom step n path m)
  | assignment _ _ e, step, path, hstep | declaration _ _ e, step, path, hstep => by
    refine Iff.trans ?_ (Iff.symm (strayFrom_iff_of_suits
      ((suits_iff_statementKind hstep _).2 trivial)))
    rw [statementStrays, mem_expressionUnder .expression e trivial]
    constructor
    · rintro ⟨rest, rfl, hm⟩
      exact ⟨.expression, e, rest, rfl, rfl, by simp, hm⟩
    · rintro ⟨next, child, rest, rfl, hchild, -, hm⟩
      cases next <;> cases hchild
      exact ⟨rest, rfl, hm⟩
  | rule pos selectors body, step, path, hstep => by
    have hsuits : (rule pos selectors body).Suits step :=
      (suits_iff_statementKind hstep _).2 trivial
    rw [strayFrom_iff_of_suits hsuits, statementStrays, mem_blockStrays .body fun _ => trivial]
    constructor
    · rintro ⟨i, n, rest, hn, rfl, hm⟩
      exact ⟨.body (0 + i), n, rest, rfl, by simpa [child?] using hn, by simp, hm⟩
    · rintro ⟨next, child, rest, rfl, hchild, hnext, hm⟩
      cases next with
      | body i => exact ⟨i, child, rest, hchild, by simp, by simpa using hm⟩
      | selector i => exact absurd rfl (hnext i)
      | _ => cases hchild
  | conditional pos c body elseBody, step, path, hstep => by
    have hsuits : (conditional pos c body elseBody).Suits step :=
      (suits_iff_statementKind hstep _).2 trivial
    rw [strayFrom_iff_of_suits hsuits, statementStrays, List.mem_append, List.mem_append,
      mem_expressionUnder .condition c trivial, mem_blockStrays .body fun _ => trivial,
      mem_elseStrays elseBody]
    constructor
    · rintro (⟨rest, rfl, hm⟩ | ⟨i, n, rest, hn, rfl, hm⟩ | ⟨i, n, rest, hn, rfl, hm⟩)
      · exact ⟨.condition, c, rest, rfl, by cases elseBody <;> rfl, by simp, hm⟩
      · exact ⟨.body (0 + i), n, rest, rfl, by cases elseBody <;> simpa [child?] using hn,
          by simp, hm⟩
      · exact ⟨.elseBody i, n, rest, rfl, by cases elseBody <;> exact hn, by simp, hm⟩
    · rintro ⟨next, child, rest, rfl, hchild, -, hm⟩
      cases next with
      | condition =>
        obtain rfl : c = child := by cases elseBody <;> exact Option.some.inj hchild
        exact .inl ⟨rest, rfl, hm⟩
      | body i =>
        have hn : body[i]? = some child := by cases elseBody <;> exact hchild
        exact .inr (.inl ⟨i, child, rest, hn, by simp, by simpa using hm⟩)
      | elseBody i =>
        have hn : (elseBody.bind fun nodes => nodes[i]?) = some child := by
          cases elseBody <;> exact hchild
        exact .inr (.inr ⟨i, child, rest, hn, rfl, hm⟩)
      | _ => cases elseBody <;> cases hchild
  | selector _ _ _, step, path, hstep | literal _ _, step, path, hstep
  | reference _ _, step, path, hstep | operation _ _ _ _, step, path, hstep
  | sheet _ _, step, path, hstep => by
    rw [strayFrom_iff_of_not_suits (mt (suits_iff_statementKind hstep _).1 id), statementStrays,
      List.mem_singleton, Prod.mk.injEq]
    all_goals simp

theorem mem_blockStrays (edge : Nat → Step) (hedge : ∀ i, (edge i).ToStatement) :
    ∀ {index : Nat} {nodes : List Node} {path : Path},
      ((path, m) ∈ blockStrays edge index nodes ↔ ∃ i n rest, nodes[i]? = some n ∧
        path = edge (index + i) :: rest ∧ StrayFrom (edge (index + i)) n rest m)
  | index, [], path => by
    refine ⟨fun hm => absurd hm List.not_mem_nil, ?_⟩
    rintro ⟨i, n, rest, hn, -⟩
    cases hn
  | index, n :: ns, path => by
    rw [blockStrays, List.mem_append, mem_straysUnder, mem_blockStrays edge hedge]
    constructor
    · rintro (⟨rest, rfl, hm⟩ | ⟨i, k, rest, hk, rfl, hm⟩)
      · exact ⟨0, n, rest, rfl, rfl, (mem_statementStrays n (hedge index)).1 hm⟩
      · rw [Nat.add_right_comm] at hm ⊢
        exact ⟨i + 1, k, rest, hk, rfl, hm⟩
    · rintro ⟨i, k, rest, hk, rfl, hm⟩
      cases i with
      | zero =>
        obtain rfl := Option.some.inj hk
        exact .inl ⟨rest, rfl, (mem_statementStrays n (hedge index)).2 hm⟩
      | succ i =>
        refine .inr ⟨i, k, rest, hk, ?_, ?_⟩
        · rw [Nat.add_right_comm]
          rfl
        · rw [Nat.add_right_comm]
          exact hm

theorem mem_elseStrays : ∀ (elseBody : Option (List Node)) {path : Path},
    ((path, m) ∈ elseStrays elseBody ↔ ∃ i n rest, (elseBody.bind fun nodes => nodes[i]?) = some n ∧
      path = .elseBody i :: rest ∧ StrayFrom (.elseBody i) n rest m)
  | none, path => by simp [elseStrays]
  | some nodes, path => by
    rw [elseStrays, mem_blockStrays .elseBody fun _ => trivial]
    simp only [Nat.zero_add, Option.bind_some]

end

/-! ## The order of strays -/

/-- The strays are in the order of the nodes, and have their turns at stages between the two given
ones. -/
structure StraysInOrder (first last : Nat) (strays : List (Path × Node)) : Prop where
  increasing : strays.Pairwise fun s t => s.1.Earlier t.1
  stages : ∀ s ∈ strays, first ≤ s.1.stage ∧ s.1.stage ≤ last

section InOrder

variable {first last : Nat} {strays : List (Path × Node)}

theorem straysInOrder_nil : StraysInOrder first last [] :=
  ⟨.nil, fun _ hs => absurd hs List.not_mem_nil⟩

theorem straysInOrder_self (n : Node) : StraysInOrder 2 2 [([], n)] := by
  refine ⟨List.pairwise_singleton _ _, fun s hs => ?_⟩
  rw [List.mem_singleton.1 hs]
  exact ⟨Nat.le_refl 2, Nat.le_refl 2⟩

theorem StraysInOrder.mono (h : StraysInOrder first last strays) {first' last' : Nat}
    (hfirst : first' ≤ first) (hlast : last ≤ last') : StraysInOrder first' last' strays :=
  ⟨h.increasing, fun s hs =>
    ⟨Nat.le_trans hfirst (h.stages s hs).1, Nat.le_trans (h.stages s hs).2 hlast⟩⟩

theorem StraysInOrder.under (h : StraysInOrder first last strays) (step : Step) :
    StraysInOrder step.stage step.stage (straysUnder step strays) := by
  refine ⟨List.pairwise_map.2 (h.increasing.imp fun hst => .inside step hst), fun s hs => ?_⟩
  obtain ⟨t, -, rfl⟩ := List.mem_map.1 hs
  exact ⟨Nat.le_refl _, Nat.le_refl _⟩

/-- Strays at later stages come afterwards. -/
theorem StraysInOrder.append {mid mid' : Nat} {strays' : List (Path × Node)}
    (h : StraysInOrder first mid strays) (h' : StraysInOrder mid' last strays') (hmid : mid < mid')
    (hfirst : first ≤ mid') (hlast : mid ≤ last) :
    StraysInOrder first last (strays ++ strays') := by
  refine ⟨List.pairwise_append.2 ⟨h.increasing, h'.increasing, fun s hs t ht => ?_⟩,
    fun s hs => ?_⟩
  · have hs := (h.stages s hs).2
    have ht := (h'.stages t ht).1
    exact .apart (.inl (by omega))
  · rcases List.mem_append.1 hs with hs | hs
    · exact (h.mono (Nat.le_refl _) hlast).stages s hs
    · exact (h'.mono hfirst (Nat.le_refl _)).stages s hs

end InOrder

theorem inOrder_expressionStrays : ∀ e : Node, StraysInOrder 0 2 e.expressionStrays
  | operation _ _ lhs rhs => by
    rw [expressionStrays]
    exact (((inOrder_expressionStrays lhs).under .lhs).append
      ((inOrder_expressionStrays rhs).under .rhs) Nat.zero_lt_one (Nat.zero_le _)
      (Nat.zero_le _)).mono (Nat.le_refl 0) (Nat.le_succ 1)
  | literal _ _ | reference _ _ => straysInOrder_nil
  | selector _ _ _ | declaration _ _ _ | assignment _ _ _ | conditional _ _ _ _ | rule _ _ _
  | sheet _ _ => (straysInOrder_self _).mono (Nat.zero_le 2) (Nat.le_refl 2)

theorem index_le_of_blockStrays {edge : Nat → Step} (hindex : ∀ i, (edge i).index = i)
    {index : Nat} {s : Path × Node} (hs : s ∈ blockStrays edge index nodes) :
    index ≤ s.1.index := by
  induction nodes generalizing index with
  | nil => exact absurd hs List.not_mem_nil
  | cons n ns ih =>
    rw [blockStrays] at hs
    rcases List.mem_append.1 hs with hs | hs
    · obtain ⟨t, -, rfl⟩ := List.mem_map.1 hs
      exact Nat.le_of_eq (hindex index).symm
    · exact Nat.le_of_succ_le (ih hs)

mutual

theorem inOrder_statementStrays : ∀ n : Node, StraysInOrder 0 4 n.statementStrays
  | assignment _ _ e | declaration _ _ e => by
    rw [statementStrays]
    exact ((inOrder_expressionStrays e).under .expression).mono (Nat.le_refl 0) (Nat.zero_le 4)
  | rule _ _ body => by
    rw [statementStrays]
    exact (inOrder_blockStrays .body (fun _ => rfl) (fun _ => rfl) 0 body).mono
      (Nat.zero_le 3) (Nat.le_succ 3)
  | conditional _ c body elseBody => by
    have hbody := inOrder_blockStrays .body (fun _ => rfl) (fun _ => rfl) 0 body
    rw [statementStrays]
    exact ((inOrder_expressionStrays c).under .condition).append
      (hbody.append (inOrder_elseStrays elseBody) (Nat.lt_succ_self 3) (Nat.le_succ 3)
        (Nat.le_succ 3))
      (Nat.zero_lt_succ 2) (Nat.zero_le _) (Nat.zero_le _)
  | selector _ _ _ | literal _ _ | reference _ _ | operation _ _ _ _ | sheet _ _ =>
    (straysInOrder_self _).mono (Nat.zero_le 2) (Nat.le_add_right 2 2)

theorem inOrder_blockStrays (edge : Nat → Step) {stage : Nat}
    (hstage : ∀ i, (edge i).stage = stage) (hindex : ∀ i, (edge i).index = i) (index : Nat) :
    ∀ nodes : List Node, StraysInOrder stage stage (blockStrays edge index nodes)
  | [] => straysInOrder_nil
  | n :: ns => by
    have hn := (inOrder_statementStrays n).under (edge index)
    have hns := inOrder_blockStrays edge hstage hindex (index + 1) ns
    rw [hstage] at hn
    rw [blockStrays]
    refine ⟨List.pairwise_append.2 ⟨hn.increasing, hns.increasing, fun s hs t ht => ?_⟩,
      fun s hs => (List.mem_append.1 hs).elim (hn.stages s) (hns.stages s)⟩
    have hstages : s.1.stage = t.1.stage := by
      have hs := hn.stages s hs
      have ht := hns.stages t ht
      omega
    have hlater := index_le_of_blockStrays hindex ht
    obtain ⟨u, -, rfl⟩ := List.mem_map.1 hs
    exact .apart (.inr ⟨hstages, Nat.lt_of_le_of_lt (Nat.le_of_eq (hindex index)) hlater⟩)

theorem inOrder_elseStrays : ∀ elseBody : Option (List Node),
    StraysInOrder 4 4 (elseStrays elseBody)
  | none => straysInOrder_nil
  | some nodes => inOrder_blockStrays .elseBody (fun _ => rfl) (fun _ => rfl) 0 nodes

end

/-- The first stray in the list is the one that no other one is earlier than. -/
theorem StraysInOrder.head?_iff {first last : Nat} {strays : List (Path × Node)}
    (h : StraysInOrder first last strays) : strays.head? = some (path, m) ↔
      (path, m) ∈ strays ∧ ∀ path' m', (path', m') ∈ strays → ¬ path'.Earlier path := by
  cases strays with
  | nil => simp
  | cons s rest =>
    have hs := (List.pairwise_cons.1 h.increasing).1
    rw [List.head?_cons, Option.some.injEq]
    constructor
    · rintro rfl
      refine ⟨List.mem_cons_self, fun path' m' hm' hearlier => ?_⟩
      rcases List.mem_cons.1 hm' with heq | hm'
      · obtain ⟨rfl, rfl⟩ := Prod.mk.inj heq
        exact Path.not_earlier_self _ hearlier
      · exact Path.not_earlier_self _ (hearlier.trans (hs _ hm'))
    · rintro ⟨hm, hnone⟩
      rcases List.mem_cons.1 hm with heq | hm
      · exact heq.symm
      · exact absurd (hs _ hm) (hnone _ _ List.mem_cons_self)

/-- A path leads from the node, at the end of an edge, to the first stray. -/
def FirstStrayFrom (step : Step) (n : Node) (path : Path) (m : Node) : Prop :=
  StrayFrom step n path m ∧ ∀ path' m', StrayFrom step n path' m' → ¬ path'.Earlier path

theorem head?_expressionStrays_iff (step : Step) (h : step.ToExpression) :
    e.expressionStrays.head? = some (path, m) ↔ e.FirstStrayFrom step path m := by
  rw [(inOrder_expressionStrays e).head?_iff]
  exact and_congr (mem_expressionStrays e h)
    (forall₂_congr fun _ _ => imp_congr_left (mem_expressionStrays e h))

/-! ## Placed nodes -/

/-- A literal, a reference, or an operation on such. -/
def PlacedExpression : Node → Prop
  | literal _ _ => True
  | reference _ _ => True
  | operation _ _ lhs rhs => lhs.PlacedExpression ∧ rhs.PlacedExpression
  | _ => False

mutual

/-- A statement with placed expressions and blocks. -/
def PlacedStatement : Node → Prop
  | assignment _ _ expression => expression.PlacedExpression
  | declaration _ _ expression => expression.PlacedExpression
  | conditional _ condition body elseBody =>
    condition.PlacedExpression ∧ PlacedBlock body ∧ PlacedElse elseBody
  | rule _ _ body => PlacedBlock body
  | _ => False

/-- `PlacedStatement`, member by member. -/
def PlacedBlock : List Node → Prop
  | [] => True
  | node :: nodes => node.PlacedStatement ∧ PlacedBlock nodes

/-- `PlacedBlock` for a branch that may be missing. -/
def PlacedElse : Option (List Node) → Prop
  | none => True
  | some nodes => PlacedBlock nodes

end

theorem placedBlock_iff {nodes : List Node} :
    PlacedBlock nodes ↔ ∀ node ∈ nodes, node.PlacedStatement := by
  induction nodes with
  | nil => exact ⟨fun _ node hn => (List.not_mem_nil hn).elim, fun _ => trivial⟩
  | cons node nodes ih => rw [PlacedBlock, ih, List.forall_mem_cons]

theorem PlacedBlock.getElem? {nodes : List Node} (h : PlacedBlock nodes) {i : Nat} {n : Node}
    (hn : nodes[i]? = some n) : n.PlacedStatement :=
  placedBlock_iff.1 h n (List.mem_of_getElem? hn)

/-- There are only expressions in an expression. -/
theorem PlacedExpression.at? {e : Node} (h : e.PlacedExpression) {path : Path} {n : Node}
    (hn : e.at? path = some n) : n.PlacedExpression := by
  induction path generalizing e with
  | nil =>
    obtain rfl := Option.some.inj hn
    exact h
  | cons step path ih =>
    obtain ⟨child, hchild, hat⟩ := Option.bind_eq_some_iff.1 hn
    cases e with
    | operation pos op lhs rhs =>
      cases step <;> try cases hchild
      · exact ih h.1 hat
      · exact ih h.2 hat
    | literal => cases step <;> cases hchild
    | reference => cases step <;> cases hchild
    | _ => exact h.elim

theorem straysUnder_eq_nil_iff {strays : List (Path × Node)} :
    straysUnder step strays = [] ↔ strays = [] := List.map_eq_nil_iff

theorem expressionStrays_eq_nil_iff : ∀ {e : Node}, e.expressionStrays = [] ↔ e.PlacedExpression
  | literal _ _ | reference _ _ => ⟨fun _ => trivial, fun _ => rfl⟩
  | operation _ _ lhs rhs => by
    rw [expressionStrays, PlacedExpression, List.append_eq_nil_iff, straysUnder_eq_nil_iff,
      straysUnder_eq_nil_iff, expressionStrays_eq_nil_iff, expressionStrays_eq_nil_iff]
  | selector _ _ _ | declaration _ _ _ | assignment _ _ _ | conditional _ _ _ _ | rule _ _ _
  | sheet _ _ => ⟨nofun, False.elim⟩

mutual

theorem statementStrays_eq_nil_iff : ∀ {n : Node}, n.statementStrays = [] ↔ n.PlacedStatement
  | assignment _ _ e | declaration _ _ e => by
    rw [statementStrays, PlacedStatement, straysUnder_eq_nil_iff, expressionStrays_eq_nil_iff]
  | conditional _ c body elseBody => by
    rw [statementStrays, PlacedStatement, List.append_eq_nil_iff, List.append_eq_nil_iff,
      straysUnder_eq_nil_iff, expressionStrays_eq_nil_iff, blockStrays_eq_nil_iff,
      elseStrays_eq_nil_iff]
  | rule _ _ body => by rw [statementStrays, PlacedStatement, blockStrays_eq_nil_iff]
  | selector _ _ _ | literal _ _ | reference _ _ | operation _ _ _ _ | sheet _ _ =>
    ⟨nofun, False.elim⟩

theorem blockStrays_eq_nil_iff {edge : Nat → Step} : ∀ {index : Nat} {nodes : List Node},
    blockStrays edge index nodes = [] ↔ PlacedBlock nodes
  | _, [] => ⟨fun _ => trivial, fun _ => rfl⟩
  | _, n :: ns => by
    rw [blockStrays, PlacedBlock, List.append_eq_nil_iff, straysUnder_eq_nil_iff,
      statementStrays_eq_nil_iff, blockStrays_eq_nil_iff]

theorem elseStrays_eq_nil_iff : ∀ {elseBody : Option (List Node)},
    elseStrays elseBody = [] ↔ PlacedElse elseBody
  | none => ⟨fun _ => trivial, fun _ => rfl⟩
  | some nodes => by rw [elseStrays, PlacedElse, blockStrays_eq_nil_iff]

end

end Node

/-! ## Whole trees -/

namespace Stylesheet

/-- Every node of the tree outside selectors is at a place where it belongs. -/
def Placed (sheet : Stylesheet) : Prop := Node.PlacedBlock sheet.items

/-- The strays of the tree, with their paths. -/
def strays (sheet : Stylesheet) : List (Path × Node) := Node.blockStrays .item 0 sheet.items

/-- The node is a stray at the end of the path. -/
def StrayAt (sheet : Stylesheet) (path : Path) (m : Node) : Prop :=
  ∃ i item rest, sheet.items[i]? = some item ∧ path = .item i :: rest ∧
    item.StrayFrom (.item i) rest m

/-- The node is the first stray in the order of the nodes. -/
def FirstStrayAt (sheet : Stylesheet) (path : Path) (m : Node) : Prop :=
  sheet.StrayAt path m ∧ ∀ path' m', sheet.StrayAt path' m' → ¬ path'.Earlier path

variable {sheet : Stylesheet} {path : Path} {m : Node}

theorem mem_strays_iff : (path, m) ∈ sheet.strays ↔ sheet.StrayAt path m := by
  unfold strays StrayAt
  rw [Node.mem_blockStrays .item fun _ => trivial]
  simp only [Nat.zero_add]

theorem strays_eq_nil_iff : sheet.strays = [] ↔ sheet.Placed := Node.blockStrays_eq_nil_iff

theorem placed_iff_forall_not_strayAt : sheet.Placed ↔ ∀ path m, ¬ sheet.StrayAt path m := by
  rw [← strays_eq_nil_iff, List.eq_nil_iff_forall_not_mem]
  exact ⟨fun h path m hm => h _ (mem_strays_iff.2 hm), fun h s hs => h _ _ (mem_strays_iff.1 hs)⟩

/-- The list of strays starts with the one that no other one is earlier than. -/
theorem head?_strays_iff : sheet.strays.head? = some (path, m) ↔ sheet.FirstStrayAt path m := by
  have hinOrder := Node.inOrder_blockStrays .item (fun _ => rfl) (fun _ => rfl) 0 sheet.items
  rw [strays, hinOrder.head?_iff]
  exact and_congr mem_strays_iff
    (forall₂_congr fun _ _ => imp_congr_left mem_strays_iff)

end Stylesheet

end StyleLang
