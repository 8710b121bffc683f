import StyleLang.Proofs.Grammar.Replacing
import StyleLang.Proofs.Pass.Arrival
import StyleLang.Proofs.Pass.Equations
import StyleLang.Proofs.Pass.Isolation

/-!
# Folding ahead

An expression may be folded before the run that would fold it. Main statement: with the literal that
an expression folds to in its place, wherever the evaluator reaches one, the evaluated tree is the
same, and of the defects only those inside the expression are missing.
-/

namespace StyleLang

variable {α β : Type}

/-! ## Findings inside a node -/

/-- The finding is about the node at the end of the path or about one below it. -/
def Finding.Inside (target : Path) (f : Finding) : Prop := target <+: f.path

instance (target : Path) (f : Finding) : Decidable (f.Inside target) :=
  inferInstanceAs (Decidable (target <+: f.path))

/-- The findings about other nodes than the one at the end of the path and those below it. -/
def Finding.outside (target : Path) (fs : List Finding) : List Finding :=
  fs.filter fun f => ¬ f.Inside target

namespace Report

variable {target : Path} {step : Step}

/-- The report finds nothing inside the node. -/
def Beside (target : Path) (r : Report α) : Prop := ∀ f ∈ r.findings, ¬ f.Inside target

theorem beside_ok (a : α) : (ok a).Beside target := fun _ hf => absurd hf List.not_mem_nil

theorem beside_note (severity : Severity) (pos : Position) (problem : Problem) :
    (note severity pos problem).Beside (step :: target) := by
  intro f hf hin
  rw [List.mem_singleton.1 hf] at hin
  exact absurd (List.prefix_nil.1 hin) (List.cons_ne_nil _ _)

/-- What is found at the node above or at the end of another edge is not inside the node. -/
theorem Near.beside {s : Step} {r : Report α} (h : r.Near s) (hne : s ≠ step) :
    r.Beside (step :: target) := by
  intro f hf hin
  unfold Finding.Inside at hin
  rcases h f hf with hpath | ⟨rest, hpath⟩
  · rw [hpath] at hin
    exact absurd (List.prefix_nil.1 hin) (List.cons_ne_nil _ _)
  · rw [hpath] at hin
    exact hne (List.cons_prefix_cons.1 hin).1.symm

theorem beside_under {s : Step} (hne : s ≠ step) (r : Report α) :
    (r.under s).Beside (step :: target) := (near_under r).beside hne

theorem Beside.andThen {r : Report α} {next : α → Report β} (h : r.Beside target)
    (hn : ∀ a, (next a).Beside target) : (r.andThen next).Beside target := by
  obtain ⟨findings, _ | a⟩ := r
  · exact h
  · exact fun f hf => (List.mem_append.1 hf).elim (h f) (hn a f)

/-- The report without what it finds inside a node. -/
def dropping (target : Path) (r : Report α) : Report α :=
  { r with findings := Finding.outside target r.findings }

theorem dropping_ok (a : α) : (ok a).dropping target = ok a := rfl

theorem dropping_nil {r : Report α} {a : α} (h : r.result = .ok a) : r.dropping [] = ok a := by
  have hnone : Finding.outside [] r.findings = [] :=
    List.filter_eq_nil_iff.2 fun f _ => by simp [Finding.Inside]
  unfold dropping
  rw [hnone, h]
  rfl

theorem dropping_andThen (r : Report α) (next : α → Report β) :
    (r.andThen next).dropping target =
      (r.dropping target).andThen fun a => (next a).dropping target := by
  obtain ⟨findings, _ | a⟩ := r
  · rfl
  · simp [dropping, andThen, Finding.outside]

theorem dropping_under (r : Report α) :
    (r.under step).dropping (step :: target) = (r.dropping target).under step := by
  have hmap : Finding.outside (step :: target) (r.findings.map (Finding.under step)) =
      (Finding.outside target r.findings).map (Finding.under step) := by
    unfold Finding.outside
    rw [List.filter_map]
    congr 2
    funext f
    refine decide_eq_decide.2 (not_congr ?_)
    unfold Finding.Inside
    rw [Finding.under_path, List.cons_prefix_cons]
    exact and_iff_right rfl
  unfold dropping under
  dsimp only
  rw [hmap]

/-- What is not found inside the node stays. -/
theorem Beside.dropping {r : Report α} (h : r.Beside target) : r.dropping target = r := by
  have hall : Finding.outside target r.findings = r.findings :=
    List.filter_eq_self.2 fun f hf => decide_eq_true (h f hf)
  unfold Report.dropping
  rw [hall]

theorem dropping_under_of_ne {s : Step} (hne : s ≠ step) (r : Report α) :
    (r.under s).dropping (step :: target) = r.under s := (beside_under hne r).dropping

theorem dropping_near {s : Step} (hne : s ≠ step) {r : Report α} (h : r.Near s) :
    r.dropping (step :: target) = r := (h.beside hne).dropping

end Report

namespace Evaluate

open Report

variable {values : Env Constant} {n : Node}

/-! ## Expressions -/

theorem beside_operation {step : Step} {target : Path} (pos : Position) (op : Operator)
    (left right : Constant) : (operation pos op left right).Beside (step :: target) := by
  unfold operation
  split
  · exact beside_ok _
  · exact (beside_note _ _ _).andThen fun _ => beside_ok _

theorem dropping_operation (step : Step) (target : Path) (pos : Position) (op : Operator)
    (left right : Constant) :
    (operation pos op left right).dropping (step :: target) = operation pos op left right :=
  (beside_operation pos op left right).dropping

/-- In an expression that folds, a part of it folds, and may be folded ahead. -/
theorem exists_fold_graft {path : Path} {e : Node} {c' : Constant} (hat : e.at? path = some n)
    (h : (fold values e).result = .ok c') :
    ∃ c, (fold values n).result = .ok c ∧
      fold values (e.graft path c.toNode) = (fold values e).dropping path := by
  induction path generalizing e c' with
  | nil =>
    obtain rfl := Option.some.inj hat
    exact ⟨c', h, (dropping_nil h).symm⟩
  | cons step path ih =>
    obtain ⟨child, hchild, hat⟩ := Option.bind_eq_some_iff.1 hat
    cases e with
    | operation pos op lhs rhs =>
      rw [fold_operation] at h
      obtain ⟨left, hleft, h⟩ := exists_of_andThen h
      obtain ⟨right, hright, -⟩ := exists_of_andThen h
      cases step with
      | lhs =>
        obtain rfl := Option.some.inj hchild
        obtain ⟨c, hc, hgraft⟩ := ih hat hleft
        refine ⟨c, hc, ?_⟩
        have hother : Step.rhs ≠ .lhs := by simp
        rw [Node.graft_cons, Node.alter, Option.getD_some, fold_operation, fold_operation, hgraft]
        simp only [dropping_andThen, dropping_under, dropping_under_of_ne hother,
          dropping_operation]
      | rhs =>
        obtain rfl := Option.some.inj hchild
        obtain ⟨c, hc, hgraft⟩ := ih hat hright
        refine ⟨c, hc, ?_⟩
        have hother : Step.lhs ≠ .rhs := by simp
        rw [Node.graft_cons, Node.alter, Option.getD_some, fold_operation, fold_operation, hgraft]
        simp only [dropping_andThen, dropping_under, dropping_under_of_ne hother,
          dropping_operation]
      | _ => cases hchild
    | literal => cases step <;> cases hchild
    | reference => cases step <;> cases hchild
    | _ => cases h

/-! ## Blocks -/

/-- All that is found in a block is found at the ends of its edges. -/
theorem dropping_block {edge : Nat → Step} {step : Step} {target : Path} {index : Nat}
    (hne : ∀ j, index ≤ j → edge j ≠ step) (nodes : List Node) :
    (Lexical.block edge index nodes values).dropping (step :: target) =
      Lexical.block edge index nodes values := by
  induction nodes generalizing index values with
  | nil =>
    rw [Lexical.block]
    rfl
  | cons n ns ih =>
    have hrest : ∀ mid, (Lexical.block edge (index + 1) ns mid).dropping (step :: target) =
        Lexical.block edge (index + 1) ns mid := fun mid =>
      ih fun j hj => hne j (Nat.le_of_succ_le hj)
    simp only [block_cons, dropping_andThen, hrest, dropping_ok,
      dropping_under_of_ne (hne index (Nat.le_refl index))]

theorem dropping_childBlock {edge : Nat → Step} {step : Step} {target : Path}
    (hne : ∀ j, edge j ≠ step) (nodes : List Node) :
    ((Lexical.block edge 0 nodes).child values).dropping (step :: target) =
      (Lexical.block edge 0 nodes).child values := by
  unfold Passing.child
  rw [dropping_andThen, dropping_block fun j _ => hne j]
  rfl

section Members

variable {edge : Nat → Step} {index i : Nat} {nodes : List Node} {child : Node}
  {mid : Env Constant}

/-- A statement of a block, replaced by one that does the same but for what is found inside a
node. -/
theorem block_alterAt (hedge : Step.BlockEdge edge) {f : Node → Option Node} {child' : Node}
    {target : Path} (hchild : nodes[i]? = some child)
    (hafter : after (nodes.take i) values = some mid) (hf : f child = some child')
    (h : Lexical.statement child' mid = (Lexical.statement child mid).dropping target) :
    Lexical.block edge index (Node.alterAt f i nodes) values =
      (Lexical.block edge index nodes values).dropping (edge (index + i) :: target) := by
  induction nodes generalizing index i values with
  | nil => cases hchild
  | cons n ns ih =>
    cases i with
    | zero =>
      obtain rfl := Option.some.inj hchild
      obtain rfl := Option.some.inj hafter
      have hlater : ∀ j, index + 1 ≤ j → edge j ≠ edge index := fun j hj =>
        hedge.ne (Nat.ne_of_gt hj)
      rw [Node.alterAt, hf, Option.toList_some, List.singleton_append, block_cons, block_cons, h]
      simp only [Nat.add_zero, dropping_andThen, dropping_under, dropping_block hlater,
        dropping_ok]
    | succ i =>
      have hearlier : edge index ≠ edge (index + (i + 1)) := hedge.ne (by omega)
      rw [Node.alterAt, block_cons, block_cons, dropping_andThen, dropping_under_of_ne hearlier]
      refine andThen_congr fun first hfirst => ?_
      have hfirst' : (Lexical.statement n values).result = .ok first := hfirst
      rw [List.take_succ_cons, after, hfirst'] at hafter
      rw [ih hchild hafter, dropping_andThen, Nat.add_right_comm, Nat.add_assoc]
      rfl

end Members

/-! ## Statements -/

theorem beside_truth {step : Step} {target : Path} (pos : Position) (c : Constant) :
    (truth pos c).Beside (step :: target) := by
  unfold truth
  split
  · exact beside_ok _
  · exact (beside_note _ _ _).andThen fun _ => beside_ok _

theorem dropping_truth (step : Step) (target : Path) (pos : Position) (c : Constant) :
    (truth pos c).dropping (step :: target) = truth pos c := (beside_truth pos c).dropping

theorem dropping_branch {step : Step} {target : Path} (hbody : ∀ j, .body j ≠ step)
    (helse : ∀ j, .elseBody j ≠ step) (body : List Node) (elseBody : Option (List Node))
    (b : Bool) : (branch body elseBody b values).dropping (step :: target) =
      branch body elseBody b values := by
  cases b with
  | true => exact dropping_childBlock hbody body
  | false =>
    cases elseBody with
    | none => rfl
    | some elseBody => exact dropping_childBlock helse elseBody

/-- An expression of a statement, or a part of it, may be folded ahead. -/
theorem exists_graft_expression {step : Step} {path : Path} {m : Node}
    {r : List Node × Env Constant} (hat : n.at? (step :: path) = some m)
    (hstep : step = .expression ∨ step = .condition)
    (h : (Lexical.statement n values).result = .ok r) :
    ∃ c, (fold values m).result = .ok c ∧
      Lexical.statement (n.graft (step :: path) c.toNode) values =
        (Lexical.statement n values).dropping (step :: path) := by
  obtain ⟨child, hchild, hat⟩ := Option.bind_eq_some_iff.1 hat
  cases n with
  | declaration pos property e =>
    rw [statement_declaration] at h
    obtain ⟨c', hc', -⟩ := exists_of_andThen h
    cases step with
    | expression =>
      obtain rfl := Option.some.inj hchild
      obtain ⟨c, hc, hgraft⟩ := exists_fold_graft hat hc'
      refine ⟨c, hc, ?_⟩
      rw [Node.graft_cons, Node.alter, Option.getD_some, statement_declaration,
        statement_declaration, hgraft]
      simp only [dropping_andThen, dropping_under, dropping_ok]
    | _ => cases hchild
  | assignment pos name e =>
    rw [statement_assignment] at h
    obtain ⟨c', hc', -⟩ := exists_of_andThen h
    cases step with
    | expression =>
      obtain rfl := Option.some.inj hchild
      obtain ⟨c, hc, hgraft⟩ := exists_fold_graft hat hc'
      refine ⟨c, hc, ?_⟩
      rw [Node.graft_cons, Node.alter, Option.getD_some, statement_assignment,
        statement_assignment, hgraft]
      simp only [dropping_andThen, dropping_under, dropping_ok]
    | _ => cases hchild
  | conditional pos e body elseBody =>
    rw [statement_conditional, choose_eq] at h
    obtain ⟨b, hb, -⟩ := exists_of_andThen h
    obtain ⟨c', hc', -⟩ := exists_of_andThen hb
    rcases hstep with rfl | rfl
    · cases elseBody <;> cases hchild
    have hchild : some e = some child := by cases elseBody <;> exact hchild
    obtain rfl := Option.some.inj hchild
    obtain ⟨c, hc, hgraft⟩ := exists_fold_graft hat hc'
    refine ⟨c, hc, ?_⟩
    have hchoose : choose values pos (e.graft path c.toNode) =
        (choose values pos e).dropping (.condition :: path) := by
      rw [choose_eq, choose_eq, hgraft]
      simp only [dropping_andThen, dropping_under, dropping_truth]
    have hbranch := fun b => @dropping_branch values .condition path (fun _ => by simp)
      (fun _ => by simp) body elseBody b
    rw [Node.graft_cons, Node.alter, Option.getD_some, statement_conditional,
      statement_conditional, hchoose]
    simp only [dropping_andThen, hbranch]
  | rule => rcases hstep with rfl | rfl <;> cases hchild
  | _ => cases h

section Blocks

variable {edge : Nat → Step} {nodes : List Node} {i : Nat} {child m : Node}
  {mid inner : Env Constant} {path : Path}

/-- If an expression in a statement of a block may be folded ahead, it may be so in the block. -/
theorem exists_graft_block {r : List Node × Env Constant} (hedge : Step.BlockEdge edge)
    (hchild : nodes[i]? = some child) (hafter : after (nodes.take i) values = some mid)
    (h : (Lexical.block edge 0 nodes values).result = .ok r)
    (hgraft : ∀ {r}, (Lexical.statement child mid).result = .ok r →
      ∃ c, (fold inner m).result = .ok c ∧ Lexical.statement (child.graft path c.toNode) mid =
        (Lexical.statement child mid).dropping path) :
    ∃ c, (fold inner m).result = .ok c ∧
      Lexical.block edge 0 (Node.alterAt (fun n => some (n.graft path c.toNode)) i nodes) values =
        (Lexical.block edge 0 nodes values).dropping (edge i :: path) := by
  obtain ⟨mid', r', hafter', hr'⟩ := exists_after_of_block hchild h
  obtain rfl := Option.some.inj (hafter.symm.trans hafter')
  obtain ⟨c, hc, hstatement⟩ := hgraft hr'
  have hblock : Lexical.block edge 0
      (Node.alterAt (fun n => some (n.graft path c.toNode)) i nodes) values =
        (Lexical.block edge 0 nodes values).dropping (edge (0 + i) :: path) :=
    block_alterAt hedge hchild hafter rfl hstatement
  rw [Nat.zero_add] at hblock
  exact ⟨c, hc, hblock⟩

theorem exists_graft_childBlock {r : List Node × Env Constant} (hedge : Step.BlockEdge edge)
    (hchild : nodes[i]? = some child) (hafter : after (nodes.take i) values = some mid)
    (h : ((Lexical.block edge 0 nodes).child values).result = .ok r)
    (hgraft : ∀ {r}, (Lexical.statement child mid).result = .ok r →
      ∃ c, (fold inner m).result = .ok c ∧ Lexical.statement (child.graft path c.toNode) mid =
        (Lexical.statement child mid).dropping path) :
    ∃ c, (fold inner m).result = .ok c ∧
      (Lexical.block edge 0
          (Node.alterAt (fun n => some (n.graft path c.toNode)) i nodes)).child values =
        ((Lexical.block edge 0 nodes).child values).dropping (edge i :: path) := by
  obtain ⟨_, hblock, -⟩ := exists_of_andThen h
  obtain ⟨c, hc, hgrafted⟩ := exists_graft_block hedge hchild hafter hblock hgraft
  refine ⟨c, hc, ?_⟩
  unfold Passing.child
  rw [hgrafted, dropping_andThen]
  rfl

end Blocks

/-- Wherever the evaluator arrives at a statement, an expression of it may be folded ahead. -/
theorem Arrives.exists_graft {start : Env Constant} {site : Path} (h : Arrives n start site values)
    {step : Step} {path : Path} {m : Node} {r : List Node × Env Constant}
    (hat : n.at? (site ++ step :: path) = some m) (hstep : step = .expression ∨ step = .condition)
    (hr : (Lexical.statement n start).result = .ok r) :
    ∃ c, (fold values m).result = .ok c ∧
      Lexical.statement (n.graft (site ++ step :: path) c.toNode) start =
        (Lexical.statement n start).dropping (site ++ step :: path) := by
  induction h generalizing r with
  | here n values => exact exists_graft_expression hat hstep hr
  | @into n child start mid values edge nodes i site htakes hchild hafter _ ih =>
    rw [List.cons_append, htakes.at?_cons hchild] at hat
    cases htakes with
    | items => cases hr
    | rule =>
      rw [statement_rule] at hr
      obtain ⟨_, hbody, -⟩ := exists_of_andThen hr
      obtain ⟨c, hc, hgraft⟩ :=
        exists_graft_childBlock (.inr (.inl rfl)) hchild hafter hbody (ih hat)
      refine ⟨c, hc, ?_⟩
      rw [List.cons_append, Node.graft_cons, Node.alter, statement_rule, statement_rule, hgraft,
        dropping_andThen]
      rfl
    | @thenBranch pos e _ elseBody hchoose =>
      rw [statement_conditional] at hr
      obtain ⟨b, hb, hbody⟩ := exists_of_andThen hr
      obtain rfl := Except.ok.inj (hchoose.symm.trans hb)
      obtain ⟨c, hc, hgraft⟩ :=
        exists_graft_childBlock (.inr (.inl rfl)) hchild hafter hbody (ih hat)
      refine ⟨c, hc, ?_⟩
      rw [List.cons_append, Node.graft_cons, Node.alter, statement_conditional,
        statement_conditional, dropping_andThen,
        dropping_near (by simp) (near_choose start pos e)]
      refine andThen_congr fun b hb => ?_
      obtain rfl := Except.ok.inj (hchoose.symm.trans hb)
      exact hgraft
    | @elseBranch pos e body _ hchoose =>
      rw [statement_conditional] at hr
      obtain ⟨b, hb, helse⟩ := exists_of_andThen hr
      obtain rfl := Except.ok.inj (hchoose.symm.trans hb)
      obtain ⟨c, hc, hgraft⟩ :=
        exists_graft_childBlock (.inr (.inr rfl)) hchild hafter helse (ih hat)
      refine ⟨c, hc, ?_⟩
      rw [List.cons_append, Node.graft_cons, Node.alter, statement_conditional,
        statement_conditional, dropping_andThen,
        dropping_near (by simp) (near_choose start pos e)]
      refine andThen_congr fun b hb => ?_
      obtain rfl := Except.ok.inj (hchoose.symm.trans hb)
      exact hgraft

end Evaluate

/-! ## Whole trees -/

namespace Stylesheet

open Evaluate

/-- A run of the evaluator reaches the expression at the end of the path, where the names stand for
the literals: it looks names up in the statement that the expression stands in. -/
def Reaches (sheet : Stylesheet) (path : Path) (n : Node) (values : Env Constant) : Prop :=
  sheet.toNode.at? path = some n ∧ ∃ site step rest, path = site ++ step :: rest ∧
    (step = .expression ∨ step = .condition) ∧ (site, values) ∈ sheet.readings

variable {sheet : Stylesheet} {path : Path} {n : Node} {values : Env Constant}

/-- **Folding ahead.** An expression that the evaluator reaches folds to a literal there. With that
literal in its place the evaluated tree is the same, and of the defects those inside the expression
are missing. -/
theorem folding_ahead {e : Evaluation} (he : sheet.evaluate = .ok e)
    (h : sheet.Reaches path n values) : ∃ c, (fold values n).result = .ok c ∧
      (sheet.graft path c.toNode).evaluate =
        .ok { stylesheet := e.stylesheet, defects := Finding.outside path e.defects } := by
  obtain ⟨hat, site, step, rest, rfl, hstep, hreading⟩ := h
  obtain ⟨items, values', hreport, hleft⟩ := evaluate_ok_iff.1 he
  cases arrives_of_readings hreading with
  | here => rcases hstep with rfl | rfl <;> cases hat
  | into htakes hchild hafter harrives =>
    rw [List.cons_append, htakes.at?_cons hchild] at hat
    cases htakes with
    | items =>
      obtain ⟨c, hc, hgraft⟩ := exists_graft_block (.inl rfl) hchild hafter
        (congrArg Report.result hreport) (harrives.exists_graft hat hstep)
      refine ⟨c, hc, evaluate_ok_iff.2 ⟨items, values', ?_, hleft⟩⟩
      refine hgraft.trans ?_
      rw [← evaluateReport, hreport]
      rfl

/-- The product of an unknown variable and a length is a length of zero. With that length in its
place the sum around it still has wrong operands, and the variable is missed no more. -/
theorem folding_ahead_product :
    let sheet (operand : Node) : Stylesheet :=
      { items := [.rule {} [.selector {} .tag "p"]
          [.declaration {} "width" (.operation {} .add operand (.literal {} (.bool true)))]] }
    let product : Node :=
      .operation {} .multiply (.reference {} "Nope") (.literal {} (.number .pixel 3))
    let evaluated : Stylesheet :=
      { items := [.rule {} [.selector {} .tag "p"]
          [.declaration {} "width" (.literal {} (.number .scalar 0))]] }
    let path : Path := [.item 0, .body 0, .expression]
    let unknown : Finding :=
      { severity := .defect, problem := .unknownVariable "Nope", path := path ++ [.lhs, .lhs] }
    let operands : Finding :=
      { severity := .defect, problem := .operands (.mixedTerms (.number .pixel) "+" .bool), path }
    (sheet product).evaluate = .ok ⟨evaluated, [unknown, operands]⟩ ∧
      (sheet product).Reaches (path ++ [.lhs]) product .empty ∧
      (sheet (.literal {} (.number .pixel 0))).evaluate = .ok ⟨evaluated, [operands]⟩ := by
  intro sheet product evaluated path unknown operands
  have he : (sheet product).evaluate = .ok ⟨evaluated, [unknown, operands]⟩ := rfl
  have hreading : ([.item 0, .body 0], ScopeStack.lookup ⟨[{}, {}]⟩) ∈ (sheet product).readings :=
    List.mem_of_getElem? (i := 0) rfl
  rw [ScopeStack.lookup_copy, ScopeStack.lookup_fresh] at hreading
  have hreaches : (sheet product).Reaches (path ++ [.lhs]) product .empty :=
    ⟨rfl, [.item 0, .body 0], .expression, [.lhs], rfl, .inl rfl, hreading⟩
  obtain ⟨c, hc, h⟩ := folding_ahead he hreaches
  obtain rfl := Except.ok.inj hc
  exact ⟨he, hreaches, h⟩

end Stylesheet

end StyleLang
