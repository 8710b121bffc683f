import Mathlib.Data.List.Forall2
import StyleLang.Proofs.Pass.Matching
import StyleLang.Proofs.Pass.Selection
import StyleLang.Proofs.Pass.Session
import StyleLang.Proofs.Syntax.Agreement

/-!
# Dead branches

A branch of a conditional is dead if a run of the evaluator does not select it: the other branch is
taken, or the run never comes to the conditional. Main statement: two trees that agree outside the
branches that are dead in the first one are evaluated alike, with the same defects, or stopped both,
whatever the other one holds in their place. A branch can be told only where a node is dealt with as
a whole: in a selector, which is kept as it is, and in a node that is shown because it is misplaced.
-/

namespace StyleLang

/-- Every branch of a conditional that the path leads into is one of the chosen ones. -/
def Node.ThroughChosen (n : Node) (chosen : Path → Node → Step → Prop) (path : Path) : Prop :=
  ∀ outer step rest, path = outer ++ step :: rest → step.IntoBlock → ∀ pos c body elseBody,
    n.at? outer = some (.conditional pos c body elseBody) → chosen outer c step

namespace Stylesheet

/-- The path leads into branches only that a run of the evaluator selects. -/
def Alive (sheet : Stylesheet) (path : Path) : Prop :=
  sheet.toNode.ThroughChosen sheet.Selects path

/-- The path leads into no branch. -/
def OutsideBranches (sheet : Stylesheet) (path : Path) : Prop :=
  sheet.toNode.ThroughChosen (fun _ _ _ => False) path

end Stylesheet

namespace Node.ThroughChosen

variable {n child : Node} {chosen chosen' : Path → Node → Step → Prop} {step : Step} {path : Path}

theorem nil : n.ThroughChosen chosen [] := by
  intro outer step rest heq
  cases outer <;> cases heq

theorem cons (hhere : step.IntoBlock → ∀ pos c body elseBody,
      n = .conditional pos c body elseBody → chosen [] c step)
    (hbelow : ∀ child, n.child? step = some child →
      child.ThroughChosen (fun outer => chosen (step :: outer)) path) :
    n.ThroughChosen chosen (step :: path) := by
  intro outer step' rest heq hstep pos c body elseBody hat
  cases outer with
  | nil =>
    obtain ⟨rfl, rfl⟩ := List.cons.inj heq
    exact hhere hstep pos c body elseBody (Option.some.inj hat)
  | cons s outer =>
    obtain ⟨rfl, rfl⟩ := List.cons.inj heq
    rw [at?_cons] at hat
    obtain ⟨child, hchild, hat⟩ := Option.bind_eq_some_iff.1 hat
    exact hbelow child hchild outer step' rest rfl hstep pos c body elseBody hat

theorem trivial : n.ThroughChosen (fun _ _ _ => True) path := fun _ _ _ _ _ _ _ _ _ _ => ⟨⟩

/-- An edge that leads into no block leads into no branch. -/
theorem cons_outside (hstep : ¬ step.IntoBlock) (hbelow : ∀ child, n.child? step = some child →
    child.ThroughChosen (fun outer => chosen (step :: outer)) path) :
    n.ThroughChosen chosen (step :: path) :=
  cons (fun hinto => absurd hinto hstep) hbelow

theorem tail (h : n.ThroughChosen chosen (step :: path)) (hchild : n.child? step = some child) :
    child.ThroughChosen (fun outer => chosen (step :: outer)) path := by
  rintro outer step' rest rfl hstep pos c body elseBody hat
  refine h (step :: outer) step' rest rfl hstep pos c body elseBody ?_
  rw [at?_cons, hchild]
  exact hat

theorem mono (h : n.ThroughChosen chosen path)
    (himp : ∀ outer step pos c body elseBody,
      n.at? outer = some (.conditional pos c body elseBody) →
      chosen outer c step → chosen' outer c step) :
    n.ThroughChosen chosen' path :=
  fun outer step rest heq hstep pos c body elseBody hat =>
    himp outer step pos c body elseBody hat (h outer step rest heq hstep pos c body elseBody hat)

end Node.ThroughChosen

/-- The second report has the same findings, and a related result; or a fault stops both. -/
abbrev Report.Accords {α α' : Type} (R : α → α' → Prop) (r : Report α) (r' : Report α') : Prop :=
  r.Matches id (fun _ _ => True) R r'

theorem Report.accords_refl {α : Type} (r : Report α) : r.Accords Eq r :=
  matches_refl (fun _ => trivial) r

namespace Evaluate

variable {values : Env Constant}

/-! ## Expressions -/

/-- An expression has no branches, so what it folds to is the same if it agrees outside them. -/
theorem accords_fold : ∀ {e e' : Node},
    (∀ path, e.ThroughChosen (fun _ _ _ => False) path → e.AgreesAt e' path) →
      (fold values e).Accords Eq (fold values e')
  | .literal _ _, e', h | .reference _ _, e', h => by
    have hhead := Node.agreesAt_nil.1 (h [] .nil)
    cases e' <;> cases hhead
    exact Report.accords_refl _
  | .operation pos op lhs rhs, e', h => by
    obtain ⟨lhs', rhs', rfl⟩ := Node.eq_operation_of_head (Node.agreesAt_nil.1 (h [] .nil))
    have hlhs : (fold values lhs).Accords Eq (fold values lhs') := accords_fold fun path hpath =>
      h (.lhs :: path) (.cons_outside id fun _ hchild => Option.some.inj hchild ▸ hpath)
    have hrhs : (fold values rhs).Accords Eq (fold values rhs') := accords_fold fun path hpath =>
      h (.rhs :: path) (.cons_outside id fun _ hchild => Option.some.inj hchild ▸ hpath)
    rw [fold_operation, fold_operation]
    refine (hlhs.under (fun _ _ => rfl) .lhs).andThen fun left _ hleft => ?_
    subst hleft
    refine (hrhs.under (fun _ _ => rfl) .rhs).andThen fun right _ hright => ?_
    subst hright
    exact Report.accords_refl _
  | .selector _ _ _, e', h | .declaration _ _ _, e', h | .assignment _ _ _, e', h
  | .conditional _ _ _ _, e', h | .rule _ _ _, e', h | .sheet _ _, e', h => by
    have hhead := Node.agreesAt_nil.1 (h [] .nil)
    cases e' <;> simp only [Node.head, reduceCtorEq] at hhead
    exact Report.matches_fault trivial

/-! ## Statements -/

/-- Started at the node, the evaluator comes to the conditional at the end of the path and selects
the branch that the step leads into. -/
def Chooses (n : Node) (values : Env Constant) (outer : Path) (c : Node) (step : Step) : Prop :=
  (∀ i, .item i ∉ outer) ∧ ∃ mid k, Arrives n values outer mid ∧ (fold mid c).result = .ok k ∧
    ((∃ i, step = .body i) ↔ k.value = .bool true)

/-- The branch is selected, or it stands in a selector and these count. -/
def Counts (selectors : Prop) (n : Node) (values : Env Constant) (outer : Path) (c : Node)
    (step : Step) : Prop :=
  Chooses n values outer c step ∨ selectors ∧ ∃ i, .selector i ∈ outer

/-- What is left of two statements agrees outside branches, and inside them too if they count. -/
def LeftAgree (selectors : Prop) (m m' : Node) : Prop :=
  ∀ path, m.ThroughChosen (fun _ _ _ => selectors) path → m.AgreesAt m' path

/-- What the evaluator reads of two statements is the same. -/
def ReadAlike (selectors : Prop) (n n' : Node) (values : Env Constant) : Prop :=
  ∀ path, n.ThroughChosen (Counts selectors n values) path → n.AgreesAt n' path

/-- What the evaluator reads of two blocks is the same, as far as it comes in the first one. -/
def ReadAlikeIn (selectors : Prop) (ns ns' : List Node) (values : Env Constant) : Prop :=
  ∀ i mid path, after (ns.take i) values = some mid →
    (∀ child, ns[i]? = some child → child.ThroughChosen (Counts selectors child mid) path) →
    Node.AgreeAt ns ns' i path

/-- The same environment and statements that agree are left. -/
def SameLeft (selectors : Prop) (r r' : List Node × Env Constant) : Prop :=
  List.Forall₂ (LeftAgree selectors) r.1 r'.1 ∧ r'.2 = r.2

variable {k : Prop} {n n' : Node} {ns ns' : List Node}

theorem chooses_here {pos : Position} {c : Node} {body : List Node}
    {elseBody : Option (List Node)} {b : Bool} {step : Step}
    (hchoose : (choose values pos c).result = .ok b) (hb : (∃ i, step = .body i) ↔ b = true) :
    Chooses (.conditional pos c body elseBody) values [] c step := by
  obtain ⟨k, hk, hkb⟩ := choose_ok_iff.1 hchoose
  exact ⟨fun i => List.not_mem_nil, values, k, .here _ _, hk, hb.trans hkb⟩

/-- What counts below a statement of a block that is taken counts at the node with the block. -/
theorem Counts.into {edge : Nat → Step} {i : Nat} {child c : Node} {mid : Env Constant}
    {outer : Path} {step : Step} (hitem : ∀ i j, edge i ≠ .item j)
    (htakes : Takes values n edge ns) (hchild : ns[i]? = some child)
    (hafter : after (ns.take i) values = some mid) (h : Counts k child mid outer c step) :
    Counts k n values (edge i :: outer) c step := by
  rcases h with ⟨houter, mid', v, harrives, hv, hb⟩ | ⟨hk, j, hj⟩
  · refine .inl ⟨fun j hj => ?_, mid', v, .into htakes hchild hafter harrives, hv, hb⟩
    rcases List.mem_cons.1 hj with heq | hj
    · exact hitem i j heq.symm
    · exact houter j hj
  · exact .inr ⟨hk, j, List.mem_cons_of_mem _ hj⟩

/-- Of nodes that are read alike, the blocks that are taken are read alike. -/
theorem ReadAlike.block {edge : Nat → Step} (h : ReadAlike k n n' values)
    (hitem : ∀ i j, edge i ≠ .item j) (htakes : Takes values n edge ns)
    (hchild' : ∀ i, n'.child? (edge i) = ns'[i]?) : ReadAlikeIn k ns ns' values := by
  intro i mid path hafter hpath
  have hagrees : n.AgreesAt n' (edge i :: path) := by
    refine h _ (.cons (fun _ pos c body elseBody hn => .inl ?_) fun child hchild => ?_)
    · subst hn
      cases htakes with
      | thenBranch hchoose => exact chooses_here hchoose ⟨fun _ => rfl, fun _ => ⟨i, rfl⟩⟩
      | elseBranch hchoose => exact chooses_here hchoose ⟨nofun, nofun⟩
    · rw [htakes.child?] at hchild
      exact (hpath child hchild).mono fun _ _ _ _ _ _ _ hcounts =>
        hcounts.into hitem htakes hchild hafter
  unfold Node.AgreesAt at hagrees
  rwa [Node.at?_cons, Node.at?_cons, htakes.child?, hchild'] at hagrees

/-- An expression of nodes that are read alike folds to the same. -/
theorem ReadAlike.accords_fold {e e' : Node} (h : ReadAlike k n n' values) (step : Step)
    (hstep : ¬ step.IntoBlock) (he : n.child? step = some e) (he' : n'.child? step = some e') :
    ((fold values e).under step).Accords Eq ((fold values e').under step) := by
  refine Report.Matches.under (fun _ _ => rfl) (Evaluate.accords_fold fun path hpath => ?_) step
  have hagrees := h (step :: path) (.cons_outside hstep fun child hchild => by
    obtain rfl := Option.some.inj (he.symm.trans hchild)
    exact hpath.mono fun _ _ _ _ _ _ _ => False.elim)
  unfold Node.AgreesAt at hagrees
  rwa [Node.at?_cons, Node.at?_cons, he, he'] at hagrees

/-- Lists of nodes that are left alike agree at a path that is to be seen. -/
theorem agreeAt_of_left {i : Nat} {path : Path} (h : List.Forall₂ (LeftAgree k) ns ns')
    (hpath : ∀ child, ns[i]? = some child → child.ThroughChosen (fun _ _ _ => k) path) :
    Node.AgreeAt ns ns' i path := by
  induction h generalizing i with
  | nil => rfl
  | cons hm _ ih =>
    cases i with
    | zero => exact hm path (hpath _ rfl)
    | succ i => exact ih hpath

/-- Rules that are read alike are left alike, once their bodies are. -/
theorem ReadAlike.leftAgree_rule {pos : Position} {selectors selectors' body body' : List Node}
    {left left' : List Node}
    (h : ReadAlike k (.rule pos selectors body) (.rule pos selectors' body') values)
    (hleft : List.Forall₂ (LeftAgree k) left left') :
    LeftAgree k (.rule pos selectors left) (.rule pos selectors' left') := by
  intro path hpath
  cases path with
  | nil => rfl
  | cons step path =>
    cases step with
    | selector i =>
      refine h (.selector i :: path) (.cons_outside id fun child hchild => ?_)
      exact (hpath.tail hchild).mono fun _ _ _ _ _ _ _ hk => .inr ⟨hk, i, List.mem_cons_self⟩
    | body i => exact agreeAt_of_left hleft fun child hchild => hpath.tail hchild
    | _ => rfl

/-- The condition of conditionals that are read alike selects the same. -/
theorem ReadAlike.accords_choose {pos : Position} {c c' : Node} {body body' : List Node}
    {elseBody elseBody' : Option (List Node)}
    (h : ReadAlike k (.conditional pos c body elseBody) (.conditional pos c' body' elseBody')
      values) : (choose values pos c).Accords Eq (choose values pos c') := by
  have hc : ∀ c body, ∀ elseBody : Option (List Node),
      (Node.conditional pos c body elseBody).child? .condition = some c := by
    intro c body elseBody
    cases elseBody <;> rfl
  rw [choose_eq, choose_eq]
  refine (h.accords_fold .condition id (hc c body elseBody) (hc c' body' elseBody')).andThen
    fun value _ hvalue => ?_
  subst hvalue
  exact Report.accords_refl _

theorem ReadAlikeIn.eq_nil (h : ReadAlikeIn k [] ns' values) : ns' = [] := by
  have hagree := h 0 values [] rfl nofun
  cases ns' with
  | nil => rfl
  | cons => cases hagree

/-- Of blocks that are read alike, the first statements are, and the others are after them. -/
theorem ReadAlikeIn.eq_cons (h : ReadAlikeIn k (n :: ns) ns' values) :
    ∃ m ms, ns' = m :: ms ∧ ReadAlike k n m values ∧
      ∀ r, (Lexical.statement n values).result = .ok r → ReadAlikeIn k ns ms r.2 := by
  cases ns' with
  | nil => cases h 0 values [] rfl fun _ _ => .nil
  | cons m ms =>
    refine ⟨m, ms, rfl, fun path hpath => ?_, fun r hr i mid path hafter hpath => ?_⟩
    · exact h 0 values path rfl fun child hchild => Option.some.inj hchild ▸ hpath
    · refine h (i + 1) mid path ?_ hpath
      rw [List.take_succ_cons, after, hr]
      exact hafter

/-- What is left of blocks agrees also where their bindings are dropped. -/
theorem accords_child {r r' : Passing Constant (List Node)}
    (h : (r values).Accords (SameLeft k) (r' values)) :
    (r.child values).Accords (SameLeft k) (r'.child values) :=
  h.andThen fun _ _ hr => Report.matches_ok ⟨hr.1, rfl⟩

mutual

/-- Statements that are read alike have the same findings, and alike is what is left of them. -/
theorem accords_statement : ∀ {n n' : Node} {values : Env Constant}, ReadAlike k n n' values →
    (Lexical.statement n values).Accords (SameLeft k) (Lexical.statement n' values)
  | .assignment pos name e, n', values, h => by
    obtain ⟨e', rfl⟩ := Node.eq_assignment_of_head (Node.agreesAt_nil.1 (h [] .nil))
    rw [statement_assignment, statement_assignment]
    refine (h.accords_fold .expression id rfl rfl).andThen fun c _ hc => ?_
    subst hc
    exact Report.matches_ok ⟨.nil, rfl⟩
  | .declaration pos property e, n', values, h => by
    obtain ⟨e', rfl⟩ := Node.eq_declaration_of_head (Node.agreesAt_nil.1 (h [] .nil))
    rw [statement_declaration, statement_declaration]
    refine (h.accords_fold .expression id rfl rfl).andThen fun c _ hc => ?_
    subst hc
    exact Report.matches_ok ⟨.cons (fun _ _ => rfl) .nil, rfl⟩
  | .rule pos selectors body, n', values, h => by
    obtain ⟨selectors', body', rfl⟩ := Node.eq_rule_of_head (Node.agreesAt_nil.1 (h [] .nil))
    have hbody := h.block (by simp) .rule fun i => rfl
    rw [statement_rule, statement_rule]
    refine (accords_child (accords_block .body 0 hbody)).andThen fun r r' hr => ?_
    exact Report.matches_ok ⟨.cons (h.leftAgree_rule hr.1) .nil, hr.2⟩
  | .conditional pos c body none, n', values, h => by
    obtain ⟨c', body', elseBody', rfl, helse⟩ :=
      Node.eq_conditional_of_head (Node.agreesAt_nil.1 (h [] .nil))
    obtain rfl := Option.isNone_iff_eq_none.1 (Option.isSome_eq_false_iff.1 helse)
    rw [statement_conditional, statement_conditional]
    refine h.accords_choose.returned.andThen fun b _ hb => ?_
    obtain ⟨hb, rfl⟩ := hb
    cases b with
    | false => exact Report.matches_ok ⟨.nil, rfl⟩
    | true =>
      have hbody := h.block (by simp) (.thenBranch hb) fun i => rfl
      exact accords_child (accords_block .body 0 hbody)
  | .conditional pos c body (some elseBody), n', values, h => by
    obtain ⟨c', body', elseBody', rfl, helse⟩ :=
      Node.eq_conditional_of_head (Node.agreesAt_nil.1 (h [] .nil))
    obtain ⟨elseBody', rfl⟩ := Option.isSome_iff_exists.1 helse
    rw [statement_conditional, statement_conditional]
    refine h.accords_choose.returned.andThen fun b _ hb => ?_
    obtain ⟨hb, rfl⟩ := hb
    cases b with
    | false =>
      have helse := h.block (by simp) (.elseBranch hb) fun i => rfl
      exact accords_child (accords_block .elseBody 0 helse)
    | true =>
      have hbody := h.block (by simp) (.thenBranch hb) fun i => rfl
      exact accords_child (accords_block .body 0 hbody)
  | .selector _ _ _, n', values, h | .literal _ _, n', values, h | .reference _ _, n', values, h
  | .operation _ _ _ _, n', values, h | .sheet _ _, n', values, h => by
    have hhead := Node.agreesAt_nil.1 (h [] .nil)
    cases n' <;> simp only [Node.head, reduceCtorEq] at hhead
    exact Report.matches_fault trivial

theorem accords_block (edge : Nat → Step) (index : Nat) : ∀ {ns ns' : List Node}
    {values : Env Constant}, ReadAlikeIn k ns ns' values →
    (Lexical.block edge index ns values).Accords (SameLeft k)
      (Lexical.block edge index ns' values)
  | [], ns', values, h => by
    obtain rfl := h.eq_nil
    exact Report.matches_ok ⟨.nil, rfl⟩
  | n :: ns, ns', values, h => by
    obtain ⟨n', ns', rfl, hn, hns⟩ := h.eq_cons
    rw [block_cons, block_cons]
    refine ((accords_statement hn).under (fun _ _ => rfl) _).returned.andThen fun r r' hr => ?_
    obtain ⟨hresult, hleft, henv⟩ := hr
    rw [henv]
    refine (accords_block edge (index + 1) (hns r hresult)).andThen fun s s' hs => ?_
    exact Report.matches_ok ⟨List.rel_append hleft hs.1, hs.2⟩

end

end Evaluate

/-! ## Whole trees -/

namespace Stylesheet

open Evaluate

variable {sheet sheet' : Stylesheet}

/-- Wherever a path leads into no dead branch of the first tree, the trees agree. -/
def AgreeWhereAlive (sheet sheet' : Stylesheet) : Prop :=
  ∀ path, sheet.Alive path → sheet.toNode.AgreesAt sheet'.toNode path

/-- What stands in selectors is the same. -/
def AgreeInSelectors (sheet sheet' : Stylesheet) : Prop :=
  ∀ path, ¬ path.OutsideSelectors → sheet.toNode.AgreesAt sheet'.toNode path

theorem toNode_inj (h : sheet'.toNode = sheet.toNode) : sheet' = sheet := by
  obtain ⟨hpos, hitems⟩ := Node.sheet.inj h
  obtain ⟨pos, items⟩ := sheet
  obtain ⟨pos', items'⟩ := sheet'
  obtain rfl : pos' = pos := hpos
  obtain rfl : items' = items := hitems
  rfl

/-- What a run selects counts at the root as it does below an item. -/
theorem readAlikeIn_items {k : Prop} (h : ∀ path, sheet.toNode.ThroughChosen
      (fun outer c step => sheet.Selects outer c step ∨ k ∧ ∃ i, .selector i ∈ outer) path →
      sheet.toNode.AgreesAt sheet'.toNode path) :
    ReadAlikeIn k sheet.items sheet'.items .empty := by
  intro i mid path hafter hpath
  refine h (.item i :: path) (.cons_outside id fun child hchild => ?_)
  refine (hpath child hchild).mono fun outer step pos c body elseBody hat hcounts => ?_
  rcases hcounts with ⟨houter, mid', v, harrives, hv, hb⟩ | ⟨hk, j, hj⟩
  · have hat' : sheet.toNode.at? (.item i :: outer) = some (.conditional pos c body elseBody) := by
      rw [Node.at?_cons, hchild]
      exact hat
    have harrives' : Arrives sheet.toNode .empty (.item i :: outer) mid' :=
      .into .items hchild hafter harrives
    exact .inl ⟨mid', v, mem_readings_of_arrives harrives' houter hat' trivial, hv, hb⟩
  · exact .inr ⟨hk, j, List.mem_cons_of_mem _ hj⟩

theorem AgreeWhereAlive.readAlikeIn (h : sheet.AgreeWhereAlive sheet') :
    ReadAlikeIn False sheet.items sheet'.items .empty :=
  readAlikeIn_items fun path hpath =>
    h path (hpath.mono fun _ _ _ _ _ _ _ hc => hc.resolve_right fun hk => hk.1)

/-- A path that leads into no dead branch but in selectors leads into none or into a selector. -/
theorem AgreeWhereAlive.readAlikeIn_selectors (h : sheet.AgreeWhereAlive sheet')
    (hsel : sheet.AgreeInSelectors sheet') :
    ReadAlikeIn True sheet.items sheet'.items .empty := by
  refine readAlikeIn_items fun path hpath => ?_
  by_cases hout : path.OutsideSelectors
  · refine h path fun outer step rest heq hstep pos c body elseBody hat => ?_
    refine (hpath outer step rest heq hstep pos c body elseBody hat).resolve_right ?_
    rintro ⟨-, i, hi⟩
    exact hout i (heq ▸ List.mem_append_left _ hi)
  · exact hsel path hout

/-- Evaluated items that are left alike, as trees. -/
theorem agreesAt_of_left {k : Prop} {pos : Position} {items items' : List Node} {path : Path}
    (h : List.Forall₂ (LeftAgree k) items items')
    (hpath : (Node.sheet pos items).ThroughChosen (fun _ _ _ => k) path) :
    (Node.sheet pos items).AgreesAt (.sheet pos items') path := by
  cases path with
  | nil => rfl
  | cons step path =>
    cases step with
    | item i => exact agreeAt_of_left h fun child hchild => hpath.tail hchild
    | _ => rfl

section Evaluated

variable {k : Prop} (h : ReadAlikeIn k sheet.items sheet'.items .empty)

include h

/-- The reports on items that are read alike accord. -/
theorem accords_evaluateReport :
    sheet.evaluateReport.Accords (SameLeft k) sheet'.evaluateReport := accords_block .item 0 h

theorem evaluate_fails_iff :
    (∃ reason, sheet'.evaluate = .error reason) ↔ ∃ reason, sheet.evaluate = .error reason := by
  have hmatch := accords_evaluateReport h
  rw [evaluate_eq, evaluate_eq]
  generalize sheet.evaluateReport = r, sheet'.evaluateReport = r' at hmatch
  cases hmatch <;> simp [Except.map]

/-- The second tree is evaluated if the first one is, and what is left of both agrees. -/
theorem exists_evaluate (hpos : sheet'.pos = sheet.pos) {e : Evaluation}
    (he : sheet.evaluate = .ok e) :
    ∃ e', sheet'.evaluate = .ok e' ∧ e'.defects = e.defects ∧
      ∀ path, e.stylesheet.toNode.ThroughChosen (fun _ _ _ => k) path →
        e.stylesheet.toNode.AgreesAt e'.stylesheet.toNode path := by
  have hmatch := accords_evaluateReport h
  have hfindings := hmatch.findings_eq
  rw [evaluate_eq] at he ⊢
  generalize sheet.evaluateReport = r, sheet'.evaluateReport = r' at hmatch hfindings he ⊢
  cases hmatch with
  | fault => cases he
  | ok hsame =>
    cases he
    refine ⟨_, rfl, hfindings, fun path hpath => ?_⟩
    unfold toNode at hpath ⊢
    rw [hpos]
    exact agreesAt_of_left hsame.1 hpath

end Evaluated

/-- **Dead branches are invisible.** Whatever stands in the branches that the evaluator does not
select, and in them only, it has the same defects at the same places and is stopped or not; and what
it returns is the same, but for branches that stand in selectors and are kept. -/
theorem dead_branches_invisible (h : sheet.AgreeWhereAlive sheet') :
    (∀ ev ev' : Evaluator, (ev'.apply sheet').2.defects = (ev.apply sheet).2.defects) ∧
    ((∃ reason, sheet'.evaluate = .error reason) ↔ ∃ reason, sheet.evaluate = .error reason) ∧
    ∀ e, sheet.evaluate = .ok e → ∃ e', sheet'.evaluate = .ok e' ∧ e'.defects = e.defects ∧
      (∀ path, e.stylesheet.OutsideBranches path →
        e.stylesheet.toNode.AgreesAt e'.stylesheet.toNode path) ∧
      (sheet.AgreeInSelectors sheet' → e'.stylesheet = e.stylesheet) := by
  have hpos : sheet'.pos = sheet.pos := (Node.sheet.inj (Node.agreesAt_nil.1 (h [] .nil))).1
  refine ⟨fun ev ev' => ?_, evaluate_fails_iff h.readAlikeIn, fun e he => ?_⟩
  · rw [Evaluator.apply_eq, Evaluator.apply_eq]
    exact (accords_evaluateReport h.readAlikeIn).findings_eq
  · obtain ⟨e', he', hdefects, hagree⟩ := exists_evaluate h.readAlikeIn hpos he
    refine ⟨e', he', hdefects, hagree, fun hsel => ?_⟩
    obtain ⟨e'', he'', -, hagree'⟩ := exists_evaluate (h.readAlikeIn_selectors hsel) hpos he
    obtain rfl := Except.ok.inj (he'.symm.trans he'')
    exact toNode_inj (Node.eq_of_agreesAt fun path => hagree' path .trivial)

/-- In a dead branch anything may stand. -/
theorem agreeWhereAlive_of_graft (outer : Path) (step : Step) (rest : Path) {pos : Position}
    {c m : Node} {body : List Node} {elseBody : Option (List Node)}
    (hat : sheet.toNode.at? outer = some (.conditional pos c body elseBody))
    (hstep : step.IntoBlock) (hdead : ¬ sheet.Selects outer c step)
    (hgraft : sheet'.toNode = sheet.toNode.graft (outer ++ step :: rest) m) :
    sheet.AgreeWhereAlive sheet' := by
  intro path hpath
  have hnot : ¬ outer ++ step :: rest <+: path := by
    rintro ⟨rest', rfl⟩
    exact hdead
      (hpath outer step (rest ++ rest') (List.append_assoc _ _ _) hstep pos c body elseBody hat)
  rw [hgraft]
  exact Node.agreesAt_graft hnot _ m

/-- A variable that is true selects the first branch of a conditional in a rule, so it does not
matter that a literal stands in the place of a declaration in the other one. -/
theorem dead_branches_invisible_misplaced :
    let width : Node := .declaration {} "width" (.literal {} (.number .pixel 1))
    let sheet (dead : Node) : Stylesheet :=
      { items := [.assignment {} "On" (.literal {} (.bool true)),
          .rule {} [.selector {} .tag "p"]
            [.conditional {} (.reference {} "On") [width] (some [dead])]] }
    let dead : Node := .literal {} (.bool false)
    let evaluated : Stylesheet := { items := [.rule {} [.selector {} .tag "p"] [width]] }
    (sheet width).AgreeWhereAlive (sheet dead) ∧ (sheet width).evaluate = .ok ⟨evaluated, []⟩ ∧
      (sheet dead).evaluate = .ok ⟨evaluated, []⟩ ∧
      ∀ ev ev' : Evaluator,
        (ev'.apply (sheet dead)).2.defects = (ev.apply (sheet width)).2.defects := by
  intro width sheet dead evaluated
  have hdead : ¬ (sheet width).Selects [.item 1, .body 0] (.reference {} "On") (.elseBody 0) := by
    rintro ⟨values, c, hvalues, hc, hb⟩
    have hreadings : (sheet width).readings.map (fun r => (r.1, r.2 "On")) =
        [([.item 0], none), ([.item 1, .body 0], some { value := .bool true }),
          ([.item 1, .body 0, .body 0], some { value := .bool true })] := by decide +kernel
    have hon := List.mem_map_of_mem (f := fun r => (r.1, r.2 "On")) hvalues
    replace hon : values "On" = some { value := .bool true } := by simpa [hreadings] using hon
    rw [Evaluate.fold, hon] at hc
    obtain rfl := Except.ok.inj hc
    obtain ⟨i, hi⟩ := hb.2 rfl
    cases hi
  have h : (sheet width).AgreeWhereAlive (sheet dead) :=
    agreeWhereAlive_of_graft [.item 1, .body 0] (.elseBody 0) [] (m := dead) rfl trivial hdead rfl
  exact ⟨h, rfl, rfl, (dead_branches_invisible h).1⟩

/-- A conditional in the place of a selector is kept with what stands in its branch. -/
theorem branch_in_selector_kept :
    let width (pixels : Int) : Node := .declaration {} "width" (.literal {} (.number .pixel pixels))
    let sheet (pixels : Int) : Stylesheet :=
      { items := [.rule {} [.conditional {} (.literal {} (.bool true)) [width pixels] none] []] }
    (sheet 1).AgreeWhereAlive (sheet 2) ∧ (sheet 1).evaluate = .ok ⟨sheet 1, []⟩ ∧
      (sheet 2).evaluate = .ok ⟨sheet 2, []⟩ ∧
      (sheet 2).toNode.same (sheet 1).toNode = false := by
  intro width sheet
  refine ⟨?_, rfl, rfl, by decide⟩
  have hdead : ¬ (sheet 1).Selects [.item 0, .selector 0] (.literal {} (.bool true)) (.body 0) := by
    rintro ⟨values, c, hvalues, -⟩
    cases hvalues
  exact agreeWhereAlive_of_graft [.item 0, .selector 0] (.body 0) [] (m := width 2) rfl trivial
    hdead rfl

end Stylesheet

end StyleLang
