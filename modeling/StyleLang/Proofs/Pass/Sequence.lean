import StyleLang.Proofs.Pass.Equations
import StyleLang.Proofs.Pass.Isolation
import StyleLang.Proofs.Pass.Sites
import StyleLang.Proofs.Syntax.Order

/-!
# Findings in sequence

Both passes go through a tree in the order of its nodes, and say at most one thing of each. Main
statement: the places of the findings are strictly increasing, at each of them there is a node, and
each finding breaks a rule for nodes of that kind; and so it is with the defects.
-/

namespace StyleLang

variable {τ α β : Type}

/-! ## Reports in order -/

namespace Report

theorem findings_andThen_ok (r : Report α) (f : α → β) :
    (r.andThen fun a => ok (f a)).findings = r.findings := by
  obtain ⟨findings, _ | a⟩ := r
  · rfl
  · exact List.append_nil findings

/-- The findings are in the order of the nodes, and these have their turns at stages between the two
given ones. -/
structure InOrder (first last : Nat) (r : Report α) : Prop where
  increasing : r.findings.Pairwise fun f g => f.path.Earlier g.path
  stages : ∀ f ∈ r.findings, first ≤ f.path.stage ∧ f.path.stage ≤ last

variable {first last : Nat}

theorem inOrder_ok (a : α) : (ok a).InOrder first last :=
  ⟨List.Pairwise.nil, fun _ hf => absurd hf List.not_mem_nil⟩

theorem inOrder_fault (reason : Fault) : (fault reason : Report α).InOrder first last :=
  ⟨List.Pairwise.nil, fun _ hf => absurd hf List.not_mem_nil⟩

theorem inOrder_note (severity : Severity) (pos : Position) (problem : Problem) :
    (note severity pos problem).InOrder 2 2 := by
  refine ⟨List.pairwise_singleton _ _, fun f hf => ?_⟩
  rw [List.mem_singleton.1 hf]
  exact ⟨Nat.le_refl 2, Nat.le_refl 2⟩

theorem InOrder.mono {r : Report α} (h : r.InOrder first last) {first' last' : Nat}
    (hfirst : first' ≤ first) (hlast : last ≤ last') : r.InOrder first' last' :=
  ⟨h.increasing, fun f hf =>
    ⟨Nat.le_trans hfirst (h.stages f hf).1, Nat.le_trans (h.stages f hf).2 hlast⟩⟩

theorem InOrder.append {r : Report α} {next : α → Report β} (h : r.InOrder first last)
    (hn : ∀ a, (next a).InOrder first last)
    (hcross : ∀ a, ∀ f ∈ r.findings, ∀ g ∈ (next a).findings, f.path.Earlier g.path) :
    (r.andThen next).InOrder first last := by
  obtain ⟨findings, _ | a⟩ := r
  · exact ⟨h.increasing, h.stages⟩
  · refine ⟨List.pairwise_append.2 ⟨h.increasing, (hn a).increasing, hcross a⟩, fun f hf => ?_⟩
    exact (List.mem_append.1 hf).elim (h.stages f) ((hn a).stages f)

/-- What comes at later stages may be said afterwards. -/
theorem InOrder.andThen {mid : Nat} {r : Report α} {next : α → Report β}
    (h : r.InOrder first mid) (mid' : Nat) (hn : ∀ a, (next a).InOrder mid' last)
    (hmid : mid < mid') (hfirst : first ≤ mid') (hlast : mid ≤ last) :
    (r.andThen next).InOrder first last := by
  refine (h.mono (Nat.le_refl first) hlast).append
    (fun a => (hn a).mono hfirst (Nat.le_refl last)) fun a f hf g hg => .apart (.inl ?_)
  have hf := (h.stages f hf).2
  have hg := ((hn a).stages g hg).1
  omega

theorem InOrder.andThen_ok {r : Report α} (h : r.InOrder first last) (f : α → β) :
    (r.andThen fun a => ok (f a)).InOrder first last := by
  constructor
  · rw [findings_andThen_ok]
    exact h.increasing
  · rw [findings_andThen_ok]
    exact h.stages

theorem InOrder.under {r : Report α} (h : r.InOrder first last) (step : Step) :
    (r.under step).InOrder step.stage step.stage := by
  refine ⟨List.pairwise_map.2 (h.increasing.imp fun hfg => .inside step hfg), fun f hf => ?_⟩
  obtain ⟨g, -, rfl⟩ := List.mem_map.1 hf
  exact ⟨Nat.le_refl _, Nat.le_refl _⟩

end Report

namespace Passing

def InOrder (first last : Nat) (p : Passing τ α) : Prop := ∀ env, (p env).InOrder first last

variable {first last : Nat} {p : Passing τ α}

theorem inOrder_ok (a : α) : (ok a : Passing τ α).InOrder first last :=
  fun _ => Report.inOrder_ok _

theorem inOrder_fault (reason : Fault) : (fault reason : Passing τ α).InOrder first last :=
  fun _ => Report.inOrder_fault _

theorem inOrder_reading {report : Env τ → Report α} (h : ∀ env, (report env).InOrder first last) :
    (reading report).InOrder first last := fun env => (h env).andThen_ok _

theorem InOrder.mono (h : p.InOrder first last) {first' last' : Nat} (hfirst : first' ≤ first)
    (hlast : last ≤ last') : p.InOrder first' last' := fun env => (h env).mono hfirst hlast

theorem InOrder.andThen {mid : Nat} {next : α → Passing τ β} (h : p.InOrder first mid)
    (mid' : Nat) (hn : ∀ a, (next a).InOrder mid' last) (hmid : mid < mid') (hfirst : first ≤ mid')
    (hlast : mid ≤ last) : (p.andThen next).InOrder first last := fun env =>
  (h env).andThen mid' (fun r => hn r.1 r.2) hmid hfirst hlast

theorem InOrder.andThen_ok (h : p.InOrder first last) (f : α → β) :
    (p.andThen fun a => ok (f a)).InOrder first last := fun env =>
  (h env).andThen_ok fun r => (f r.1, r.2)

theorem InOrder.child (h : p.InOrder first last) : p.child.InOrder first last := fun env =>
  (h env).andThen_ok _

end Passing

/-- The statements of a block have their turns one after the other, all at one stage. -/
theorem Gathering.inOrder_block {G : Gathering α} {statement : Node → Passing τ α}
    (edge : Nat → Step) {stage : Nat} (hstage : ∀ i, (edge i).stage = stage)
    (hindex : ∀ i, (edge i).index = i) {first last : Nat} (index : Nat) {nodes : List Node}
    (h : ∀ n ∈ nodes, (statement n).InOrder first last) :
    (G.block statement edge index nodes).InOrder stage stage := by
  induction nodes generalizing index with
  | nil => exact Passing.inOrder_ok _
  | cons n ns ih =>
    intro env
    have hn : (G.member (edge index) (statement n) env).InOrder stage stage := by
      have hunder := (h n List.mem_cons_self env).under (edge index)
      rw [hstage] at hunder
      exact hunder.andThen_ok _
    have hns := ih (index + 1) fun m hm => h m (List.mem_cons_of_mem n hm)
    refine hn.append (fun r => (hns r.2).andThen_ok _) fun r f hf g hg => ?_
    have hmember := about_member (G := G) (P := fun path => ∃ rest, path = edge index :: rest)
      (fun rest => ⟨rest, rfl⟩) (statement n) env
    obtain ⟨rest, hf⟩ := hmember.findings f hf
    replace hg : g ∈ (G.block statement edge (index + 1) ns r.2).findings := by
      rwa [← Report.findings_andThen_ok _ fun s => (G.join r.1 s.1, s.2)]
    obtain ⟨j, rest', hg, hj, -⟩ := (about_block (index + 1) ns r.2).findings g hg
    rw [hf, hg]
    refine .apart (.inr ⟨(hstage index).trans (hstage j).symm, ?_⟩)
    rw [Path.index, Path.index, hindex, hindex]
    omega

open Report Passing

/-! ## The checker -/

namespace Check

variable {types : Env ValueType}

theorem inOrder_operationType (pos : Position) (op : Operator) (left right : Option ValueType) :
    (operationType pos op left right).InOrder 2 2 := by
  unfold operationType
  split
  · split
    · exact Report.inOrder_ok _
    · exact (inOrder_note _ _ _).andThen_ok _
  · exact (inOrder_note _ _ _).andThen_ok _

theorem inOrder_infer : ∀ e : Node, (infer types e).InOrder 0 2
  | .literal _ _ => Report.inOrder_ok _
  | .reference _ _ => by
    rw [infer]
    split
    · exact Report.inOrder_ok _
    · exact ((inOrder_note _ _ _).andThen_ok _).mono (by decide) (by decide)
  | .operation pos op lhs rhs => by
    have hl := (inOrder_infer lhs).under .lhs
    have hr := (inOrder_infer rhs).under .rhs
    rw [infer]
    refine hl.andThen 1 (fun left => ?_) (by decide) (by decide) (by decide)
    exact hr.andThen 2 (fun right => inOrder_operationType pos op left right) (by decide)
      (by decide) (by decide)
  | .selector _ _ _ | .declaration _ _ _ | .assignment _ _ _ | .conditional _ _ _ _ | .rule _ _ _
  | .sheet _ _ => Report.inOrder_fault _

theorem inOrder_declaration (pos : Position) (property : String) (e : Node) :
    (declaration types pos property e).InOrder 0 2 := by
  have he : ((infer types e).under .expression).InOrder 0 0 := (inOrder_infer e).under .expression
  unfold declaration
  refine he.andThen 2 (fun type => ?_) (by decide) (by decide) (by decide)
  split
  · exact inOrder_note _ _ _
  · split
    · exact Report.inOrder_ok _
    · exact inOrder_note _ _ _

theorem inOrder_condition (pos : Position) (e : Node) :
    (condition types pos e).InOrder 0 2 := by
  have he : ((infer types e).under .condition).InOrder 0 0 := (inOrder_infer e).under .condition
  unfold condition
  refine he.andThen 2 (fun type => ?_) (by decide) (by decide) (by decide)
  split
  · exact Report.inOrder_ok _
  · exact inOrder_note _ _ _

theorem inOrder_assignment (pos : Position) (name : String) (e : Node) :
    (Lexical.assignment pos name e).InOrder 0 2 := by
  have he : (Passing.reading fun types => (infer types e).under .expression).InOrder 0 0 :=
    inOrder_reading fun types => (inOrder_infer e).under .expression
  have hnote : (Passing.note .error pos (.untypedAssignment name) :
      Passing ValueType Unit).InOrder 2 2 := inOrder_reading fun _ => inOrder_note _ _ _
  unfold Lexical.assignment
  refine he.andThen 2 (fun type => ?_) (by decide) (by decide) (by decide)
  cases type with
  | some t => exact fun _ => Report.inOrder_ok _
  | none => exact hnote

theorem inOrder_block (edge : Nat → Step) {stage : Nat} (hstage : ∀ i, (edge i).stage = stage)
    (hindex : ∀ i, (edge i).index = i) (index : Nat) {nodes : List Node}
    (h : ∀ n ∈ nodes, (Lexical.statement n).InOrder 0 4) :
    (Lexical.block edge index nodes).InOrder stage stage := by
  rw [Lexical.block_eq]
  exact Gathering.inOrder_block edge hstage hindex index h

mutual

theorem inOrder_statement : ∀ n : Node, (Lexical.statement n).InOrder 0 4
  | .rule _ _ body => by
    rw [Lexical.statement]
    have hbody := inOrder_block .body (fun _ => rfl) (fun _ => rfl) 0 (inOrder_statements body)
    exact hbody.child.mono (by decide) (by decide)
  | .assignment pos name e => by
    rw [Lexical.statement]
    exact (inOrder_assignment pos name e).mono (by decide) (by decide)
  | .declaration pos property e => by
    rw [Lexical.statement]
    exact (inOrder_reading fun _ => inOrder_declaration pos property e).mono (by decide)
      (by decide)
  | .conditional pos c body none => by
    have hc : (reading fun types => condition types pos c).InOrder 0 2 :=
      inOrder_reading fun _ => inOrder_condition pos c
    have hbody := inOrder_block .body (fun _ => rfl) (fun _ => rfl) 0 (inOrder_statements body)
    rw [Lexical.statement]
    refine hc.andThen 3 (fun _ => ?_) (by decide) (by decide) (by decide)
    exact (hbody.child.andThen_ok _).mono (by decide) (by decide)
  | .conditional pos c body (some elseBody) => by
    have hc : (reading fun types => condition types pos c).InOrder 0 2 :=
      inOrder_reading fun _ => inOrder_condition pos c
    have hbody := inOrder_block .body (fun _ => rfl) (fun _ => rfl) 0 (inOrder_statements body)
    have helse := inOrder_block .elseBody (fun _ => rfl) (fun _ => rfl) 0
      (inOrder_statements elseBody)
    rw [Lexical.statement]
    refine hc.andThen 3 (fun _ => ?_) (by decide) (by decide) (by decide)
    exact hbody.child.andThen 4 (fun _ => helse.child) (by decide) (by decide) (by decide)
  | .selector _ _ _ | .literal _ _ | .reference _ _ | .operation _ _ _ _ | .sheet _ _ =>
    Passing.inOrder_fault _

theorem inOrder_statements : ∀ nodes : List Node, ∀ n ∈ nodes, (Lexical.statement n).InOrder 0 4
  | [] => fun _ hn => absurd hn List.not_mem_nil
  | n :: nodes => List.forall_mem_cons.2 ⟨inOrder_statement n, inOrder_statements nodes⟩

end

end Check

/-! ## The evaluator -/

namespace Evaluate

variable {values : Env Constant}

theorem inOrder_operation (pos : Position) (op : Operator) (left right : Constant) :
    (operation pos op left right).InOrder 2 2 := by
  unfold operation
  split
  · exact Report.inOrder_ok _
  · exact (inOrder_note _ _ _).andThen_ok _

theorem inOrder_fold : ∀ e : Node, (fold values e).InOrder 0 2
  | .literal _ _ => Report.inOrder_ok _
  | .reference _ _ => by
    rw [fold]
    split
    · exact Report.inOrder_ok _
    · exact ((inOrder_note _ _ _).andThen_ok _).mono (by decide) (by decide)
  | .operation pos op lhs rhs => by
    have hl := (inOrder_fold lhs).under .lhs
    have hr := (inOrder_fold rhs).under .rhs
    rw [fold_operation]
    refine hl.andThen 1 (fun left => ?_) (by decide) (by decide) (by decide)
    exact hr.andThen 2 (fun right => inOrder_operation pos op left right) (by decide) (by decide)
      (by decide)
  | .selector _ _ _ | .declaration _ _ _ | .assignment _ _ _ | .conditional _ _ _ _ | .rule _ _ _
  | .sheet _ _ => Report.inOrder_fault _

theorem inOrder_choose (pos : Position) (e : Node) : (choose values pos e).InOrder 0 2 := by
  have he : ((fold values e).under .condition).InOrder 0 0 := (inOrder_fold e).under .condition
  rw [choose_eq]
  refine he.andThen 2 (fun c => ?_) (by decide) (by decide) (by decide)
  unfold truth
  split
  · exact Report.inOrder_ok _
  · exact (inOrder_note _ _ _).andThen_ok _

namespace Traced

theorem inOrder_block (edge : Nat → Step) {stage : Nat} (hstage : ∀ i, (edge i).stage = stage)
    (hindex : ∀ i, (edge i).index = i) (index : Nat) {nodes : List Node}
    (h : ∀ n ∈ nodes, (statement n).InOrder 0 4) :
    (block edge index nodes).InOrder stage stage := by
  rw [block_eq]
  exact Gathering.inOrder_block edge hstage hindex index h

mutual

theorem inOrder_statement : ∀ n : Node, (statement n).InOrder 0 4
  | .assignment _ _ e => by
    have he : (Passing.reading fun values => (fold values e).under .expression).InOrder 0 0 :=
      inOrder_reading fun _ => (inOrder_fold e).under .expression
    rw [statement]
    refine he.andThen 1 (fun c => ?_) (by decide) (by decide) (by decide)
    exact Passing.InOrder.andThen_ok (fun _ => Report.inOrder_ok _) _
  | .declaration _ _ e => by
    have he : (Passing.reading fun values => (fold values e).under .expression).InOrder 0 0 :=
      inOrder_reading fun _ => (inOrder_fold e).under .expression
    rw [statement]
    exact (he.andThen_ok _).mono (by decide) (by decide)
  | .rule _ _ body => by
    have hbody := inOrder_block .body (fun _ => rfl) (fun _ => rfl) 0 (inOrder_statements body)
    rw [statement]
    exact (hbody.child.andThen_ok _).mono (by decide) (by decide)
  | .conditional pos c body none => by
    have hc : (reading fun values => choose values pos c).InOrder 0 2 :=
      inOrder_reading fun _ => inOrder_choose pos c
    have hbody := inOrder_block .body (fun _ => rfl) (fun _ => rfl) 0 (inOrder_statements body)
    rw [statement]
    refine hc.andThen 3 (fun b => ?_) (by decide) (by decide) (by decide)
    cases b with
    | true => exact hbody.child.mono (by decide) (by decide)
    | false => exact Passing.inOrder_ok _
  | .conditional pos c body (some elseBody) => by
    have hc : (reading fun values => choose values pos c).InOrder 0 2 :=
      inOrder_reading fun _ => inOrder_choose pos c
    have hbody := inOrder_block .body (fun _ => rfl) (fun _ => rfl) 0 (inOrder_statements body)
    have helse := inOrder_block .elseBody (fun _ => rfl) (fun _ => rfl) 0
      (inOrder_statements elseBody)
    rw [statement]
    refine hc.andThen 3 (fun b => ?_) (by decide) (by decide) (by decide)
    cases b with
    | true => exact hbody.child.mono (by decide) (by decide)
    | false => exact helse.child.mono (by decide) (by decide)
  | .selector _ _ _ | .literal _ _ | .reference _ _ | .operation _ _ _ _ | .sheet _ _ =>
    Passing.inOrder_fault _

theorem inOrder_statements : ∀ nodes : List Node, ∀ n ∈ nodes, (statement n).InOrder 0 4
  | [] => fun _ hn => absurd hn List.not_mem_nil
  | n :: nodes => List.forall_mem_cons.2 ⟨inOrder_statement n, inOrder_statements nodes⟩

end

end Traced

end Evaluate

/-! ## Whole trees -/

/-- The rules that nodes of this kind may break. -/
def Node.rules : Node → List String
  | .reference _ _ => ["unknown_variable"]
  | .operation _ _ _ _ => ["operand_types"]
  | .assignment _ _ _ => ["unresolved_assignment"]
  | .declaration _ _ _ => ["property_not_allowed", "property_type"]
  | .conditional _ _ _ _ => ["condition_type"]
  | _ => []

theorem Node.CanHave.rule_mem {n : Node} {problem : Problem} (h : n.CanHave problem) :
    problem.rule ∈ n.rules := by
  cases n <;> cases problem <;> first | exact h.elim | simp [Problem.rule, Node.rules]

namespace Stylesheet

variable {sheet : Stylesheet}

/-- The findings are about nodes of the tree, in the order of these and one at most about each, and
every finding is of a rule for nodes of its kind. -/
structure Sequences (sheet : Stylesheet) (findings : List Finding) : Prop where
  increasing : findings.Pairwise fun f g => f.path.Earlier g.path
  once : (findings.map Finding.path).Nodup
  sited : ∀ f ∈ findings, ∃ n, sheet.toNode.at? f.path = some n ∧ n.position = f.pos ∧
    f.rule ∈ n.rules

theorem sequences_of_sited {findings : List Finding}
    (h : findings.Pairwise fun f g => f.path.Earlier g.path)
    (hsited : ∀ f ∈ findings, f.Sited sheet.toNode) : sheet.Sequences findings := by
  refine ⟨h, List.pairwise_map.2 (h.imp fun {f g} hfg heq => ?_), fun f hf => ?_⟩
  · rw [heq] at hfg
    exact Path.not_earlier_self _ hfg
  · obtain ⟨n, hat, hpos, hhave⟩ := hsited f hf
    exact ⟨n, hat, hpos, hhave.rule_mem⟩

/-- **Findings are in sequence.** The order of the nodes is a strict order, and the findings of the
checker and the defects of the evaluator are in it. -/
theorem findings_in_sequence (sheet : Stylesheet) :
    IsStrictOrder Path Path.Earlier ∧
    (∀ findings, sheet.check = .ok findings → sheet.Sequences findings) ∧
    ∀ e, sheet.evaluate = .ok e → sheet.Sequences e.defects := by
  refine ⟨inferInstance, fun findings hc => ?_, fun e he => ?_⟩
  · refine sequences_of_sited ?_ (sited_of_check hc)
    obtain ⟨types, -, rfl⟩ := checkReport_of_check hc
    exact (Check.inOrder_block .item (fun _ => rfl) (fun _ => rfl) 0
      (Check.inOrder_statements sheet.items) .empty).increasing
  · refine sequences_of_sited ?_ (sited_of_evaluate he)
    obtain ⟨rs, values, htrace, -⟩ := trace_of_evaluate he
    have hordered := (Evaluate.Traced.inOrder_block .item (fun _ => rfl) (fun _ => rfl) 0
      (Evaluate.Traced.inOrder_statements sheet.items) .empty).increasing
    rw [← trace, htrace] at hordered
    exact hordered

end Stylesheet

end StyleLang
