import StyleLang.Proofs.Pass.Lexical
import StyleLang.Proofs.Syntax.Place

/-!
# Where problems are found

A problem is one of a certain kind of node: only a reference can be unknown, only an operation can
have wrong operands. Main statements: whatever the checker or the evaluator finds, it finds at a
node of the tree that can have the problem, and says the position of that node.
-/

namespace StyleLang

/-- The node is of the kind that can have the problem: it has what the problem names, and operands of
some types are wrong for it in this way. -/
def Node.CanHave : Node → Problem → Prop
  | reference _ name, .unknownVariable name' => name' = name
  | operation _ op _ _, .untypedOperand op' => op' = op
  | operation _ op _ _, .operands reason => ∃ l r, op.measure l r = .error reason
  | assignment _ name _, .untypedAssignment name' => name' = name
  | declaration _ property _, .unknownProperty property' => property' = property
  | declaration _ property _, .propertyType property' _ => property' = property
  | conditional _ _ _ _, .conditionType _ => True
  | _, _ => False

namespace Node.CanHave

variable {n : Node} {problem : Problem}

theorem reference (h : n.CanHave problem) (hrule : problem.rule = "unknown_variable") :
    ∃ pos name, n = .reference pos name := by
  cases n with
  | reference pos name => exact ⟨pos, name, rfl⟩
  | _ => cases problem <;> first | exact h.elim | simp [Problem.rule] at hrule

theorem operation (h : n.CanHave problem) (hrule : problem.rule = "operand_types") :
    ∃ pos op lhs rhs, n = .operation pos op lhs rhs := by
  cases n with
  | operation pos op lhs rhs => exact ⟨pos, op, lhs, rhs, rfl⟩
  | _ => cases problem <;> first | exact h.elim | simp [Problem.rule] at hrule

theorem conditional (h : n.CanHave problem) (hrule : problem.rule = "condition_type") :
    ∃ pos c body elseBody, n = .conditional pos c body elseBody := by
  cases n with
  | conditional pos c body elseBody => exact ⟨pos, c, body, elseBody, rfl⟩
  | _ => cases problem <;> first | exact h.elim | simp [Problem.rule] at hrule

end Node.CanHave

/-- The finding is about a node of the tree that can have its problem, and says where the node
stands. -/
def Finding.Sited (n : Node) (f : Finding) : Prop :=
  ∃ m, n.at? f.path = some m ∧ m.position = f.pos ∧ m.CanHave f.problem

theorem Finding.Sited.under {n child : Node} {f : Finding} {step : Step} (h : f.Sited child)
    (hchild : n.child? step = some child) : (f.under step).Sited n := by
  obtain ⟨m, hat, hpos, hhave⟩ := h
  refine ⟨m, ?_, hpos, hhave⟩
  rw [under_path, Node.at?_cons, hchild]
  exact hat

variable {τ α β : Type} {n : Node}

/-! ## Reports on a node -/

namespace Report

def Sited (n : Node) (r : Report α) : Prop := ∀ f ∈ r.findings, f.Sited n

theorem sited_ok (a : α) : (ok a).Sited n := fun _ hf => absurd hf List.not_mem_nil

theorem sited_fault (reason : Fault) : (fault reason : Report α).Sited n :=
  fun _ hf => absurd hf List.not_mem_nil

theorem sited_note {severity : Severity} {pos : Position} {problem : Problem}
    (hpos : n.position = pos) (h : n.CanHave problem) : (note severity pos problem).Sited n := by
  intro f hf
  rw [List.mem_singleton.1 hf]
  exact ⟨n, rfl, hpos, h⟩

/-- A problem with the node, and a result all the same. -/
theorem sited_noteThen {severity : Severity} {pos : Position} {problem : Problem} {a : α}
    (hpos : n.position = pos) (h : n.CanHave problem) :
    ((note severity pos problem).andThen fun _ => ok a).Sited n := sited_note hpos h

theorem Sited.andThen {r : Report α} {next : α → Report β} (h : r.Sited n)
    (hn : ∀ a, (next a).Sited n) : (r.andThen next).Sited n := by
  obtain ⟨findings, _ | a⟩ := r
  · exact h
  · exact fun f hf => (List.mem_append.1 hf).elim (h f) (hn a f)

theorem Sited.under {r : Report α} {child : Node} {step : Step} (h : r.Sited child)
    (hchild : n.child? step = some child) : (r.under step).Sited n := by
  intro f hf
  obtain ⟨g, hg, rfl⟩ := List.mem_map.1 hf
  exact (h g hg).under hchild

end Report

namespace Passing

def Sited (n : Node) (p : Passing τ α) : Prop := ∀ env, (p env).Sited n

theorem sited_ok (a : α) : (ok a : Passing τ α).Sited n := fun _ => Report.sited_ok _

theorem sited_assign (name : String) (value : τ) : (assign name value).Sited n :=
  fun _ => Report.sited_ok _

theorem sited_fault (reason : Fault) : (fault reason : Passing τ α).Sited n :=
  fun _ => Report.sited_fault _

theorem sited_reading {report : Env τ → Report α} (h : ∀ env, (report env).Sited n) :
    (reading report).Sited n := fun env => (h env).andThen fun _ => Report.sited_ok _

variable {p : Passing τ α}

theorem Sited.andThen {next : α → Passing τ β} (h : p.Sited n) (hn : ∀ a, (next a).Sited n) :
    (p.andThen next).Sited n := fun env => (h env).andThen fun r => hn r.1 r.2

theorem Sited.child (h : p.Sited n) : p.child.Sited n :=
  fun env => (h env).andThen fun _ => Report.sited_ok _

theorem Sited.under {child : Node} {step : Step} (h : p.Sited child)
    (hchild : n.child? step = some child) : (p.under step).Sited n :=
  fun env => (h env).under hchild

end Passing

open Report Passing

/-! ## The checker -/

namespace Check

variable {types : Env ValueType}

theorem sited_infer : ∀ e : Node, (infer types e).Sited e
  | .literal _ _ => Report.sited_ok _
  | .reference pos name => by
    rw [infer]
    split
    · exact Report.sited_ok _
    · exact sited_noteThen rfl rfl
  | .operation pos op lhs rhs => by
    rw [infer]
    refine ((sited_infer lhs).under rfl).andThen fun left => ?_
    refine ((sited_infer rhs).under rfl).andThen fun right => ?_
    unfold operationType
    split
    · next l r =>
      split
      · exact Report.sited_ok _
      · next reason hreason => exact sited_noteThen rfl ⟨l, r, hreason⟩
    · exact sited_noteThen rfl rfl
  | .selector _ _ _ | .declaration _ _ _ | .assignment _ _ _ | .conditional _ _ _ _ | .rule _ _ _
  | .sheet _ _ => Report.sited_fault _

theorem sited_declaration (pos : Position) (property : String) (e : Node) :
    (declaration types pos property e).Sited (.declaration pos property e) := by
  unfold declaration
  refine ((sited_infer e).under rfl).andThen fun type => ?_
  split
  · exact sited_note rfl rfl
  · split
    · exact Report.sited_ok _
    · exact sited_note rfl rfl

theorem sited_condition (pos : Position) (c : Node) (body : List Node)
    (elseBody : Option (List Node)) :
    (condition types pos c).Sited (.conditional pos c body elseBody) := by
  unfold condition
  refine ((sited_infer c).under (by cases elseBody <;> rfl)).andThen fun type => ?_
  split
  · exact Report.sited_ok _
  · exact sited_note rfl trivial

theorem sited_assignment (pos : Position) (name : String) (e : Node) :
    (Lexical.assignment pos name e).Sited (.assignment pos name e) := by
  refine (sited_reading fun _ => (sited_infer e).under rfl).andThen fun type => ?_
  cases type with
  | some t => exact sited_assign _ _
  | none => exact sited_reading fun _ => sited_note rfl rfl

mutual

theorem sited_statement : ∀ n : Node, (Lexical.statement n).Sited n
  | .rule _ _ body => by
    rw [Lexical.statement]
    exact (sited_block .body 0 body fun i _ hm => by rwa [Nat.zero_add]).child
  | .assignment pos name e => by
    rw [Lexical.statement]
    exact sited_assignment pos name e
  | .declaration pos property e => by
    rw [Lexical.statement]
    exact sited_reading fun _ => sited_declaration pos property e
  | .conditional pos c body none => by
    rw [Lexical.statement]
    refine (sited_reading fun _ => sited_condition pos c body none).andThen fun _ => ?_
    refine (sited_block .body 0 body fun i _ hm => ?_).child.andThen fun _ => Passing.sited_ok _
    rwa [Nat.zero_add]
  | .conditional pos c body (some elseBody) => by
    rw [Lexical.statement]
    refine (sited_reading fun _ => sited_condition pos c body _).andThen fun _ => ?_
    refine (sited_block .body 0 body fun i _ hm => ?_).child.andThen fun _ =>
      (sited_block .elseBody 0 elseBody fun i _ hm => ?_).child
    · rwa [Nat.zero_add]
    · rwa [Nat.zero_add]
  | .selector _ _ _ | .literal _ _ | .reference _ _ | .operation _ _ _ _ | .sheet _ _ =>
    Passing.sited_fault _

/-- A block is a part of the node that its edges lead from. -/
theorem sited_block {n : Node} (edge : Nat → Step) (index : Nat) : ∀ nodes : List Node,
    (∀ i m, nodes[i]? = some m → n.child? (edge (index + i)) = some m) →
      (Lexical.block edge index nodes).Sited n
  | [], _ => Passing.sited_ok _
  | m :: ms, h => by
    rw [Lexical.block]
    refine ((sited_statement m).under (h 0 m rfl)).andThen fun _ => ?_
    refine sited_block edge (index + 1) ms fun i m hm => ?_
    rw [Nat.add_right_comm, Nat.add_assoc]
    exact h (i + 1) m hm

end

end Check

/-! ## The evaluator -/

theorem Operator.measure_of_combine {op : Operator} {l r : Value} {reason : OperandError}
    (h : op.combine l r = .error reason) : op.measure l.type r.type = .error reason := by
  unfold combine at h
  split at h
  · cases h
  · next reason' hreason =>
    obtain rfl := Except.error.inj h
    exact hreason

namespace Evaluate

variable {values : Env Constant}

theorem sited_fold : ∀ e : Node, (fold values e).Sited e
  | .literal _ _ => Report.sited_ok _
  | .reference pos name => by
    rw [fold]
    split
    · exact Report.sited_ok _
    · exact sited_noteThen rfl rfl
  | .operation pos op lhs rhs => by
    rw [fold]
    refine ((sited_fold lhs).under rfl).andThen fun left => ?_
    refine ((sited_fold rhs).under rfl).andThen fun right => ?_
    split
    · exact Report.sited_ok _
    · next reason hreason =>
      exact sited_noteThen rfl ⟨_, _, Operator.measure_of_combine hreason⟩
  | .selector _ _ _ | .declaration _ _ _ | .assignment _ _ _ | .conditional _ _ _ _ | .rule _ _ _
  | .sheet _ _ => Report.sited_fault _

theorem sited_choose (pos : Position) (c : Node) (body : List Node)
    (elseBody : Option (List Node)) :
    (choose values pos c).Sited (.conditional pos c body elseBody) := by
  unfold choose
  refine ((sited_fold c).under (by cases elseBody <;> rfl)).andThen fun value => ?_
  split
  · exact Report.sited_ok _
  · exact sited_noteThen rfl trivial

mutual

theorem sited_statement : ∀ n : Node, (Lexical.statement n).Sited n
  | .assignment _ _ e => by
    rw [Lexical.statement]
    refine (sited_reading fun _ => (sited_fold e).under rfl).andThen fun c => ?_
    exact (sited_assign _ _).andThen fun _ => Passing.sited_ok _
  | .declaration _ _ e => by
    rw [Lexical.statement]
    exact (sited_reading fun _ => (sited_fold e).under rfl).andThen fun c => Passing.sited_ok _
  | .rule _ _ body => by
    rw [Lexical.statement]
    refine (sited_block .body 0 body fun i _ hm => ?_).child.andThen fun _ => Passing.sited_ok _
    rwa [Nat.zero_add]
  | .conditional pos c body none => by
    rw [Lexical.statement]
    refine (sited_reading fun _ => sited_choose pos c body none).andThen fun b => ?_
    cases b with
    | true => exact (sited_block .body 0 body fun i _ hm => by rwa [Nat.zero_add]).child
    | false => exact Passing.sited_ok _
  | .conditional pos c body (some elseBody) => by
    rw [Lexical.statement]
    refine (sited_reading fun _ => sited_choose pos c body _).andThen fun b => ?_
    cases b with
    | true => exact (sited_block .body 0 body fun i _ hm => by rwa [Nat.zero_add]).child
    | false =>
      exact (sited_block .elseBody 0 elseBody fun i _ hm => by rwa [Nat.zero_add]).child
  | .selector _ _ _ | .literal _ _ | .reference _ _ | .operation _ _ _ _ | .sheet _ _ =>
    Passing.sited_fault _

theorem sited_block {n : Node} (edge : Nat → Step) (index : Nat) : ∀ nodes : List Node,
    (∀ i m, nodes[i]? = some m → n.child? (edge (index + i)) = some m) →
      (Lexical.block edge index nodes).Sited n
  | [], _ => Passing.sited_ok _
  | m :: ms, h => by
    rw [Lexical.block]
    refine ((sited_statement m).under (h 0 m rfl)).andThen fun _ => ?_
    refine Passing.Sited.andThen (sited_block edge (index + 1) ms fun i m hm => ?_) fun _ =>
      Passing.sited_ok _
    rw [Nat.add_right_comm, Nat.add_assoc]
    exact h (i + 1) m hm

end

end Evaluate

/-! ## Whole trees -/

namespace Stylesheet

variable {sheet : Stylesheet}

theorem sited_of_check {findings : List Finding} (h : sheet.check = .ok findings) :
    ∀ f ∈ findings, f.Sited sheet.toNode := by
  obtain ⟨types, -, rfl⟩ := checkReport_of_check h
  exact Check.sited_block .item 0 sheet.items (fun i _ hm => by rwa [Nat.zero_add]) .empty

theorem sited_of_evaluate {e : Evaluation} (h : sheet.evaluate = .ok e) :
    ∀ f ∈ e.defects, f.Sited sheet.toNode := by
  obtain ⟨items, values, hreport, -⟩ := evaluate_ok_iff.1 h
  have hsited : sheet.evaluateReport.Sited sheet.toNode :=
    Evaluate.sited_block .item 0 sheet.items (fun i _ hm => by rwa [Nat.zero_add]) .empty
  rwa [hreport] at hsited

end Stylesheet

end StyleLang
