import StyleLang.Proofs.Pass.Lexical
import StyleLang.Proofs.Pass.Yields
import StyleLang.Proofs.Syntax.Strays

/-!
# Faults

Problems of a program never stop a pass. What stops one is a stray, a node at a place where nodes of
its kind do not belong, and nothing else: the stack of scopes is never too short. Main statements:
the checker returns from a tree without strays and stops at the first stray of any other; the
evaluator, which does not come to every node, returns or stops at one of the strays.
-/

namespace StyleLang

variable {τ α β : Type}

/-! ## Reports that a stray may stop -/

namespace Report

/-- The report returns if there are no strays, and otherwise the first one stops it. -/
def StopsAtFirst (strays : List (Path × Node)) (r : Report α) : Prop :=
  match strays with
  | [] => ∃ a, r.result = .ok a
  | first :: _ => r.result = .error (.ofNode first.2)

/-- The report returns, or one of the strays stops it. -/
def StopsAtOne (strays : List (Path × Node)) (r : Report α) : Prop :=
  (∃ a, r.result = .ok a) ∨ ∃ stray ∈ strays, r.result = .error (.ofNode stray.2)

variable {strays strays' : List (Path × Node)} {r : Report α} {next : α → Report β}

theorem stopsAtFirst_ok (a : α) : (ok a).StopsAtFirst [] := ⟨a, rfl⟩

theorem stopsAtFirst_note (severity : Severity) (pos : Position) (problem : Problem) :
    (note severity pos problem).StopsAtFirst [] := ⟨(), rfl⟩

theorem stopsAtFirst_fault (node : Node) :
    (fault (.ofNode node) : Report α).StopsAtFirst [([], node)] := rfl

theorem StopsAtFirst.andThen (h : r.StopsAtFirst strays)
    (hn : ∀ a, (next a).StopsAtFirst strays') :
    (r.andThen next).StopsAtFirst (strays ++ strays') := by
  obtain ⟨findings, result⟩ := r
  cases strays with
  | nil =>
    obtain ⟨a, rfl⟩ := h
    exact hn a
  | cons first rest =>
    obtain rfl : result = .error (.ofNode first.2) := h
    rfl

/-- What comes after a report may be stopped by nothing. -/
theorem StopsAtFirst.andThen_nil (h : r.StopsAtFirst strays) (hn : ∀ a, (next a).StopsAtFirst []) :
    (r.andThen next).StopsAtFirst strays := by
  have happend := h.andThen hn
  rwa [List.append_nil] at happend

theorem StopsAtFirst.under (h : r.StopsAtFirst strays) (step : Step) :
    (r.under step).StopsAtFirst (Node.straysUnder step strays) := by
  cases strays <;> exact h

theorem StopsAtFirst.result (h : r.StopsAtFirst strays) (hnil : strays = []) :
    ∃ a, r.result = .ok a := by
  subst hnil
  exact h

theorem StopsAtFirst.eq_nil (h : r.StopsAtFirst strays) {a : α} (hr : r.result = .ok a) :
    strays = [] := by
  cases strays with
  | nil => rfl
  | cons first rest => cases hr.symm.trans h

theorem StopsAtFirst.reason (h : r.StopsAtFirst strays) {reason : Fault}
    (hr : r.result = .error reason) :
    ∃ stray, strays.head? = some stray ∧ reason = .ofNode stray.2 := by
  cases strays with
  | nil =>
    obtain ⟨a, ha⟩ := h
    cases hr.symm.trans ha
  | cons first rest => exact ⟨first, rfl, Except.error.inj (hr.symm.trans h)⟩

theorem StopsAtFirst.stopsAtOne (h : r.StopsAtFirst strays) : r.StopsAtOne strays := by
  cases strays with
  | nil => exact .inl h
  | cons first rest => exact .inr ⟨first, List.mem_cons_self, h⟩

theorem stopsAtOne_ok (a : α) : (ok a).StopsAtOne strays := .inl ⟨a, rfl⟩

theorem stopsAtOne_note (severity : Severity) (pos : Position) (problem : Problem) :
    (note severity pos problem).StopsAtOne strays := .inl ⟨(), rfl⟩

theorem stopsAtOne_fault (node : Node) :
    (fault (.ofNode node) : Report α).StopsAtOne [([], node)] :=
  .inr ⟨_, List.mem_singleton_self _, rfl⟩

theorem StopsAtOne.mono (h : r.StopsAtOne strays) (hsubset : strays ⊆ strays') :
    r.StopsAtOne strays' :=
  h.imp_right fun ⟨stray, hstray, hr⟩ => ⟨stray, hsubset hstray, hr⟩

theorem StopsAtOne.andThen (h : r.StopsAtOne strays) (hn : ∀ a, (next a).StopsAtOne strays') :
    (r.andThen next).StopsAtOne (strays ++ strays') := by
  obtain ⟨findings, result⟩ := r
  rcases h with ⟨a, rfl⟩ | ⟨stray, hstray, rfl⟩
  · exact (hn a).mono (List.subset_append_right _ _)
  · exact .inr ⟨stray, List.mem_append_left _ hstray, rfl⟩

theorem StopsAtOne.andThen_nil (h : r.StopsAtOne strays) (hn : ∀ a, (next a).StopsAtOne []) :
    (r.andThen next).StopsAtOne strays := by
  have happend := h.andThen hn
  rwa [List.append_nil] at happend

theorem StopsAtOne.under (h : r.StopsAtOne strays) (step : Step) :
    (r.under step).StopsAtOne (Node.straysUnder step strays) :=
  h.imp_right fun ⟨_, hstray, hr⟩ => ⟨_, List.mem_map_of_mem hstray, hr⟩

theorem StopsAtOne.result (h : r.StopsAtOne strays) (hnil : strays = []) :
    ∃ a, r.result = .ok a := by
  subst hnil
  exact h.resolve_right fun ⟨_, hstray, _⟩ => absurd hstray List.not_mem_nil

end Report

namespace Passing

variable {strays strays' : List (Path × Node)} {env : Env τ} {pass : Passing τ α}
  {next : α → Passing τ β} {report : Env τ → Report α}

theorem stopsAtFirst_reading (h : (report env).StopsAtFirst strays) :
    (reading report env).StopsAtFirst strays := h.andThen_nil fun _ => Report.stopsAtFirst_ok _

theorem stopsAtFirst_child (h : (pass env).StopsAtFirst strays) :
    (pass.child env).StopsAtFirst strays := h.andThen_nil fun _ => Report.stopsAtFirst_ok _

theorem stopsAtFirst_andThen (h : (pass env).StopsAtFirst strays)
    (hn : ∀ a env', (next a env').StopsAtFirst strays') :
    (pass.andThen next env).StopsAtFirst (strays ++ strays') := h.andThen fun r => hn r.1 r.2

theorem stopsAtFirst_andThen_nil (h : (pass env).StopsAtFirst strays)
    (hn : ∀ a env', (next a env').StopsAtFirst []) :
    (pass.andThen next env).StopsAtFirst strays := h.andThen_nil fun r => hn r.1 r.2

theorem stopsAtOne_reading (h : (report env).StopsAtOne strays) :
    (reading report env).StopsAtOne strays := h.andThen_nil fun _ => Report.stopsAtOne_ok _

theorem stopsAtOne_child (h : (pass env).StopsAtOne strays) :
    (pass.child env).StopsAtOne strays := h.andThen_nil fun _ => Report.stopsAtOne_ok _

theorem stopsAtOne_andThen (h : (pass env).StopsAtOne strays)
    (hn : ∀ a env', (next a env').StopsAtOne strays') :
    (pass.andThen next env).StopsAtOne (strays ++ strays') := h.andThen fun r => hn r.1 r.2

theorem stopsAtOne_andThen_nil (h : (pass env).StopsAtOne strays)
    (hn : ∀ a env', (next a env').StopsAtOne []) :
    (pass.andThen next env).StopsAtOne strays := h.andThen_nil fun r => hn r.1 r.2

end Passing

open Report Passing

/-! ## The checker -/

namespace Check

variable {types : Env ValueType}

theorem stops_operationType (pos : Position) (op : Operator) (left right : Option ValueType) :
    (operationType pos op left right).StopsAtFirst [] := by
  unfold operationType
  split
  · split
    · exact stopsAtFirst_ok _
    · exact (stopsAtFirst_note _ _ _).andThen_nil fun _ => stopsAtFirst_ok _
  · exact (stopsAtFirst_note _ _ _).andThen_nil fun _ => stopsAtFirst_ok _

theorem stops_infer : ∀ e : Node, (infer types e).StopsAtFirst e.expressionStrays
  | .literal _ _ => stopsAtFirst_ok _
  | .reference _ name => by
    rw [infer]
    split
    · exact stopsAtFirst_ok _
    · exact (stopsAtFirst_note _ _ _).andThen_nil fun _ => stopsAtFirst_ok _
  | .operation pos op lhs rhs => by
    rw [infer, Node.expressionStrays]
    refine ((stops_infer lhs).under .lhs).andThen fun left => ?_
    exact ((stops_infer rhs).under .rhs).andThen_nil fun right => stops_operationType pos op _ _
  | .selector _ _ _ | .declaration _ _ _ | .assignment _ _ _ | .conditional _ _ _ _ | .rule _ _ _
  | .sheet _ _ => stopsAtFirst_fault _

theorem stops_declaration (pos : Position) (property : String) (e : Node) :
    (declaration types pos property e).StopsAtFirst
      (Node.straysUnder .expression e.expressionStrays) := by
  unfold declaration
  refine ((stops_infer e).under .expression).andThen_nil fun type => ?_
  split
  · exact stopsAtFirst_note _ _ _
  · split
    · exact stopsAtFirst_ok _
    · exact stopsAtFirst_note _ _ _

theorem stops_condition (pos : Position) (e : Node) :
    (condition types pos e).StopsAtFirst (Node.straysUnder .condition e.expressionStrays) := by
  unfold condition
  refine ((stops_infer e).under .condition).andThen_nil fun type => ?_
  split
  · exact stopsAtFirst_ok _
  · exact stopsAtFirst_note _ _ _

theorem stops_assignment (pos : Position) (name : String) (e : Node) :
    (Lexical.assignment pos name e types).StopsAtFirst
      (Node.straysUnder .expression e.expressionStrays) := by
  refine stopsAtFirst_andThen_nil (stopsAtFirst_reading ((stops_infer e).under .expression))
    fun type types' => ?_
  cases type with
  | some t => exact stopsAtFirst_ok _
  | none => exact stopsAtFirst_reading (stopsAtFirst_note _ _ _)

mutual

theorem stops_statement : ∀ (node : Node) (types : Env ValueType),
    (Lexical.statement node types).StopsAtFirst node.statementStrays
  | .rule _ _ body, types => by
    rw [Lexical.statement, Node.statementStrays]
    exact stopsAtFirst_child (stops_block .body 0 body types)
  | .assignment pos name e, types => by
    rw [Lexical.statement, Node.statementStrays]
    exact stops_assignment pos name e
  | .declaration pos property e, types => by
    rw [Lexical.statement, Node.statementStrays]
    exact stopsAtFirst_reading (stops_declaration pos property e)
  | .conditional pos c body none, types => by
    rw [Lexical.statement, Node.statementStrays]
    refine stopsAtFirst_andThen (stopsAtFirst_reading (stops_condition pos c)) fun _ types' => ?_
    exact stopsAtFirst_andThen (stopsAtFirst_child (stops_block .body 0 body types'))
      fun _ _ => stopsAtFirst_ok _
  | .conditional pos c body (some elseBody), types => by
    rw [Lexical.statement, Node.statementStrays]
    refine stopsAtFirst_andThen (stopsAtFirst_reading (stops_condition pos c)) fun _ types' => ?_
    refine stopsAtFirst_andThen (stopsAtFirst_child (stops_block .body 0 body types'))
      fun _ types'' => ?_
    exact stopsAtFirst_child (stops_block .elseBody 0 elseBody types'')
  | .selector _ _ _, _ | .literal _ _, _ | .reference _ _, _ | .operation _ _ _ _, _
  | .sheet _ _, _ => stopsAtFirst_fault _

theorem stops_block (edge : Nat → Step) (index : Nat) : ∀ (nodes : List Node)
    (types : Env ValueType), (Lexical.block edge index nodes types).StopsAtFirst
      (Node.blockStrays edge index nodes)
  | [], types => by
    rw [Lexical.block]
    exact stopsAtFirst_ok _
  | node :: nodes, types => by
    rw [Lexical.block, Node.blockStrays]
    refine stopsAtFirst_andThen ((stops_statement node types).under (edge index))
      fun _ types' => ?_
    exact stops_block edge (index + 1) nodes types'

end

theorem exists_result_condition {c : Node} (h : c.PlacedExpression) (pos : Position) :
    ∃ r, (condition types pos c).result = .ok r :=
  (stops_condition pos c).result
    (Node.straysUnder_eq_nil_iff.2 (Node.expressionStrays_eq_nil_iff.2 h))

theorem exists_result_statement {n : Node} (h : n.PlacedStatement) (types : Env ValueType) :
    ∃ r, (Lexical.statement n types).result = .ok r :=
  (stops_statement n types).result (Node.statementStrays_eq_nil_iff.2 h)

theorem exists_result_block {nodes : List Node} (h : Node.PlacedBlock nodes) (edge : Nat → Step)
    (types : Env ValueType) : ∃ r, (Lexical.block edge 0 nodes types).result = .ok r :=
  (stops_block edge 0 nodes types).result (Node.blockStrays_eq_nil_iff.2 h)

theorem placed_of_infer {e : Node} {type : Option ValueType}
    (h : (infer types e).result = .ok type) : e.PlacedExpression :=
  Node.expressionStrays_eq_nil_iff.1 ((stops_infer e).eq_nil h)

end Check

/-! ## The evaluator -/

namespace Evaluate

variable {values : Env Constant}

/-- In an expression the evaluator comes to every node. -/
theorem stops_fold : ∀ e : Node, (fold values e).StopsAtFirst e.expressionStrays
  | .literal _ _ => stopsAtFirst_ok _
  | .reference _ name => by
    rw [fold]
    split
    · exact stopsAtFirst_ok _
    · exact (stopsAtFirst_note _ _ _).andThen_nil fun _ => stopsAtFirst_ok _
  | .operation pos op lhs rhs => by
    rw [fold, Node.expressionStrays]
    refine ((stops_fold lhs).under .lhs).andThen fun left => ?_
    refine ((stops_fold rhs).under .rhs).andThen_nil fun right => ?_
    split
    · exact stopsAtFirst_ok _
    · exact (stopsAtFirst_note _ _ _).andThen_nil fun _ => stopsAtFirst_ok _
  | .selector _ _ _ | .declaration _ _ _ | .assignment _ _ _ | .conditional _ _ _ _ | .rule _ _ _
  | .sheet _ _ => stopsAtFirst_fault _

theorem stops_folding (step : Step) (e : Node) : ((fold values e).under step).StopsAtOne
    (Node.straysUnder step e.expressionStrays) := ((stops_fold e).under step).stopsAtOne

theorem stops_choose (pos : Position) (e : Node) :
    (choose values pos e).StopsAtOne (Node.straysUnder .condition e.expressionStrays) := by
  unfold choose
  refine (stops_folding .condition e).andThen_nil fun c => ?_
  split
  · exact stopsAtOne_ok _
  · exact (stopsAtOne_note _ _ _).andThen_nil fun _ => stopsAtOne_ok _

mutual

theorem stops_statement : ∀ (node : Node) (values : Env Constant),
    (Lexical.statement node values).StopsAtOne node.statementStrays
  | .assignment pos name e, values => by
    rw [Lexical.statement, Node.statementStrays]
    refine stopsAtOne_andThen_nil (stopsAtOne_reading (stops_folding .expression e))
      fun c values' => ?_
    exact stopsAtOne_andThen_nil (stopsAtOne_ok _) fun _ _ => stopsAtOne_ok _
  | .declaration pos property e, values => by
    rw [Lexical.statement, Node.statementStrays]
    exact stopsAtOne_andThen_nil (stopsAtOne_reading (stops_folding .expression e))
      fun _ _ => stopsAtOne_ok _
  | .conditional pos c body none, values => by
    rw [Lexical.statement, Node.statementStrays]
    refine stopsAtOne_andThen (stopsAtOne_reading (stops_choose pos c)) fun b values' => ?_
    cases b with
    | true =>
      exact (stopsAtOne_child (stops_block .body 0 body values')).mono
        (List.subset_append_left _ _)
    | false => exact stopsAtOne_ok _
  | .conditional pos c body (some elseBody), values => by
    rw [Lexical.statement, Node.statementStrays]
    refine stopsAtOne_andThen (stopsAtOne_reading (stops_choose pos c)) fun b values' => ?_
    cases b with
    | true =>
      exact (stopsAtOne_child (stops_block .body 0 body values')).mono
        (List.subset_append_left _ _)
    | false =>
      exact (stopsAtOne_child (stops_block .elseBody 0 elseBody values')).mono
        (List.subset_append_right _ _)
  | .rule _ _ body, values => by
    rw [Lexical.statement, Node.statementStrays]
    exact stopsAtOne_andThen_nil (stopsAtOne_child (stops_block .body 0 body values))
      fun _ _ => stopsAtOne_ok _
  | .selector _ _ _, _ | .literal _ _, _ | .reference _ _, _ | .operation _ _ _ _, _
  | .sheet _ _, _ => stopsAtOne_fault _

theorem stops_block (edge : Nat → Step) (index : Nat) : ∀ (nodes : List Node)
    (values : Env Constant), (Lexical.block edge index nodes values).StopsAtOne
      (Node.blockStrays edge index nodes)
  | [], values => by
    rw [Lexical.block]
    exact stopsAtOne_ok _
  | node :: nodes, values => by
    rw [Lexical.block, Node.blockStrays]
    refine stopsAtOne_andThen ((stops_statement node values).under (edge index))
      fun _ values' => ?_
    exact stopsAtOne_andThen_nil (stops_block edge (index + 1) nodes values')
      fun _ _ => stopsAtOne_ok _

end

theorem exists_result_fold {e : Node} (h : e.PlacedExpression) :
    ∃ c, (fold values e).result = .ok c :=
  (stops_fold e).result (Node.expressionStrays_eq_nil_iff.2 h)

theorem exists_result_choose {c : Node} (h : c.PlacedExpression) (pos : Position) :
    ∃ b, (choose values pos c).result = .ok b :=
  (stops_choose pos c).result
    (Node.straysUnder_eq_nil_iff.2 (Node.expressionStrays_eq_nil_iff.2 h))

theorem exists_result_statement {n : Node} (h : n.PlacedStatement) (values : Env Constant) :
    ∃ r, (Lexical.statement n values).result = .ok r :=
  (stops_statement n values).result (Node.statementStrays_eq_nil_iff.2 h)

theorem exists_result_block {nodes : List Node} (h : Node.PlacedBlock nodes) (edge : Nat → Step)
    (values : Env Constant) : ∃ r, (Lexical.block edge 0 nodes values).result = .ok r :=
  (stops_block edge 0 nodes values).result (Node.blockStrays_eq_nil_iff.2 h)

end Evaluate

/-! ## Whole trees -/

namespace Stylesheet

variable {sheet : Stylesheet}

/-- The first stray stops the checker. -/
theorem check_error_iff {reason : Fault} : sheet.check = .error reason ↔
    ∃ path m, sheet.FirstStrayAt path m ∧ reason = .ofNode m := by
  have hstops := Check.stops_block .item 0 sheet.items .empty
  change sheet.checkReport.StopsAtFirst sheet.strays at hstops
  simp only [check_eq, ← head?_strays_iff]
  generalize sheet.strays = strays at hstops
  cases strays with
  | nil =>
    obtain ⟨r, hr⟩ := hstops
    simp [hr, Except.map]
  | cons first rest =>
    have hr : sheet.checkReport.result = .error (.ofNode first.2) := hstops
    obtain ⟨path, m⟩ := first
    simp only [hr, Except.map, List.head?_cons, Option.some.injEq, Prod.mk.injEq,
      Except.error.injEq]
    constructor
    · rintro rfl
      exact ⟨path, m, ⟨rfl, rfl⟩, rfl⟩
    · rintro ⟨_, _, ⟨rfl, rfl⟩, rfl⟩
      rfl

/-- The checker returns from trees without strays and from no others. -/
theorem exists_check_iff : (∃ findings, sheet.check = .ok findings) ↔ sheet.Placed := by
  have hstops := Check.stops_block .item 0 sheet.items .empty
  rw [check_eq, ← strays_eq_nil_iff]
  constructor
  · rintro ⟨findings, h⟩
    cases hr : sheet.checkReport.result with
    | error e =>
      rw [hr] at h
      cases h
    | ok r => exact hstops.eq_nil hr
  · intro hnil
    obtain ⟨r, hr⟩ := hstops.result hnil
    exact ⟨_, congrArg (Except.map _) hr⟩

theorem placed_of_check {findings : List Finding} (h : sheet.check = .ok findings) :
    sheet.Placed := exists_check_iff.1 ⟨findings, h⟩

theorem exists_evaluate_or (sheet : Stylesheet) : (∃ e, sheet.evaluate = .ok e) ∨
    ∃ path m, sheet.StrayAt path m ∧ sheet.evaluate = .error (.ofNode m) := by
  rw [evaluate_eq]
  rcases Evaluate.stops_block .item 0 sheet.items .empty with ⟨r, hr⟩ | ⟨stray, hstray, hr⟩
  · exact .inl ⟨_, congrArg (Except.map _) hr⟩
  · exact .inr ⟨stray.1, stray.2, mem_strays_iff.1 hstray, congrArg (Except.map _) hr⟩

/-- One of the strays stops the evaluator, if anything does. -/
theorem strayAt_of_evaluate {reason : Fault} (h : sheet.evaluate = .error reason) :
    ∃ path m, sheet.StrayAt path m ∧ reason = .ofNode m := by
  rcases sheet.exists_evaluate_or with ⟨e, he⟩ | ⟨path, m, hm, he⟩
  · cases h.symm.trans he
  · exact ⟨path, m, hm, Except.error.inj (h.symm.trans he)⟩

theorem exists_evaluate_of_placed (h : sheet.Placed) : ∃ e, sheet.evaluate = .ok e :=
  sheet.exists_evaluate_or.resolve_right fun ⟨path, m, hm, _⟩ =>
    placed_iff_forall_not_strayAt.1 h path m hm

end Stylesheet

end StyleLang
