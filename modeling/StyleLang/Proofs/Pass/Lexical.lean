import StyleLang.Check
import StyleLang.Evaluate
import StyleLang.Proofs.Pass.Environment

/-!
# The two passes on lexical environments

The checker and the evaluator once more, without a stack of scopes: each hands one environment down.
Main statements: on every tree `Stylesheet.check` and `Stylesheet.evaluate` give what these give on
the empty environment, so what is proved about these holds of the passes that run.
-/

namespace StyleLang

namespace Check.Lexical

def assignment (pos : Position) (name : String) (expression : Node) : Passing ValueType Unit := do
  match ← Passing.reading fun types => (infer types expression).under .expression with
  | some t => Passing.assign name t
  | none => Passing.note .error pos (.untypedAssignment name)

mutual

def statement : Node → Passing ValueType Unit
  | .rule _ _ body => Passing.child (block .body 0 body)
  | .assignment pos name expression => assignment pos name expression
  | .declaration pos property expression =>
    Passing.reading fun types => declaration types pos property expression
  | .conditional pos cond body elseBody => do
    Passing.reading fun types => condition types pos cond
    Passing.child (block .body 0 body)
    match elseBody with
    | none => pure ()
    | some elseBody => Passing.child (block .elseBody 0 elseBody)
  | node => Passing.fault (.ofNode node)

def block (edge : Nat → Step) (index : Nat) : List Node → Passing ValueType Unit
  | [] => pure ()
  | node :: nodes => do
    (statement node).under (edge index)
    block edge (index + 1) nodes

end

end Check.Lexical

namespace Evaluate.Lexical

mutual

def statement : Node → Passing Constant (List Node)
  | .assignment _ name expression => do
    let c ← Passing.reading fun values => (fold values expression).under .expression
    Passing.assign name c
    pure []
  | .conditional pos cond body elseBody => do
    if ← Passing.reading fun values => choose values pos cond then
      Passing.child (block .body 0 body)
    else
      match elseBody with
      | none => pure []
      | some elseBody => Passing.child (block .elseBody 0 elseBody)
  | .declaration pos property expression => do
    let c ← Passing.reading fun values => (fold values expression).under .expression
    pure [.declaration pos property c.toNode]
  | .rule pos selectors body => do
    let body ← Passing.child (block .body 0 body)
    pure [.rule pos selectors body]
  | node => Passing.fault (.ofNode node)

def block (edge : Nat → Step) (index : Nat) : List Node → Passing Constant (List Node)
  | [] => pure []
  | node :: nodes => do
    let first ← (statement node).under (edge index)
    let rest ← block edge (index + 1) nodes
    pure (first ++ rest)

end

end Evaluate.Lexical

/-! ## The walks follow -/

open Walk

namespace Check

theorem follows_assignment (pos : Position) (name : String) (expression : Node) :
    (assignment pos name expression).Follows (Lexical.assignment pos name expression) := by
  refine (follows_reading _).andThen fun type => ?_
  cases type with
  | none => exact follows_note _ _ _
  | some t => exact follows_assign _ _

mutual

theorem follows_statement : ∀ node, (statement node).Follows (Lexical.statement node)
  | .rule _ _ body => by
    rw [statement, Lexical.statement]
    exact (follows_block .body 0 body).child
  | .assignment pos name expression => by
    rw [statement, Lexical.statement]
    exact follows_assignment pos name expression
  | .declaration _ _ _ => by
    rw [statement, Lexical.statement]
    exact follows_reading _
  | .conditional _ _ body none => by
    rw [statement, Lexical.statement]
    refine (follows_reading _).andThen fun _ => ?_
    exact ((follows_block .body 0 body).child).andThen fun _ => follows_ok _
  | .conditional _ _ body (some elseBody) => by
    rw [statement, Lexical.statement]
    refine (follows_reading _).andThen fun _ => ?_
    refine ((follows_block .body 0 body).child).andThen fun _ => ?_
    exact (follows_block .elseBody 0 elseBody).child
  | .selector _ _ _ | .literal _ _ | .reference _ _ | .operation _ _ _ _ | .sheet _ _ => by
    rw [statement, Lexical.statement]
    · exact follows_fault _
    all_goals simp

theorem follows_block (edge : Nat → Step) (index : Nat) :
    ∀ nodes, (block edge index nodes).Follows (Lexical.block edge index nodes)
  | [] => by
    rw [block, Lexical.block]
    exact follows_ok _
  | node :: nodes => by
    rw [block, Lexical.block]
    exact ((follows_statement node).under _).andThen fun _ => follows_block edge (index + 1) nodes

end

end Check

namespace Evaluate

mutual

theorem follows_statement : ∀ node, (statement node).Follows (Lexical.statement node)
  | .assignment _ _ _ => by
    rw [statement, Lexical.statement]
    refine (follows_reading _).andThen fun c => ?_
    exact (follows_assign _ _).andThen fun _ => follows_ok _
  | .conditional _ _ body none => by
    rw [statement, Lexical.statement]
    refine (follows_reading _).andThen fun b => ?_
    cases b with
    | true => exact (follows_block .body 0 body).child
    | false => exact follows_ok _
  | .conditional _ _ body (some elseBody) => by
    rw [statement, Lexical.statement]
    refine (follows_reading _).andThen fun b => ?_
    cases b with
    | true => exact (follows_block .body 0 body).child
    | false => exact (follows_block .elseBody 0 elseBody).child
  | .declaration _ _ _ => by
    rw [statement, Lexical.statement]
    exact (follows_reading _).andThen fun _ => follows_ok _
  | .rule _ _ body => by
    rw [statement, Lexical.statement]
    exact ((follows_block .body 0 body).child).andThen fun _ => follows_ok _
  | .selector _ _ _ | .literal _ _ | .reference _ _ | .operation _ _ _ _ | .sheet _ _ => by
    rw [statement, Lexical.statement]
    · exact follows_fault _
    all_goals simp

theorem follows_block (edge : Nat → Step) (index : Nat) :
    ∀ nodes, (block edge index nodes).Follows (Lexical.block edge index nodes)
  | [] => by
    rw [block, Lexical.block]
    exact follows_ok _
  | node :: nodes => by
    rw [block, Lexical.block]
    refine ((follows_statement node).under _).andThen fun _ => ?_
    exact (follows_block edge (index + 1) nodes).andThen fun _ => follows_ok _

end

end Evaluate

/-! ## Whole trees -/

namespace Stylesheet

/-- The lexical checker on a whole tree. -/
def checkReport (sheet : Stylesheet) : Report (Unit × Env ValueType) :=
  Check.Lexical.block .item 0 sheet.items .empty

/-- The lexical evaluator on a whole tree. -/
def evaluateReport (sheet : Stylesheet) : Report (List Node × Env Constant) :=
  Evaluate.Lexical.block .item 0 sheet.items .empty

theorem check_eq (sheet : Stylesheet) :
    sheet.check = sheet.checkReport.result.map fun _ => sheet.checkReport.findings := by
  have h := (Check.follows_block .item 0 sheet.items).fresh {}
  unfold check Checker.check
  simp only [h]
  unfold checkReport
  cases (Check.Lexical.block .item 0 sheet.items .empty).result <;> rfl

theorem evaluate_eq (sheet : Stylesheet) :
    sheet.evaluate = sheet.evaluateReport.result.map fun r =>
      { stylesheet := { sheet with items := r.1 }, defects := sheet.evaluateReport.findings } := by
  have h := (Evaluate.follows_block .item 0 sheet.items).fresh {}
  unfold evaluate Evaluator.apply
  simp only [h]
  unfold evaluateReport
  cases (Evaluate.Lexical.block .item 0 sheet.items .empty).result <;> rfl

/-- A run of the checker that returned, as a report on the tree. -/
theorem checkReport_of_check {sheet : Stylesheet} {findings : List Finding}
    (h : sheet.check = .ok findings) :
    ∃ Γ, sheet.checkReport.result = .ok ((), Γ) ∧ sheet.checkReport.findings = findings := by
  rw [check_eq] at h
  cases hr : sheet.checkReport.result with
  | error e => rw [hr] at h; cases h
  | ok r =>
    rw [hr] at h
    exact ⟨r.2, rfl, Except.ok.inj h⟩

/-- A run of the evaluator that returns, as a report on the tree. -/
theorem evaluate_ok_iff {sheet : Stylesheet} {e : Evaluation} : sheet.evaluate = .ok e ↔
    ∃ items values, sheet.evaluateReport = ⟨e.defects, .ok (items, values)⟩ ∧
      e.stylesheet = { sheet with items } := by
  rw [evaluate_eq]
  obtain ⟨stylesheet, defects⟩ := e
  rcases sheet.evaluateReport with ⟨findings, _ | ⟨items, values⟩⟩
  · simp [Except.map]
  · simp only [Except.map]
    constructor
    · intro h
      cases h
      exact ⟨items, values, rfl, rfl⟩
    · rintro ⟨items, values, h, rfl⟩
      cases h
      rfl

end Stylesheet

end StyleLang
