import StyleLang.Proofs.Pass.Course
import StyleLang.Proofs.Pass.Faults

/-!
# The moments of the two passes

The courses of the checker and of the evaluator, and with them all stacks of scopes that a run
passes through. Main statement: a run has one scope for the top level and one more for each body or
branch that the pass stands in, each with all the names around it, so that the innermost scope says
what every name means; and what a run returns is what the pass on environments returns.
-/

namespace StyleLang

/-! ## Courses -/

namespace Check

def assignmentCourse (pos : Position) (name : String) (expression : Node) :
    Course ValueType Unit := do
  match ← Course.reading fun types => (infer types expression).under .expression with
  | some t => Course.assign name t
  | none => Course.reading fun _ => Report.note .error pos (.untypedAssignment name)

mutual

def statementCourse : Node → Course ValueType Unit
  | .rule _ _ body => Course.child (blockCourse .body 0 body)
  | .assignment pos name expression => assignmentCourse pos name expression
  | .declaration pos property expression =>
    Course.reading fun types => declaration types pos property expression
  | .conditional pos cond body elseBody => do
    Course.reading fun types => condition types pos cond
    Course.child (blockCourse .body 0 body)
    match elseBody with
    | none => pure ()
    | some elseBody => Course.child (blockCourse .elseBody 0 elseBody)
  | node => Course.fault (.ofNode node)

def blockCourse (edge : Nat → Step) (index : Nat) : List Node → Course ValueType Unit
  | [] => Course.under (edge index) (pure ())
  | node :: nodes => do
    Course.under (edge index) (statementCourse node)
    blockCourse edge (index + 1) nodes

end

theorem walk_assignmentCourse (pos : Position) (name : String) (expression : Node) :
    (assignmentCourse pos name expression).walk = assignment pos name expression := by
  unfold assignmentCourse assignment
  rw [Course.bind_def, Walk.bind_def, Course.walk, Course.walk]
  congr 1
  funext type
  cases type <;> rfl

mutual

theorem walk_statementCourse : ∀ node, (statementCourse node).walk = statement node
  | .rule _ _ body => by
    rw [statementCourse, statement, Course.walk, walk_blockCourse]
  | .assignment pos name e => by
    rw [statementCourse, statement, walk_assignmentCourse]
  | .declaration _ _ _ => by
    rw [statementCourse, statement, Course.walk]
  | .conditional _ _ body none => by
    rw [statementCourse, statement]
    simp only [Course.bind_def, Walk.bind_def, Course.walk, walk_blockCourse .body 0 body]
    rfl
  | .conditional _ _ body (some elseBody) => by
    rw [statementCourse, statement]
    simp only [Course.bind_def, Walk.bind_def, Course.walk, walk_blockCourse .body 0 body,
      walk_blockCourse .elseBody 0 elseBody]
  | .selector _ _ _ | .literal _ _ | .reference _ _ | .operation _ _ _ _ | .sheet _ _ => by
    rw [statementCourse, statement]
    · rfl
    all_goals simp

theorem walk_blockCourse (edge : Nat → Step) (index : Nat) :
    ∀ nodes, (blockCourse edge index nodes).walk = block edge index nodes
  | [] => by
    rw [blockCourse, block]
    rfl
  | node :: nodes => by
    rw [blockCourse, block]
    simp only [Course.bind_def, Walk.bind_def, Course.walk, walk_statementCourse node,
      walk_blockCourse edge (index + 1) nodes]

end

end Check

namespace Evaluate

mutual

def statementCourse : Node → Course Constant (List Node)
  | .assignment _ name expression => do
    let c ← Course.reading fun values => (fold values expression).under .expression
    Course.assign name c
    pure []
  | .conditional pos cond body elseBody => do
    if ← Course.reading fun values => choose values pos cond then
      Course.child (blockCourse .body 0 body)
    else
      match elseBody with
      | none => pure []
      | some elseBody => Course.child (blockCourse .elseBody 0 elseBody)
  | .declaration pos property expression => do
    let c ← Course.reading fun values => (fold values expression).under .expression
    pure [.declaration pos property c.toNode]
  | .rule pos selectors body => do
    let body ← Course.child (blockCourse .body 0 body)
    pure [.rule pos selectors body]
  | node => Course.fault (.ofNode node)

def blockCourse (edge : Nat → Step) (index : Nat) : List Node → Course Constant (List Node)
  | [] => Course.under (edge index) (pure [])
  | node :: nodes => do
    let first ← Course.under (edge index) (statementCourse node)
    let rest ← blockCourse edge (index + 1) nodes
    -- what is left is put together at the end of the block
    Course.under (edge (index + nodes.length + 1)) (pure (first ++ rest))

end

mutual

theorem walk_statementCourse : ∀ node, (statementCourse node).walk = statement node
  | .assignment _ _ _ => by
    rw [statementCourse, statement]
    rfl
  | .conditional _ _ body none => by
    rw [statementCourse, statement, Course.bind_def, Walk.bind_def, Course.walk, Course.walk]
    congr 1
    funext b
    cases b with
    | true => exact congrArg Walk.child (walk_blockCourse .body 0 body)
    | false => rfl
  | .conditional _ _ body (some elseBody) => by
    rw [statementCourse, statement, Course.bind_def, Walk.bind_def, Course.walk, Course.walk]
    congr 1
    funext b
    cases b with
    | true => exact congrArg Walk.child (walk_blockCourse .body 0 body)
    | false => exact congrArg Walk.child (walk_blockCourse .elseBody 0 elseBody)
  | .declaration _ _ _ => by
    rw [statementCourse, statement]
    rfl
  | .rule _ _ body => by
    rw [statementCourse, statement]
    simp only [Course.bind_def, Walk.bind_def, Course.walk, walk_blockCourse .body 0 body]
    rfl
  | .selector _ _ _ | .literal _ _ | .reference _ _ | .operation _ _ _ _ | .sheet _ _ => by
    rw [statementCourse, statement]
    · rfl
    all_goals simp

theorem walk_blockCourse (edge : Nat → Step) (index : Nat) :
    ∀ nodes, (blockCourse edge index nodes).walk = block edge index nodes
  | [] => by
    rw [blockCourse, block]
    rfl
  | node :: nodes => by
    rw [blockCourse, block]
    simp only [Course.bind_def, Walk.bind_def, Course.walk, walk_statementCourse node,
      walk_blockCourse edge (index + 1) nodes]
    rfl

end

end Evaluate

/-! ## Depths -/

/-- The step leads into a body of a rule or a branch of a conditional. -/
def Step.entersBlock : Step → Bool
  | .body _ => true
  | .elseBody _ => true
  | _ => false

/-- How many bodies and branches the path leads into. -/
def Path.blocks (path : Path) : Nat := path.countP Step.entersBlock

theorem Path.blocks_cons (step : Step) (path : Path) :
    Path.blocks (step :: path) = Path.blocks path + if step.entersBlock then 1 else 0 :=
  List.countP_cons

variable {τ α β : Type}

namespace Course

open ScopeStack (Nested)

/-- Started on nested scopes, the course has at each moment as many scopes more as the relation says
of the place. -/
def Deepens (R : Path → Nat → Prop) (c : Course τ α) : Prop :=
  ∀ (scope : Bindings τ) (outer : List (Bindings τ)), Nested ⟨scope :: outer⟩ →
    ∀ m ∈ c.moments ⟨scope :: outer⟩, ∃ k, m.scopes.size = outer.length + 1 + k ∧ R m.path k

/-- As many scopes as there are blocks on the way. -/
def ByBlocks (path : Path) (k : Nat) : Prop := k = Path.blocks path

/-- As many scopes as there are blocks on the way, the one that the edges lead into left out. -/
def ByInnerBlocks (edge : Nat → Step) (path : Path) (k : Nat) : Prop :=
  ∃ i rest, path = edge i :: rest ∧ k = Path.blocks rest

theorem deepens_ok (a : α) : (ok a : Course τ α).Deepens ByBlocks := by
  intro scope outer _ m hm
  rw [List.mem_singleton.1 hm]
  exact ⟨0, rfl, rfl⟩

theorem deepens_fault (reason : Fault) : (fault reason : Course τ α).Deepens ByBlocks := by
  intro scope outer _ m hm
  rw [List.mem_singleton.1 hm]
  exact ⟨0, rfl, rfl⟩

theorem deepens_reading (report : (String → Option τ) → Report α) :
    (reading report).Deepens ByBlocks := by
  intro scope outer _ m hm
  rw [List.mem_singleton.1 hm]
  exact ⟨0, rfl, rfl⟩

theorem deepens_assign (name : String) (value : τ) : (assign name value).Deepens ByBlocks := by
  intro scope outer _ m hm
  rcases List.mem_cons.1 hm with rfl | hm
  · exact ⟨0, rfl, rfl⟩
  · rw [List.mem_singleton.1 hm]
    exact ⟨0, rfl, rfl⟩

variable {edge : Nat → Step} {R : Path → Nat → Prop}

/-- A child is entered for a block and left after it. -/
theorem Deepens.child {inside : Course τ α} (h : inside.Deepens (ByInnerBlocks edge))
    (hedge : ∀ i, (edge i).entersBlock = true) : (Course.child inside).Deepens ByBlocks := by
  intro scope outer hs m hm
  obtain ⟨-, scope', hwalk, -⟩ := inside.nested_moments hs.copy
  have henter : ScopeStack.enter ⟨scope :: outer⟩ = .ok ⟨scope :: scope :: outer⟩ := rfl
  rw [moments_child inside henter, Walk.leave_scopes hwalk] at hm
  rcases List.mem_cons.1 hm with rfl | hm
  · exact ⟨0, rfl, rfl⟩
  rcases List.mem_append.1 hm with hm | hm
  · obtain ⟨_, hk, i, rest, hpath, rfl⟩ := h scope (scope :: outer) hs.copy m hm
    refine ⟨Path.blocks rest + 1, ?_, ?_⟩
    · rw [hk, List.length_cons]
      omega
    · rw [ByBlocks, hpath, Path.blocks_cons, if_pos (hedge i)]
  · rw [List.mem_singleton.1 hm]
    exact ⟨0, rfl, rfl⟩

theorem Deepens.under {c : Course τ α} (h : c.Deepens ByBlocks) (i : Nat) :
    (Course.under (edge i) c).Deepens (ByInnerBlocks edge) := by
  intro scope outer hs m hm
  obtain ⟨m', hm', rfl⟩ := List.mem_map.1 hm
  obtain ⟨k, hk, hpath⟩ := h scope outer hs m' hm'
  exact ⟨k, hk, i, m'.path, rfl, hpath⟩

theorem Deepens.andThen {c : Course τ α} {next : α → Course τ β} (h : c.Deepens R)
    (hn : ∀ a, (next a).Deepens R) : (c.andThen next).Deepens R := by
  intro scope outer hs m hm
  obtain ⟨-, scope', hwalk, hwithin⟩ := c.nested_moments hs
  rw [moments] at hm
  rcases List.mem_append.1 hm with hm | hm
  · exact h scope outer hs m hm
  · split at hm
    · cases hm
    · rw [hwalk] at hm
      exact hn _ scope' outer (hs.grow hwithin) m hm

end Course

open Course (Deepens deepens_ok deepens_fault deepens_reading deepens_assign ByBlocks
  ByInnerBlocks)

namespace Check

mutual

theorem deepens_statement : ∀ node, (statementCourse node).Deepens ByBlocks
  | .rule _ _ body => by
    rw [statementCourse]
    exact (deepens_block .body 0 body).child fun _ => rfl
  | .assignment pos name e => by
    rw [statementCourse]
    refine (deepens_reading _).andThen fun type => ?_
    cases type with
    | some t => exact deepens_assign _ _
    | none => exact deepens_reading _
  | .declaration _ _ _ => by
    rw [statementCourse]
    exact deepens_reading _
  | .conditional _ _ body none => by
    rw [statementCourse]
    refine (deepens_reading _).andThen fun _ => ?_
    exact ((deepens_block .body 0 body).child fun _ => rfl).andThen fun _ => deepens_ok _
  | .conditional _ _ body (some elseBody) => by
    rw [statementCourse]
    refine (deepens_reading _).andThen fun _ => ?_
    refine ((deepens_block .body 0 body).child fun _ => rfl).andThen fun _ => ?_
    exact (deepens_block .elseBody 0 elseBody).child fun _ => rfl
  | .selector _ _ _ | .literal _ _ | .reference _ _ | .operation _ _ _ _ | .sheet _ _ => by
    rw [statementCourse]
    · exact deepens_fault _
    all_goals simp

theorem deepens_block (edge : Nat → Step) (index : Nat) :
    ∀ nodes, (blockCourse edge index nodes).Deepens (ByInnerBlocks edge)
  | [] => by
    rw [blockCourse]
    exact (deepens_ok _).under index
  | node :: nodes => by
    rw [blockCourse]
    refine ((deepens_statement node).under index).andThen fun _ => ?_
    exact deepens_block edge (index + 1) nodes

end

end Check

namespace Evaluate

mutual

theorem deepens_statement : ∀ node, (statementCourse node).Deepens ByBlocks
  | .assignment _ _ _ => by
    rw [statementCourse]
    refine (deepens_reading _).andThen fun c => ?_
    exact (deepens_assign _ _).andThen fun _ => deepens_ok _
  | .conditional _ _ body none => by
    rw [statementCourse]
    refine (deepens_reading _).andThen fun b => ?_
    cases b with
    | true => exact (deepens_block .body 0 body).child fun _ => rfl
    | false => exact deepens_ok _
  | .conditional _ _ body (some elseBody) => by
    rw [statementCourse]
    refine (deepens_reading _).andThen fun b => ?_
    cases b with
    | true => exact (deepens_block .body 0 body).child fun _ => rfl
    | false => exact (deepens_block .elseBody 0 elseBody).child fun _ => rfl
  | .declaration _ _ _ => by
    rw [statementCourse]
    exact (deepens_reading _).andThen fun _ => deepens_ok _
  | .rule _ _ body => by
    rw [statementCourse]
    exact ((deepens_block .body 0 body).child fun _ => rfl).andThen fun _ => deepens_ok _
  | .selector _ _ _ | .literal _ _ | .reference _ _ | .operation _ _ _ _ | .sheet _ _ => by
    rw [statementCourse]
    · exact deepens_fault _
    all_goals simp

theorem deepens_block (edge : Nat → Step) (index : Nat) :
    ∀ nodes, (blockCourse edge index nodes).Deepens (ByInnerBlocks edge)
  | [] => by
    rw [blockCourse]
    exact (deepens_ok _).under index
  | node :: nodes => by
    rw [blockCourse]
    refine ((deepens_statement node).under index).andThen fun _ => ?_
    refine (deepens_block edge (index + 1) nodes).andThen fun _ => ?_
    exact (deepens_ok _).under _

end

end Evaluate

/-! ## Whole trees -/

open ScopeStack (Nested nested_fresh)

/-- There is one scope for the top level and one for each block that the pass stands in, each has
the names around it, and the innermost one says what every name means. -/
structure Moment.Lexical (m : Moment τ) : Prop where
  size : m.scopes.size = 1 + m.path.blocks
  nested : m.scopes.Nested
  lookup : ∃ scope, m.scopes.peek = .ok scope ∧ ∀ name, m.scopes.lookup name = scope.get? name

/-- The course of the walk on the scopes, with lexical moments only. -/
structure Course.Runs (c : Course τ α) (w : Walk τ α) (s : Scopes τ) : Prop where
  walk_eq : c.walk = w
  trail : Trail s (c.moments s) (w s).2
  lexical : ∀ m ∈ c.moments s, m.Lexical

/-- A run on items starts with one scope, which is empty. -/
theorem Course.runs_fresh {c : Course τ α} {w : Walk τ α} (hw : c.walk = w)
    (h : c.Deepens (ByInnerBlocks .item)) (s : Scopes τ) : c.Runs w (s.clear.push {}) := by
  refine ⟨hw, hw ▸ c.trail _, fun m hm => ?_⟩
  obtain ⟨hnested, -⟩ := c.nested_moments nested_fresh
  obtain ⟨_, hsize, i, rest, hpath, rfl⟩ := h {} [] nested_fresh m hm
  have hm' := hnested m hm
  refine ⟨?_, hm', ?_⟩
  · rw [hsize, hpath, Path.blocks_cons]
    rfl
  · obtain ⟨path, ⟨scopes⟩⟩ := m
    cases scopes with
    | nil => exact absurd rfl hm'.nonempty
    | cons scope outer => exact ⟨scope, rfl, hm'.lookup⟩

namespace Stylesheet

def checkCourse (sheet : Stylesheet) : Course ValueType Unit :=
  Check.blockCourse .item 0 sheet.items

def evaluateCourse (sheet : Stylesheet) : Course Constant (List Node) :=
  Evaluate.blockCourse .item 0 sheet.items

/-- The stack of scopes is nothing but lexical environments, in every run of either pass: at each
moment it is lexical, it is never too short, and the pass returns what it returns when one
environment is handed down instead. -/
theorem passes_lexical (sheet : Stylesheet) :
    (∀ c : Checker, sheet.checkCourse.Runs (Check.block .item 0 sheet.items)
      (c.scopes.clear.push {})) ∧
    (∀ e : Evaluator, sheet.evaluateCourse.Runs (Evaluate.block .item 0 sheet.items)
      (e.scopes.clear.push {})) ∧
    (∀ reason, sheet.check ≠ .error (.scope reason) ∧ sheet.evaluate ≠ .error (.scope reason)) ∧
    sheet.check = (sheet.checkReport.result.map fun _ => sheet.checkReport.findings) ∧
    sheet.evaluate = sheet.evaluateReport.result.map fun r =>
      { stylesheet := { sheet with items := r.1 }, defects := sheet.evaluateReport.findings } := by
  refine ⟨fun c => ?_, fun e => ?_, fun reason => ⟨fun h => ?_, fun h => ?_⟩, sheet.check_eq,
    sheet.evaluate_eq⟩
  · exact Course.runs_fresh (Check.walk_blockCourse _ _ _) (Check.deepens_block _ _ _) _
  · exact Course.runs_fresh (Evaluate.walk_blockCourse _ _ _) (Evaluate.deepens_block _ _ _) _
  · obtain ⟨_, m, -, hm⟩ := check_error_iff.1 h
    exact Fault.ofNode_ne_scope m reason hm.symm
  · obtain ⟨_, m, -, hm⟩ := strayAt_of_evaluate h
    exact Fault.ofNode_ne_scope m reason hm.symm

end Stylesheet

end StyleLang
