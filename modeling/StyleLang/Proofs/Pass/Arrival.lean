import StyleLang.Proofs.Pass.Equations
import StyleLang.Proofs.Pass.Moments
import StyleLang.Proofs.Syntax.Deletion

/-!
# Where the evaluator arrives

The evaluator looks names up where it has arrived at a statement with an expression, under the
literals that the statements before have left. Main statements: whatever a run reads, it has arrived
there; and what an assignment has bound, its name stands for wherever the evaluator arrives later in
the same block or deeper, if no assignment in between binds the name again.
-/

namespace StyleLang

variable {τ α β : Type}

/-! ## Readings of a course -/

namespace Course

/-- The places where names are looked up, each with what the names mean there, in order. -/
def readings {α : Type} : Course τ α → Scopes τ → List (Path × Env τ)
  | ok _, _ => []
  | fault _, _ => []
  | reading _, s => [([], s.lookup)]
  | assign _ _, _ => []
  | child inside, s =>
    match s.enter with
    | .error _ => []
    | .ok s' => inside.readings s'
  | under step c, s => (c.readings s).map fun r => (step :: r.1, r.2)
  | andThen c next, s =>
    c.readings s ++
      match (c.walk s).1.result with
      | .error _ => []
      | .ok a => (next a).readings (c.walk s).2

variable {r : Path × Env τ} {s : Scopes τ}

theorem mem_readings_andThen {c : Course τ α} {next : α → Course τ β}
    (h : r ∈ (c.andThen next).readings s) : r ∈ c.readings s ∨
      ∃ a, (c.walk s).1.result = .ok a ∧ r ∈ (next a).readings (c.walk s).2 := by
  rw [readings] at h
  rcases List.mem_append.1 h with h | h
  · exact .inl h
  · cases hr : (c.walk s).1.result with
    | error e =>
      rw [hr] at h
      cases h
    | ok a =>
      rw [hr] at h
      exact .inr ⟨a, rfl, h⟩

theorem mem_readings_under {c : Course τ α} {step : Step}
    (h : r ∈ (under step c).readings s) :
    ∃ path, r.1 = step :: path ∧ (path, r.2) ∈ c.readings s := by
  obtain ⟨r', hr', rfl⟩ := List.mem_map.1 h
  exact ⟨r'.1, rfl, hr'⟩

theorem mem_readings_first {c : Course τ α} (h : r ∈ c.readings s) (next : α → Course τ β) :
    r ∈ (c.andThen next).readings s := by
  rw [readings]
  exact List.mem_append_left _ h

theorem mem_readings_next {c : Course τ α} {next : α → Course τ β} {a : α}
    (ha : (c.walk s).1.result = .ok a) (h : r ∈ (next a).readings (c.walk s).2) :
    r ∈ (c.andThen next).readings s := by
  rw [readings, ha]
  exact List.mem_append_right _ h

theorem mem_readings_child {inside : Course τ α} {scope : Bindings τ}
    {outer : List (Bindings τ)} (h : r ∈ (child inside).readings ⟨scope :: outer⟩) :
    r ∈ inside.readings ⟨scope :: scope :: outer⟩ := h

end Course

/-! ## Arrivals -/

namespace Evaluate

/-- The literals after some statements, if none of them stops the evaluator. -/
def after : List Node → Env Constant → Option (Env Constant)
  | [], values => some values
  | n :: ns, values =>
    match (Lexical.statement n values).result with
    | .error _ => none
    | .ok r => after ns r.2

theorem after_append (ns ms : List Node) (values : Env Constant) :
    after (ns ++ ms) values = (after ns values).bind (after ms) := by
  induction ns generalizing values with
  | nil => rfl
  | cons n ns ih =>
    rw [List.cons_append, after, after]
    cases (Lexical.statement n values).result with
    | error e => rfl
    | ok r => exact ih r.2

/-- A block that the evaluator passes, it passes statement by statement. -/
theorem exists_after_of_block {edge : Nat → Step} {index i : Nat} {nodes : List Node}
    {child : Node} {values : Env Constant} {r : List Node × Env Constant}
    (hchild : nodes[i]? = some child)
    (h : (Lexical.block edge index nodes values).result = .ok r) :
    ∃ mid r', after (nodes.take i) values = some mid ∧
      (Lexical.statement child mid).result = .ok r' := by
  induction nodes generalizing index i values r with
  | nil => cases hchild
  | cons n ns ih =>
    rw [block_cons] at h
    obtain ⟨first, hfirst, h⟩ := Report.exists_of_andThen h
    have hfirst' : (Lexical.statement n values).result = .ok first := hfirst
    cases i with
    | zero =>
      obtain rfl := Option.some.inj hchild
      exact ⟨values, first, rfl, hfirst'⟩
    | succ i =>
      obtain ⟨rest, hrest, -⟩ := Report.exists_of_andThen h
      rw [List.take_succ_cons, after, hfirst']
      exact ih hchild hrest

/-- Under the literals, the evaluator takes the statements of the block behind the edges. -/
inductive Takes (values : Env Constant) : Node → (Nat → Step) → List Node → Prop where
  | items {pos : Position} {items : List Node} : Takes values (.sheet pos items) .item items
  | rule {pos : Position} {selectors body : List Node} :
    Takes values (.rule pos selectors body) .body body
  | thenBranch {pos : Position} {c : Node} {body : List Node} {elseBody : Option (List Node)}
    (h : (choose values pos c).result = .ok true) :
    Takes values (.conditional pos c body elseBody) .body body
  | elseBranch {pos : Position} {c : Node} {body elseBody : List Node}
    (h : (choose values pos c).result = .ok false) :
    Takes values (.conditional pos c body (some elseBody)) .elseBody elseBody

/-- Started at the node, the evaluator arrives at the end of the path, with the given literals at
the start and there. -/
inductive Arrives : Node → Env Constant → Path → Env Constant → Prop where
  | here (n : Node) (values : Env Constant) : Arrives n values [] values
  | into {n child : Node} {values mid values' : Env Constant} {edge : Nat → Step}
    {nodes : List Node} {i : Nat} {path : Path} (htakes : Takes values n edge nodes)
    (hchild : nodes[i]? = some child) (hafter : after (nodes.take i) values = some mid)
    (h : Arrives child mid path values') : Arrives n values (edge i :: path) values'

/-- Started at a block whose first statement has the given index, the evaluator arrives at the end
of the path. -/
def ArrivesIn (edge : Nat → Step) (index : Nat) (nodes : List Node) (values : Env Constant)
    (path : Path) (values' : Env Constant) : Prop :=
  ∃ i child mid rest, path = edge (index + i) :: rest ∧ nodes[i]? = some child ∧
    after (nodes.take i) values = some mid ∧ Arrives child mid rest values'

theorem ArrivesIn.arrives {n : Node} {edge : Nat → Step} {nodes : List Node}
    {values values' : Env Constant} {path : Path} (h : ArrivesIn edge 0 nodes values path values')
    (htakes : Takes values n edge nodes) : Arrives n values path values' := by
  obtain ⟨i, child, mid, rest, rfl, hchild, hmid, hrest⟩ := h
  rw [Nat.zero_add]
  exact .into htakes hchild hmid hrest

/-- Beyond the first statement of a block, the evaluator arrives as in the block of the others. -/
theorem ArrivesIn.cons {edge : Nat → Step} {index : Nat} {n : Node} {ns : List Node}
    {values mid values' : Env Constant} {out : List Node} {path : Path}
    (hn : (Lexical.statement n values).result = .ok (out, mid))
    (h : ArrivesIn edge (index + 1) ns mid path values') :
    ArrivesIn edge index (n :: ns) values path values' := by
  obtain ⟨i, child, inner, rest, rfl, hchild, hafter, hrest⟩ := h
  refine ⟨i + 1, child, inner, rest, ?_, hchild, ?_, hrest⟩
  · rw [Nat.add_assoc, Nat.add_comm 1 i]
  · rw [List.take_succ_cons, after, hn]
    exact hafter

section Readings

variable {scope : Bindings Constant} {outer : List (Bindings Constant)}

/-- Where a block starts on a copy of the innermost scope, names mean what they mean outside. -/
theorem ArrivesIn.ofChild {n : Node} {edge : Nat → Step} {nodes : List Node} {path : Path}
    {values : Env Constant}
    (h : ArrivesIn edge 0 nodes (ScopeStack.lookup ⟨scope :: scope :: outer⟩) path values)
    (htakes : Takes (ScopeStack.lookup ⟨scope :: outer⟩) n edge nodes) :
    Arrives n (ScopeStack.lookup ⟨scope :: outer⟩) path values := by
  rw [ScopeStack.lookup_copy] at h
  exact h.arrives htakes

/-- After a statement that does not stop the evaluator, the names mean what it left. -/
theorem walk_statementCourse_ok {n : Node} {a : List Node}
    (h : ((statementCourse n).walk ⟨scope :: outer⟩).1.result = .ok a) :
    ∃ scope', ((statementCourse n).walk ⟨scope :: outer⟩).2 = ⟨scope' :: outer⟩ ∧
      (Lexical.statement n (ScopeStack.lookup ⟨scope :: outer⟩)).result =
        .ok (a, ScopeStack.lookup ⟨scope' :: outer⟩) := by
  rw [walk_statementCourse] at h ⊢
  obtain ⟨scope', hwalk, henv⟩ := follows_statement n scope outer
  rw [hwalk] at h ⊢
  refine ⟨scope', rfl, ?_⟩
  cases hr : (Lexical.statement n (ScopeStack.lookup ⟨scope :: outer⟩)).result with
  | error e =>
    rw [hr] at h
    cases h
  | ok r =>
    rw [hr] at h
    obtain rfl := Except.ok.inj h
    rw [henv r.1 r.2 hr]

mutual

theorem arrives_statement : ∀ (n : Node) {scope : Bindings Constant}
    {outer : List (Bindings Constant)} {path : Path} {values : Env Constant},
    (path, values) ∈ (statementCourse n).readings ⟨scope :: outer⟩ →
      Arrives n (ScopeStack.lookup ⟨scope :: outer⟩) path values
  | .assignment _ _ _, scope, outer, path, values, h => by
    rw [statementCourse] at h
    rcases Course.mem_readings_andThen h with h | ⟨_, -, h⟩
    · obtain ⟨rfl, rfl⟩ := Prod.mk.inj (List.mem_singleton.1 h)
      exact .here _ _
    · rcases Course.mem_readings_andThen h with h | ⟨_, -, h⟩
      · cases h
      · cases h
  | .declaration _ _ _, scope, outer, path, values, h => by
    rw [statementCourse] at h
    rcases Course.mem_readings_andThen h with h | ⟨_, -, h⟩
    · obtain ⟨rfl, rfl⟩ := Prod.mk.inj (List.mem_singleton.1 h)
      exact .here _ _
    · cases h
  | .rule _ _ body, scope, outer, path, values, h => by
    rw [statementCourse] at h
    rcases Course.mem_readings_andThen h with h | ⟨_, -, h⟩
    · exact (arrives_block .body 0 body (Course.mem_readings_child h)).ofChild .rule
    · cases h
  | .conditional _ _ body none, scope, outer, path, values, h => by
    rw [statementCourse] at h
    rcases Course.mem_readings_andThen h with h | ⟨b, hb, h⟩
    · obtain ⟨rfl, rfl⟩ := Prod.mk.inj (List.mem_singleton.1 h)
      exact .here _ _
    · cases b with
      | false => cases h
      | true =>
        exact (arrives_block .body 0 body (Course.mem_readings_child h)).ofChild (.thenBranch hb)
  | .conditional _ _ body (some elseBody), scope, outer, path, values, h => by
    rw [statementCourse] at h
    rcases Course.mem_readings_andThen h with h | ⟨b, hb, h⟩
    · obtain ⟨rfl, rfl⟩ := Prod.mk.inj (List.mem_singleton.1 h)
      exact .here _ _
    · cases b with
      | false =>
        have harrives := arrives_block .elseBody 0 elseBody (Course.mem_readings_child h)
        exact harrives.ofChild (.elseBranch hb)
      | true =>
        exact (arrives_block .body 0 body (Course.mem_readings_child h)).ofChild (.thenBranch hb)
  | .selector _ _ _, _, _, _, _, h | .literal _ _, _, _, _, _, h | .reference _ _, _, _, _, _, h
  | .operation _ _ _ _, _, _, _, _, h | .sheet _ _, _, _, _, _, h => by
    rw [statementCourse] at h
    · cases h
    all_goals simp

/-- What a run on a block reads, it reads at one of its statements, after those before it. -/
theorem arrives_block (edge : Nat → Step) (index : Nat) : ∀ (nodes : List Node)
    {scope : Bindings Constant} {outer : List (Bindings Constant)} {path : Path}
    {values : Env Constant},
    (path, values) ∈ (blockCourse edge index nodes).readings ⟨scope :: outer⟩ →
      ArrivesIn edge index nodes (ScopeStack.lookup ⟨scope :: outer⟩) path values
  | [], _, _, _, _, h => by
    rw [blockCourse] at h
    cases h
  | n :: ns, scope, outer, path, values, h => by
    rw [blockCourse] at h
    rcases Course.mem_readings_andThen h with h | ⟨a, ha, h⟩
    · obtain ⟨rest, hpath, h⟩ := Course.mem_readings_under h
      exact ⟨0, n, _, rest, hpath, rfl, rfl, arrives_statement n h⟩
    · rcases Course.mem_readings_andThen h with h | ⟨_, -, h⟩
      · obtain ⟨scope', hwalk, hresult⟩ := walk_statementCourse_ok ha
        have h' : (path, values) ∈ (blockCourse edge (index + 1) ns).readings
            ⟨scope' :: outer⟩ := hwalk ▸ h
        exact (arrives_block edge (index + 1) ns h').cons hresult
      · obtain ⟨_, -, h⟩ := Course.mem_readings_under h
        cases h

end

end Readings

/-! ## What statements bind -/

/-- The members before an index, split at an earlier one. -/
theorem take_eq_of_lt {xs : List α} {x : α} {i j : Nat} (h : xs[i]? = some x) (hij : i < j) :
    xs.take j = xs.take i ++ x :: (xs.take j).drop (i + 1) := by
  have hx : (xs.take j)[i]? = some x := by rwa [List.getElem?_take_of_lt hij]
  obtain ⟨hi, rfl⟩ := List.getElem?_eq_some_iff.1 hx
  have hsplit := List.take_append_drop i (xs.take j)
  rw [List.take_take, Nat.min_eq_left (Nat.le_of_lt hij), List.drop_eq_getElem_cons hi] at hsplit
  exact hsplit.symm

theorem exists_getElem?_of_mem {xs : List α} {x : α} {i j : Nat} (h : x ∈ (xs.take j).drop i) :
    ∃ k, i ≤ k ∧ k < j ∧ xs[k]? = some x := by
  obtain ⟨k, hk⟩ := List.mem_iff_getElem?.1 h
  rw [List.getElem?_drop, List.getElem?_take] at hk
  split at hk
  · next hlt => exact ⟨i + k, Nat.le_add_right i k, hlt, hk⟩
  · cases hk

section Binding

variable {n : Node} {values values' : Env Constant}

/-- An assignment binds its name to what its expression folds to. -/
theorem assignment_binds {pos : Position} {name : String} {e : Node} {out : List Node}
    (h : (Lexical.statement (.assignment pos name e) values).result = .ok (out, values')) :
    ∃ c, (fold values e).result = .ok c ∧ values' = values.set name c := by
  have hy : (Lexical.statement (.assignment pos name e) values).Yields (fun _ => True)
      (out, values') := ⟨h, fun _ _ => trivial⟩
  rw [Lexical.statement] at hy
  obtain ⟨c, mid, hc, hrest⟩ := Passing.yields_andThen.1 hy
  obtain ⟨hc, rfl⟩ := Passing.yields_reading.1 hc
  obtain ⟨_, mid', hassign, hend⟩ := Passing.yields_andThen.1 hrest
  obtain rfl := Passing.yields_assign.1 hassign
  exact ⟨c, hc.1, (Passing.yields_ok.1 hend).2⟩

/-- Only assignments bind. -/
theorem statement_binds {out : List Node}
    (h : (Lexical.statement n values).result = .ok (out, values')) :
    (∃ pos name e c, n = .assignment pos name e ∧ values' = values.set name c) ∨
      values' = values := by
  have hy : (Lexical.statement n values).Yields (fun _ => True) (out, values') :=
    ⟨h, fun _ _ => trivial⟩
  cases n with
  | assignment pos name e =>
    obtain ⟨c, -, hset⟩ := assignment_binds h
    exact .inl ⟨pos, name, e, c, rfl, hset⟩
  | declaration pos property e =>
    rw [Lexical.statement] at hy
    obtain ⟨c, mid, hc, hend⟩ := Passing.yields_andThen.1 hy
    obtain ⟨-, rfl⟩ := Passing.yields_reading.1 hc
    exact .inr (Passing.yields_ok.1 hend).2
  | rule pos selectors body =>
    rw [Lexical.statement] at hy
    obtain ⟨body', mid, hbody, hend⟩ := Passing.yields_andThen.1 hy
    obtain ⟨-, rfl⟩ := Passing.yields_child.1 hbody
    exact .inr (Passing.yields_ok.1 hend).2
  | conditional pos c body elseBody =>
    cases elseBody with
    | none =>
      rw [Lexical.statement] at hy
      obtain ⟨b, mid, hb, hbranch⟩ := Passing.yields_andThen.1 hy
      obtain ⟨-, rfl⟩ := Passing.yields_reading.1 hb
      cases b with
      | true => exact .inr (Passing.yields_child.1 hbranch).2
      | false => exact .inr (Passing.yields_ok.1 hbranch).2
    | some elseBody =>
      rw [Lexical.statement] at hy
      obtain ⟨b, mid, hb, hbranch⟩ := Passing.yields_andThen.1 hy
      obtain ⟨-, rfl⟩ := Passing.yields_reading.1 hb
      cases b with
      | true => exact .inr (Passing.yields_child.1 hbranch).2
      | false => exact .inr (Passing.yields_child.1 hbranch).2
  | _ => exact absurd hy Report.not_yields_fault

variable {name : String}

/-- Statements that do not assign a name leave it as it is. -/
theorem after_keeps {nodes : List Node} (h : after nodes values = some values')
    (hkeep : ∀ n ∈ nodes, ∀ pos e, n ≠ .assignment pos name e) : values' name = values name := by
  induction nodes generalizing values with
  | nil =>
    obtain rfl := Option.some.inj h
    rfl
  | cons n ns ih =>
    rw [after] at h
    cases hr : (Lexical.statement n values).result with
    | error e =>
      rw [hr] at h
      cases h
    | ok r =>
      rw [hr] at h
      rw [ih h fun m hm => hkeep m (List.mem_cons_of_mem _ hm)]
      rcases statement_binds hr with ⟨pos, other, e, c, rfl, hset⟩ | hsame
      · have hne : name ≠ other := by
          rintro rfl
          exact hkeep _ List.mem_cons_self pos e rfl
        rw [hset]
        exact if_neg hne
      · rw [hsame]

/-- What an assignment binds its name to, the name stands for after later statements of its block,
if none of them assigns it again. -/
theorem after_binds {nodes : List Node} {start : Env Constant} {pos : Position} {e : Node}
    {i j : Nat} (hat : nodes[i]? = some (.assignment pos name e)) (hij : i < j)
    (h : after (nodes.take i) start = some values)
    (h' : after (nodes.take j) start = some values')
    (hkeep : ∀ k, i < k → k < j → ∀ pos e, nodes[k]? ≠ some (.assignment pos name e)) :
    ∃ c, (fold values e).result = .ok c ∧ values' name = some c := by
  rw [take_eq_of_lt hat hij, after_append, h, Option.bind_some, after] at h'
  cases hr : (Lexical.statement (.assignment pos name e) values).result with
  | error e =>
    rw [hr] at h'
    cases h'
  | ok r =>
    rw [hr] at h'
    obtain ⟨c, hc, hset⟩ := assignment_binds hr
    have hbetween : ∀ m ∈ (nodes.take j).drop (i + 1), ∀ pos e, m ≠ .assignment pos name e := by
      rintro m hm pos e rfl
      obtain ⟨k, hik, hkj, hk⟩ := exists_getElem?_of_mem hm
      exact hkeep k hik hkj pos e hk
    refine ⟨c, hc, ?_⟩
    rw [after_keeps h' hbetween, hset]
    exact if_pos rfl

end Binding

end Evaluate

/-- The first path leads to a statement of a block, and the second one to a later statement of the
same block or through one. -/
def Path.Before (earlier path : Path) : Prop :=
  ∃ block edge i j rest, Step.BlockEdge edge ∧ i < j ∧ earlier = block ++ [edge i] ∧
    path = block ++ edge j :: rest

theorem Path.before_sibling {edge : Nat → Step} (h : Step.BlockEdge edge) {i j : Nat} (hij : i < j)
    (rest : Path) : Path.Before [edge i] (edge j :: rest) :=
  ⟨[], edge, i, j, rest, h, hij, rfl, rfl⟩

theorem Path.Before.cons {earlier path : Path} (h : Path.Before earlier path) (step : Step) :
    Path.Before (step :: earlier) (step :: path) := by
  obtain ⟨block, edge, i, j, rest, hedge, hij, rfl, rfl⟩ := h
  exact ⟨step :: block, edge, i, j, rest, hedge, hij, rfl, rfl⟩

theorem Step.BlockEdge.inj {edge edge' : Nat → Step} (h : BlockEdge edge) (h' : BlockEdge edge')
    {i j : Nat} (hij : edge i = edge' j) : edge = edge' ∧ i = j := by
  rcases h with rfl | rfl | rfl <;> rcases h' with rfl | rfl | rfl <;> cases hij <;>
    exact ⟨rfl, rfl⟩

namespace Evaluate

variable {n : Node} {values values' : Env Constant}

theorem isSome_after_of_append {ns ms : List Node} (h : (after (ns ++ ms) values).isSome) :
    (after ns values).isSome := by
  rw [after_append] at h
  cases ha : after ns values with
  | none =>
    rw [ha] at h
    exact h
  | some mid => rfl

namespace Takes

variable {edge edge' : Nat → Step} {nodes nodes' : List Node}

theorem blockEdge (h : Takes values n edge nodes) : Step.BlockEdge edge := by
  cases h with
  | items => exact .inl rfl
  | elseBranch => exact .inr (.inr rfl)
  | _ => exact .inr (.inl rfl)

theorem child? (h : Takes values n edge nodes) (i : Nat) : n.child? (edge i) = nodes[i]? := by
  cases h <;> rfl

/-- An edge leads into one block only. -/
theorem unique (h : Takes values n edge nodes) (h' : Takes values n edge nodes') :
    nodes = nodes' := by
  generalize he : edge = edge' at h'
  cases h <;> cases h' <;> first | rfl | exact absurd (congrFun he 0) (by simp)

theorem at?_cons (h : Takes values n edge nodes) {i : Nat} {child : Node}
    (hchild : nodes[i]? = some child) (path : Path) : n.at? (edge i :: path) = child.at? path := by
  rw [Node.at?_cons, h.child? i, hchild]
  rfl

end Takes

namespace Arrives

variable {name : String} {path : Path}

/-- The first step of an arrival. -/
theorem into_inv {edge : Nat → Step} {i : Nat} (hedge : Step.BlockEdge edge)
    (h : Arrives n values (edge i :: path) values') :
    ∃ nodes child mid, Takes values n edge nodes ∧ nodes[i]? = some child ∧
      after (nodes.take i) values = some mid ∧ Arrives child mid path values' := by
  generalize hp : edge i :: path = p at h
  cases h with
  | here => cases hp
  | @into _ child _ mid _ edge' nodes j path' htakes hchild hafter h =>
    obtain ⟨hstep, rfl⟩ := List.cons.inj hp
    obtain ⟨rfl, rfl⟩ := hedge.inj htakes.blockEdge hstep
    exact ⟨nodes, child, mid, htakes, hchild, hafter, h⟩

/-- At the end of a path there is one moment at most. -/
theorem unique {v v' : Env Constant} (h : Arrives n values path v) (h' : Arrives n values path v') :
    v = v' := by
  induction h with
  | here =>
    cases h'
    rfl
  | into htakes hchild hafter _ ih =>
    obtain ⟨nodes, child, mid, htakes', hchild', hafter', h'⟩ := h'.into_inv htakes.blockEdge
    obtain rfl := htakes.unique htakes'
    obtain rfl := Option.some.inj (hchild.symm.trans hchild')
    obtain rfl := Option.some.inj (hafter.symm.trans hafter')
    exact ih h'

/-- The evaluator goes on from where it has arrived. -/
theorem append {m : Node} {mid : Env Constant} {rest : Path} (h : Arrives n values path mid)
    (hat : n.at? path = some m) (hrest : Arrives m mid rest values') :
    Arrives n values (path ++ rest) values' := by
  induction h with
  | here =>
    obtain rfl := Option.some.inj hat
    exact hrest
  | into htakes hchild hafter _ ih =>
    rw [htakes.at?_cons hchild] at hat
    exact .into htakes hchild hafter (ih hat hrest)

/-- On its way the evaluator arrives at every node of the path. -/
theorem split {rest : Path} (h : Arrives n values (path ++ rest) values') :
    ∃ m mid, n.at? path = some m ∧ Arrives n values path mid ∧ Arrives m mid rest values' := by
  induction path generalizing n values with
  | nil => exact ⟨n, values, rfl, .here n values, h⟩
  | cons step path ih =>
    cases h with
    | into htakes hchild hafter h =>
      obtain ⟨m, mid, hat, hpath, hrest⟩ := ih h
      refine ⟨m, mid, ?_, .into htakes hchild hafter hpath, hrest⟩
      rw [htakes.at?_cons hchild]
      exact hat

/-- In a placed statement there are no items. -/
theorem item_not_mem (h : Arrives n values path values') (hplaced : n.PlacedStatement) :
    ∀ i, .item i ∉ path := by
  induction h with
  | here => exact fun i => List.not_mem_nil
  | into htakes hchild _ _ ih =>
    intro i hi
    rcases List.mem_cons.1 hi with heq | hrest
    · cases htakes with
      | items => exact hplaced
      | _ => cases heq
    · cases htakes with
      | items => exact hplaced
      | rule => exact ih (Node.PlacedBlock.getElem? hplaced hchild) i hrest
      | thenBranch => exact ih (Node.PlacedBlock.getElem? hplaced.2.1 hchild) i hrest
      | elseBranch => exact ih (Node.PlacedBlock.getElem? hplaced.2.2 hchild) i hrest

/-- A name that is assigned nowhere before, on the way to the end of the path, stands there for what
it stands for at the start. -/
theorem keeps (h : Arrives n values path values')
    (hkeep : ∀ q, Path.Before q path → ∀ pos e, n.at? q ≠ some (.assignment pos name e)) :
    values' name = values name := by
  induction h with
  | here => rfl
  | @into n child values mid values' edge nodes i path htakes hchild hafter _ ih =>
    have hbefore : ∀ m ∈ nodes.take i, ∀ pos e, m ≠ .assignment pos name e := by
      rintro m hm pos e rfl
      obtain ⟨k, -, hki, hk⟩ := @exists_getElem?_of_mem _ _ _ 0 _ hm
      exact hkeep _ (Path.before_sibling htakes.blockEdge hki path) pos e (htakes.at?_cons hk [])
    rw [← after_keeps hafter hbefore]
    refine ih fun q hq pos e hat => hkeep _ (hq.cons (edge i)) pos e ?_
    rw [htakes.at?_cons hchild]
    exact hat

/-- Before the evaluator arrives at a statement or below it, it arrives at the earlier ones. -/
theorem earlier {earlier : Path} {start : Env Constant} (h : Arrives n start path values')
    (hbefore : Path.Before earlier path) : ∃ values, Arrives n start earlier values := by
  obtain ⟨block, edge, i, j, rest, hedge, hij, rfl, rfl⟩ := hbefore
  induction block generalizing n start with
  | nil =>
    obtain ⟨nodes, child, mid, htakes, hchild, hafter, -⟩ := h.into_inv hedge
    have hlength : i < nodes.length := Nat.lt_trans hij (List.getElem?_eq_some_iff.1 hchild).1
    have hfirst : nodes[i]? = some nodes[i] := List.getElem?_eq_getElem hlength
    have hsome : (after (nodes.take j) start).isSome := Option.isSome_of_eq_some hafter
    rw [take_eq_of_lt hfirst hij] at hsome
    obtain ⟨values, hvalues⟩ := Option.isSome_iff_exists.1 (isSome_after_of_append hsome)
    exact ⟨values, .into htakes hfirst hvalues (.here _ _)⟩
  | cons step block ih =>
    cases h with
    | into htakes hchild hafter h =>
      obtain ⟨values, hvalues⟩ := ih h
      exact ⟨values, .into htakes hchild hafter hvalues⟩

/-- What an assignment binds its name to, the name stands for wherever the evaluator arrives after
it in its block, if it is not assigned again in between. -/
theorem binds {assigned : Path} {pos : Position} {e : Node} {start : Env Constant}
    (ha : Arrives n start assigned values) (h : Arrives n start path values')
    (hat : n.at? assigned = some (.assignment pos name e)) (hbefore : Path.Before assigned path)
    (hkeep : ∀ q, Path.Before assigned q → Path.Before q path →
      ∀ pos e, n.at? q ≠ some (.assignment pos name e)) :
    ∃ c, (fold values e).result = .ok c ∧ values' name = some c := by
  obtain ⟨block, edge, i, j, rest, hedge, hij, rfl, rfl⟩ := hbefore
  induction block generalizing n start with
  | nil =>
    obtain ⟨nodes, child, mid, htakes, hchild, hafter, hhere⟩ := ha.into_inv hedge
    cases hhere
    obtain ⟨nodes', child', mid', htakes', hchild', hafter', hrest⟩ := h.into_inv hedge
    obtain rfl := htakes.unique htakes'
    rw [List.nil_append, htakes.at?_cons hchild] at hat
    obtain rfl := Option.some.inj hat
    have hbetween : ∀ k, i < k → k < j → ∀ pos e, nodes[k]? ≠ some (.assignment pos name e) :=
      fun k hik hkj pos e hk => hkeep _ (Path.before_sibling hedge hik [])
        (Path.before_sibling hedge hkj rest) pos e (htakes.at?_cons hk [])
    have hinside : ∀ q, Path.Before q rest → ∀ pos e,
        child'.at? q ≠ some (.assignment pos name e) := by
      intro q hq pos e hat
      refine hkeep _ (Path.before_sibling hedge hij q) (hq.cons (edge j)) pos e ?_
      rw [htakes.at?_cons hchild']
      exact hat
    obtain ⟨c, hc, hmid⟩ := after_binds hchild hij hafter hafter' hbetween
    exact ⟨c, hc, (hrest.keeps hinside).trans hmid⟩
  | cons step block ih =>
    cases ha with
    | @into _ child _ mid _ edge' nodes k _ htakes hchild hafter ha =>
      obtain ⟨nodes', child', mid', htakes', hchild', hafter', h⟩ :=
        h.into_inv htakes.blockEdge
      obtain rfl := htakes.unique htakes'
      obtain rfl := Option.some.inj (hchild.symm.trans hchild')
      obtain rfl := Option.some.inj (hafter.symm.trans hafter')
      rw [List.cons_append, htakes.at?_cons hchild] at hat
      refine ih ha hat h fun q hq hq' pos e hat' => ?_
      refine hkeep _ (hq.cons _) (hq'.cons _) pos e ?_
      rw [htakes.at?_cons hchild]
      exact hat'

end Arrives

end Evaluate

/-- A statement with an expression, in which names are looked up. -/
def Node.HasExpression : Node → Prop
  | assignment _ _ _ => True
  | declaration _ _ _ => True
  | conditional _ _ _ _ => True
  | _ => False

namespace Evaluate

/-! ## Arrivals at expressions are readings -/

section Expressions

variable {n : Node} {values : Env Constant} {path : Path}

/-- If names are looked up in a statement of a block, they are looked up in the run on the block. -/
theorem mem_readings_block (edge : Nat → Step) (index : Nat) (nodes : List Node) {child : Node}
    {i : Nat} {scope : Bindings Constant} {outer : List (Bindings Constant)} {mid : Env Constant}
    (hchild : nodes[i]? = some child)
    (hafter : after (nodes.take i) (ScopeStack.lookup ⟨scope :: outer⟩) = some mid)
    (h : ∀ scope', ScopeStack.lookup ⟨scope' :: outer⟩ = mid →
      (path, values) ∈ (statementCourse child).readings ⟨scope' :: outer⟩) :
    (edge (index + i) :: path, values) ∈
      (blockCourse edge index nodes).readings ⟨scope :: outer⟩ := by
  induction nodes generalizing index i scope with
  | nil => cases hchild
  | cons n ns ih =>
    rw [blockCourse]
    cases i with
    | zero =>
      obtain rfl := Option.some.inj hchild
      obtain rfl := Option.some.inj hafter
      exact Course.mem_readings_first (List.mem_map.2 ⟨_, h scope rfl, rfl⟩) _
    | succ i =>
      rw [List.take_succ_cons, after] at hafter
      obtain ⟨scope', hwalk, henv⟩ := follows_statement n scope outer
      rw [← walk_statementCourse] at hwalk
      cases hr : (Lexical.statement n (ScopeStack.lookup ⟨scope :: outer⟩)).result with
      | error e =>
        rw [hr] at hafter
        cases hafter
      | ok r =>
        rw [hr] at hafter hwalk
        have hresult : ((Course.under (edge index) (statementCourse n)).walk
            ⟨scope :: outer⟩).1.result = .ok r.1 := congrArg (fun w => w.1.result) hwalk
        have hscopes : ((Course.under (edge index) (statementCourse n)).walk
            ⟨scope :: outer⟩).2 = ⟨scope' :: outer⟩ := congrArg Prod.snd hwalk
        refine Course.mem_readings_next hresult (Course.mem_readings_first ?_ _)
        rw [hscopes, ← Nat.add_assoc, Nat.add_right_comm]
        exact ih _ hchild (by rw [henv r.1 r.2 hr]; exact hafter)

/-- A run on a child looks names up where the evaluator arrives in its block. -/
theorem mem_readings_childBlock (edge : Nat → Step) {nodes : List Node} {child : Node} {i : Nat}
    {scope : Bindings Constant} {outer : List (Bindings Constant)} {mid : Env Constant}
    (hchild : nodes[i]? = some child)
    (hafter : after (nodes.take i) (ScopeStack.lookup ⟨scope :: outer⟩) = some mid)
    (h : ∀ {scope' : Bindings Constant} {outer' : List (Bindings Constant)},
      ScopeStack.lookup ⟨scope' :: outer'⟩ = mid →
      (path, values) ∈ (statementCourse child).readings ⟨scope' :: outer'⟩) :
    (edge i :: path, values) ∈
      (Course.child (blockCourse edge 0 nodes)).readings ⟨scope :: outer⟩ := by
  rw [← ScopeStack.lookup_copy] at hafter
  have hblock := mem_readings_block edge 0 nodes hchild hafter fun _ => h
  rw [Nat.zero_add] at hblock
  exact hblock

/-- Where the evaluator arrives at a statement with an expression, it looks names up. -/
theorem mem_readings_of_arrives {m : Node} {start : Env Constant}
    (h : Arrives n start path values) (hitem : ∀ i, .item i ∉ path) (hat : n.at? path = some m)
    (hm : m.HasExpression) {scope : Bindings Constant} {outer : List (Bindings Constant)}
    (hstart : ScopeStack.lookup ⟨scope :: outer⟩ = start) :
    (path, values) ∈ (statementCourse n).readings ⟨scope :: outer⟩ := by
  induction h generalizing scope outer with
  | here n values =>
    obtain rfl := Option.some.inj hat
    cases n with
    | assignment | declaration =>
      rw [statementCourse, ← hstart]
      exact Course.mem_readings_first (List.mem_singleton_self _) _
    | conditional pos c body elseBody =>
      cases elseBody <;>
      · rw [statementCourse, ← hstart]
        exact Course.mem_readings_first (List.mem_singleton_self _) _
    | _ => exact hm.elim
  | into htakes hchild hafter _ ih =>
    rw [htakes.at?_cons hchild] at hat
    rw [← hstart] at hafter
    have hrest := fun {scope outer} =>
      @ih (fun i hi => hitem i (List.mem_cons_of_mem _ hi)) hat scope outer
    cases htakes with
    | items => exact absurd List.mem_cons_self (hitem _)
    | rule =>
      have hbody := mem_readings_childBlock .body hchild hafter hrest
      rw [statementCourse]
      exact Course.mem_readings_first hbody _
    | @thenBranch _ _ _ elseBody hchoose =>
      have hbody := mem_readings_childBlock .body hchild hafter hrest
      rw [← hstart] at hchoose
      cases elseBody <;> rw [statementCourse]
      · exact Course.mem_readings_next hchoose hbody
      · exact Course.mem_readings_next hchoose hbody
    | elseBranch hchoose =>
      have hbody := mem_readings_childBlock .elseBody hchild hafter hrest
      rw [← hstart] at hchoose
      rw [statementCourse]
      exact Course.mem_readings_next hchoose hbody

end Expressions

end Evaluate

/-! ## Whole trees -/

namespace Stylesheet

variable {sheet : Stylesheet} {path : Path} {values : Env Constant}

/-- Where a run of the evaluator looks names up, with the literals that they stand for there. -/
def readings (sheet : Stylesheet) : List (Path × Env Constant) :=
  sheet.evaluateCourse.readings (({} : Scopes Constant).clear.push {})

theorem arrives_of_readings (h : (path, values) ∈ sheet.readings) :
    Evaluate.Arrives sheet.toNode .empty path values := by
  have harrives : Evaluate.ArrivesIn .item 0 sheet.items (ScopeStack.lookup ⟨[{}]⟩) path values :=
    Evaluate.arrives_block .item 0 sheet.items h
  rw [ScopeStack.lookup_fresh] at harrives
  exact harrives.arrives .items

/-- Where the evaluator arrives in an item at a statement with an expression, a run looks names
up. -/
theorem mem_readings_of_arrives {i : Nat} {m : Node}
    (h : Evaluate.Arrives sheet.toNode .empty (.item i :: path) values)
    (hitem : ∀ i, .item i ∉ path) (hat : sheet.toNode.at? (.item i :: path) = some m)
    (hm : m.HasExpression) : (.item i :: path, values) ∈ sheet.readings := by
  obtain ⟨nodes, child, mid, htakes, hchild, hafter, hrest⟩ := h.into_inv (.inl rfl)
  obtain rfl := htakes.unique .items
  rw [htakes.at?_cons hchild] at hat
  rw [← ScopeStack.lookup_fresh] at hafter
  have hblock := Evaluate.mem_readings_block .item 0 sheet.items hchild hafter
    fun scope => Evaluate.mem_readings_of_arrives hrest hitem hat hm
  rw [Nat.zero_add] at hblock
  exact hblock

/-- A run looks names up at an assignment that stands before a place where it does. -/
theorem exists_reading_before (hplaced : sheet.Placed) {assigned : Path} {pos : Position}
    {name : String} {e : Node} (hat : sheet.toNode.at? assigned = some (.assignment pos name e))
    (hbefore : Path.Before assigned path) (h : (path, values) ∈ sheet.readings) :
    ∃ values, (assigned, values) ∈ sheet.readings := by
  obtain ⟨start, hstart⟩ := (arrives_of_readings h).earlier hbefore
  cases hstart with
  | here => cases hat
  | into htakes hchild hafter hrest =>
    cases htakes with
    | items =>
      have hitem := hrest.item_not_mem (hplaced.getElem? hchild)
      exact ⟨_, mem_readings_of_arrives (.into .items hchild hafter hrest) hitem hat trivial⟩

end Stylesheet

end StyleLang
