import StyleLang.Proofs.Pass.Gathering
import StyleLang.Proofs.Pass.Lexical
import StyleLang.Proofs.Pass.Yields

/-!
# What is left, and of what

The evaluator once more, keeping for every node that it leaves the place of the statement that the
node is left of. Main statements: but for these places it gives what the evaluator gives, and at
each of them there is a statement that has the name or the selectors of what is left of it.
-/

namespace StyleLang

/-- What is left of a declaration or a rule. The origin leads to it from the rule that it is left
in, or from the root of the tree. -/
inductive Remnant where
  | declaration (origin : Path) (pos : Position) (property : String) (value : Constant)
  | rule (origin : Path) (pos : Position) (selectors : List Node) (body : List Remnant)

namespace Remnant

def origin : Remnant → Path
  | declaration origin _ _ _ => origin
  | rule origin _ _ _ => origin

mutual

/-- The node that is left. -/
def toNode : Remnant → Node
  | declaration _ pos property value => .declaration pos property value.toNode
  | rule _ pos selectors body => .rule pos selectors (toNodes body)

/-- `toNode`, member by member. -/
def toNodes : List Remnant → List Node
  | [] => []
  | r :: rs => r.toNode :: toNodes rs

end

/-- The remnant is left of a statement of its kind, name and selectors at its origin in the tree,
and what is in it is left of what is in that statement. -/
inductive Of : Node → Remnant → Prop where
  | declaration {n e : Node} {origin : Path} {pos : Position} {property : String} {value : Constant}
      (h : n.at? origin = some (.declaration pos property e)) :
      Of n (.declaration origin pos property value)
  | rule {n : Node} {origin : Path} {pos : Position} {selectors source : List Node}
      {body : List Remnant} (h : n.at? origin = some (.rule pos selectors source))
      (hbody : ∀ r ∈ body, Of (.rule pos selectors source) r) :
      Of n (.rule origin pos selectors body)

/-- The remnant seen from one edge further up. -/
def under (step : Step) : Remnant → Remnant
  | declaration origin pos property value => declaration (step :: origin) pos property value
  | rule origin pos selectors body => rule (step :: origin) pos selectors body

/-- Selectors are left as they are, so a node that is deleted in one of them is missing there. -/
def selectorsWithout (target : Path) (selectors : List Node) : List Node :=
  match target with
  | .selector i :: path => Node.alterAt (Node.erase path) i selectors
  | _ => selectors

mutual

/-- What is left when the node at the end of the path is deleted, unless the remnant is left of a
deleted statement. -/
def without (target : Path) : Remnant → Option Remnant
  | declaration origin pos property value =>
    (target.without origin).map fun o => declaration o pos property value
  | rule origin pos selectors body =>
    (target.without origin).map fun o =>
      match target.dropPrefix? origin with
      | none => rule o pos selectors body
      | some rest => rule o pos (selectorsWithout rest selectors) (allWithout rest body)

/-- `without`, member by member. -/
def allWithout (target : Path) : List Remnant → List Remnant
  | [] => []
  | r :: rs => (r.without target).toList ++ allWithout target rs

end

/-! ## Small laws -/

theorem toNodes_append (rs rs' : List Remnant) :
    toNodes (rs ++ rs') = toNodes rs ++ toNodes rs' := by
  induction rs with
  | nil => rfl
  | cons r rs ih => rw [List.cons_append, toNodes, ih, toNodes, List.cons_append]

theorem toNodes_under (step : Step) (rs : List Remnant) :
    toNodes (rs.map (under step)) = toNodes rs := by
  induction rs with
  | nil => rfl
  | cons r rs ih =>
    rw [List.map_cons, toNodes, ih, toNodes]
    cases r <;> rw [under, toNode, toNode]

theorem allWithout_append (target : Path) (rs rs' : List Remnant) :
    allWithout target (rs ++ rs') = allWithout target rs ++ allWithout target rs' := by
  induction rs with
  | nil => rfl
  | cons r rs ih => rw [List.cons_append, allWithout, ih, allWithout, List.append_assoc]

theorem Of.under {n child : Node} {step : Step} {r : Remnant} (h : r.Of child)
    (hchild : n.child? step = some child) : (r.under step).Of n := by
  have hat : ∀ path, n.at? (step :: path) = child.at? path := by
    intro path
    rw [Node.at?_cons, hchild]
    rfl
  cases h with
  | declaration h => exact .declaration ((hat _).trans h)
  | rule h hbody => exact .rule ((hat _).trans h) hbody

theorem origin_under (step : Step) (r : Remnant) : (r.under step).origin = step :: r.origin := by
  cases r <;> rfl

section Under

variable {target : Path} {step : Step}

theorem without_under_gone (h : target.turn step = .gone) (r : Remnant) :
    (r.under step).without target = none := by
  cases r <;> rw [under, without, Path.without_cons_gone h] <;> rfl

theorem without_under_into {rest : Path} (h : target.turn step = .into rest) (r : Remnant) :
    (r.under step).without target = (r.without rest).map (under step) := by
  obtain rfl := Path.eq_of_turn_into h
  cases r with
  | declaration origin pos property value =>
    rw [under, without, without, Path.without_cons_into h]
    cases rest.without origin <;> rfl
  | rule origin pos selectors body =>
    have hdrop : List.dropPrefix? (step :: rest) (step :: origin) = rest.dropPrefix? origin := by
      simp [List.dropPrefix?]
    rw [under, without, without, Path.without_cons_into h, hdrop]
    cases rest.without origin with
    | none => rfl
    | some o => cases rest.dropPrefix? origin <;> rfl

theorem without_under_beside {step' : Step} (h : target.turn step = .beside step')
    (r : Remnant) : (r.under step).without target = some (r.under step') := by
  cases r with
  | declaration origin pos property value =>
    rw [under, without, Path.without_cons_beside h]
    rfl
  | rule origin pos selectors body =>
    have hdrop : target.dropPrefix? (step :: origin) = none := by
      have hne := Path.head?_ne_of_turn_beside h
      cases target with
      | nil => rfl
      | cons s u =>
        simp only [List.head?_cons, ne_eq, Option.some.injEq] at hne
        simp [List.dropPrefix?, hne]
    rw [under, without, Path.without_cons_beside h, hdrop]
    rfl

theorem allWithout_under (target : Path) (step : Step) (rs : List Remnant) :
    allWithout target (rs.map (under step)) =
      match target.turn step with
      | .gone => []
      | .into rest => (allWithout rest rs).map (under step)
      | .beside step' => rs.map (under step') := by
  induction rs with
  | nil => cases target.turn step <;> rfl
  | cons r rs ih =>
    rw [List.map_cons, allWithout, ih]
    cases h : target.turn step with
    | gone => rw [without_under_gone h]; rfl
    | into rest =>
      simp only [without_under_into h, allWithout, List.map_append]
      cases r.without rest <;> rfl
    | beside step' => rw [without_under_beside h]; rfl

end Under

end Remnant

namespace Gathering

/-- The checker gives nothing for a statement. -/
def nothing : Gathering Unit where
  empty := ()
  join _ _ := ()
  under _ _ := ()
  without _ _ := ()
  origins _ := []
  empty_join _ := rfl
  join_assoc _ _ _ := rfl
  without_empty _ := rfl
  without_join _ _ _ := rfl
  without_under target step _ := by cases target.turn step <;> rfl
  origins_empty := rfl
  origins_join _ _ := rfl
  origins_under _ _ := rfl

/-- The evaluator gives what is left of a statement. -/
def remnants : Gathering (List Remnant) where
  empty := []
  join rs rs' := rs ++ rs'
  under step rs := rs.map (Remnant.under step)
  without := Remnant.allWithout
  origins rs := rs.map Remnant.origin
  empty_join _ := rfl
  join_assoc := List.append_assoc
  without_empty _ := rfl
  without_join := Remnant.allWithout_append
  without_under := Remnant.allWithout_under
  origins_empty := rfl
  origins_join _ _ := List.map_append
  origins_under step rs := by
    rw [List.map_map, List.map_map]
    exact List.map_congr_left fun r _ => Remnant.origin_under step r

end Gathering

/-! ## The evaluator with origins -/

namespace Evaluate.Traced

mutual

def statement : Node → Passing Constant (List Remnant)
  | .assignment _ name expression => do
    let c ← Passing.reading fun values => (fold values expression).under .expression
    Passing.assign name c
    pure []
  | .conditional pos cond body elseBody => do
    if ← Passing.reading fun values => choose values pos cond then
      Passing.child (block .body 0 body)
    else
      match elseBody with
      | none => pure []
      | some elseBody => Passing.child (block .elseBody 0 elseBody)
  | .declaration pos property expression => do
    let c ← Passing.reading fun values => (fold values expression).under .expression
    pure [.declaration [] pos property c]
  | .rule pos selectors body => do
    let body ← Passing.child (block .body 0 body)
    pure [.rule [] pos selectors body]
  | node => Passing.fault (.ofNode node)

def block (edge : Nat → Step) (index : Nat) : List Node → Passing Constant (List Remnant)
  | [] => pure []
  | node :: nodes => do
    let first ← (statement node).under (edge index)
    let rest ← block edge (index + 1) nodes
    pure (first.map (Remnant.under (edge index)) ++ rest)

end

theorem block_eq (edge : Nat → Step) (index : Nat) (nodes : List Node) :
    block edge index nodes = Gathering.remnants.block statement edge index nodes := by
  induction nodes generalizing index with
  | nil =>
    rw [block]
    rfl
  | cons n ns ih =>
    rw [block, ih]
    simp only [Passing.bind_def, Passing.pure_def, Gathering.block, Gathering.member,
      Passing.andThen_assoc, Passing.ok_andThen]
    rfl

end Evaluate.Traced

namespace Passing

variable {τ α β : Type}

theorem child_andThen_ok (p : Passing τ α) (f : α → β) :
    (p.andThen fun a => ok (f a)).child = p.child.andThen fun a => ok (f a) := by
  funext env
  dsimp only [child, andThen, Report.andThen]
  rcases p env with ⟨findings, _ | ⟨a, env'⟩⟩ <;> simp [ok, Report.ok]

theorem under_andThen_ok (p : Passing τ α) (f : α → β) (step : Step) :
    (p.andThen fun a => ok (f a)).under step = (p.under step).andThen fun a => ok (f a) := by
  funext env
  dsimp only [under, Report.under, andThen, Report.andThen]
  rcases p env with ⟨findings, _ | ⟨a, env'⟩⟩ <;> simp [ok, Report.ok]

end Passing

namespace Evaluate

open Passing (bind_def pure_def ok_andThen andThen_assoc child_andThen_ok under_andThen_ok)

mutual

/-- But for the origins, the same is left. -/
theorem statement_eq_traced : ∀ node, Lexical.statement node =
    (Traced.statement node).andThen fun rs => .ok (Remnant.toNodes rs)
  | .assignment _ _ _ => by
    rw [Lexical.statement, Traced.statement]
    simp only [bind_def, pure_def, andThen_assoc, ok_andThen]
    rfl
  | .declaration _ _ _ => by
    rw [Lexical.statement, Traced.statement]
    simp only [bind_def, pure_def, andThen_assoc, ok_andThen]
    rfl
  | .conditional _ _ body none => by
    rw [Lexical.statement, Traced.statement, block_eq_traced, child_andThen_ok]
    simp only [bind_def, andThen_assoc]
    congr 1
    funext b
    cases b <;> rfl
  | .conditional _ _ body (some elseBody) => by
    rw [Lexical.statement, Traced.statement]
    simp only [bind_def, andThen_assoc]
    congr 1
    funext b
    cases b with
    | true =>
      simp only [if_true]
      rw [block_eq_traced, child_andThen_ok]
    | false =>
      simp only [Bool.false_eq_true, if_false]
      rw [block_eq_traced, child_andThen_ok]
  | .rule _ _ body => by
    rw [Lexical.statement, Traced.statement, block_eq_traced]
    simp only [bind_def, pure_def, child_andThen_ok, andThen_assoc, ok_andThen]
    rfl
  | .selector _ _ _ | .literal _ _ | .reference _ _ | .operation _ _ _ _ | .sheet _ _ => by
    rw [Lexical.statement, Traced.statement]
    · rfl
    all_goals simp

theorem block_eq_traced (edge : Nat → Step) (index : Nat) : ∀ nodes,
    Lexical.block edge index nodes =
      (Traced.block edge index nodes).andThen fun rs => .ok (Remnant.toNodes rs)
  | [] => by
    rw [Lexical.block, Traced.block]
    rfl
  | node :: nodes => by
    rw [Lexical.block, Traced.block, statement_eq_traced node, block_eq_traced]
    simp only [bind_def, pure_def, under_andThen_ok, andThen_assoc, ok_andThen,
      Remnant.toNodes_append, Remnant.toNodes_under]

end

end Evaluate

/-! ## The origins -/

namespace Evaluate.Traced

open Passing (yields_andThen yields_reading yields_child yields_under yields_ok)

variable {admits : Problem → Prop}

/-- Of a rule one rule is left. -/
theorem rule_of_yields {pos : Position} {selectors body : List Node} {values values' : Env Constant}
    {rs : List Remnant}
    (h : (statement (.rule pos selectors body) values).Yields admits (rs, values')) :
    ∃ body' inner, rs = [.rule [] pos selectors body'] ∧
      (block .body 0 body values).Yields admits (body', inner) := by
  rw [statement] at h
  obtain ⟨body', mid, hbody, h⟩ := yields_andThen.1 h
  obtain ⟨⟨inner, hbody⟩, -⟩ := yields_child.1 hbody
  exact ⟨body', inner, (yields_ok.1 h).1, hbody⟩

mutual

/-- What is left of a statement is left of it or of statements in it. -/
theorem of_statement : ∀ {n : Node} {values values' : Env Constant} {rs : List Remnant},
    (statement n values).Yields admits (rs, values') → ∀ r ∈ rs, r.Of n
  | .assignment _ _ _, _, _, _, h => by
    rw [statement] at h
    obtain ⟨_, _, -, h⟩ := yields_andThen.1 h
    obtain ⟨_, _, -, h⟩ := yields_andThen.1 h
    rw [(yields_ok.1 h).1]
    exact fun _ hr => absurd hr List.not_mem_nil
  | .declaration _ _ _, _, _, _, h => by
    rw [statement] at h
    obtain ⟨_, _, -, h⟩ := yields_andThen.1 h
    rw [(yields_ok.1 h).1]
    intro r hr
    rw [List.mem_singleton.1 hr]
    exact .declaration rfl
  | .rule pos selectors body, _, _, _, h => by
    obtain ⟨body', _, rfl, hbody⟩ := rule_of_yields h
    intro r hr
    rw [List.mem_singleton.1 hr]
    exact .rule rfl (of_block (fun _ => rfl) hbody)
  | .conditional _ _ body none, _, _, _, h => by
    rw [statement] at h
    obtain ⟨b, _, -, h⟩ := yields_andThen.1 h
    cases b with
    | true =>
      obtain ⟨⟨_, hbody⟩, -⟩ := yields_child.1 h
      exact of_block (fun _ => rfl) hbody
    | false =>
      rw [(yields_ok.1 h).1]
      exact fun _ hr => absurd hr List.not_mem_nil
  | .conditional _ _ body (some elseBody), _, _, _, h => by
    rw [statement] at h
    obtain ⟨b, _, -, h⟩ := yields_andThen.1 h
    cases b with
    | true =>
      obtain ⟨⟨_, hbody⟩, -⟩ := yields_child.1 h
      exact of_block (fun _ => rfl) hbody
    | false =>
      obtain ⟨⟨_, hbody⟩, -⟩ := yields_child.1 h
      exact of_block (fun _ => rfl) hbody
  | .selector _ _ _, _, _, _, h | .literal _ _, _, _, _, h | .reference _ _, _, _, _, h
  | .operation _ _ _ _, _, _, _, h | .sheet _ _, _, _, _, h => absurd h Report.not_yields_fault

theorem of_block {edge : Nat → Step} {parent : Node} : ∀ {index : Nat} {nodes : List Node}
    {values values' : Env Constant} {rs : List Remnant},
    (∀ i, parent.child? (edge (i + index)) = nodes[i]?) →
    (block edge index nodes values).Yields admits (rs, values') → ∀ r ∈ rs, r.Of parent
  | _, [], _, _, _, _, h => by
    rw [block] at h
    rw [(yields_ok.1 h).1]
    exact fun _ hr => absurd hr List.not_mem_nil
  | index, n :: nodes, _, _, _, hchild, h => by
    rw [block] at h
    obtain ⟨first, _, hfirst, h⟩ := yields_andThen.1 h
    obtain ⟨rest, _, hrest, h⟩ := yields_andThen.1 h
    rw [(yields_ok.1 h).1]
    have hhere : parent.child? (edge index) = some n := by
      rw [← Nat.zero_add index]
      exact hchild 0
    have hnext : ∀ i, parent.child? (edge (i + (index + 1))) = nodes[i]? := by
      intro i
      rw [← Nat.add_assoc, Nat.add_right_comm]
      exact hchild (i + 1)
    intro r hr
    rcases List.mem_append.1 hr with hr | hr
    · obtain ⟨r, hmem, rfl⟩ := List.mem_map.1 hr
      exact (of_statement (yields_under.1 hfirst) r hmem).under hhere
    · exact of_block hnext hrest r hr

end

end Evaluate.Traced

/-! ## Whole trees -/

namespace Stylesheet

/-- The evaluator with origins on a whole tree. -/
def trace (sheet : Stylesheet) : Report (List Remnant × Env Constant) :=
  Evaluate.Traced.block .item 0 sheet.items .empty

theorem evaluate_eq_trace (sheet : Stylesheet) :
    sheet.evaluate = sheet.trace.result.map fun r =>
      { stylesheet := { sheet with items := Remnant.toNodes r.1 },
        defects := sheet.trace.findings } := by
  have h : sheet.evaluateReport =
      sheet.trace.andThen fun r => Passing.ok (Remnant.toNodes r.1) r.2 :=
    congrFun (Evaluate.block_eq_traced .item 0 sheet.items) .empty
  rw [evaluate_eq, h]
  rcases sheet.trace with ⟨findings, _ | ⟨rs, values⟩⟩
  · rfl
  · simp [Report.andThen, Passing.ok, Report.ok, Except.map]

theorem of_trace {sheet : Stylesheet} {rs : List Remnant} {values : Env Constant}
    (h : sheet.trace.result = .ok (rs, values)) : ∀ r ∈ rs, r.Of sheet.toNode := by
  have hy : sheet.trace.Yields (fun _ => True) (rs, values) := ⟨h, fun _ _ => trivial⟩
  exact Evaluate.Traced.of_block (fun _ => rfl) hy

end Stylesheet

end StyleLang
