import StyleLang.Proofs.Pass.Arrival

/-!
# Selected branches

A conditional selects its first branch if its condition is true, and the other one if the condition
is anything else. Main statements: in a tree that is evaluated, the evaluator arrives at a statement
in the blocks of an item exactly if every conditional around that statement selected the branch that
the statement stands in.
-/

namespace StyleLang

/-- The step leads into the body of a rule or into a branch of a conditional. -/
def Step.IntoBlock : Step → Prop
  | body _ => True
  | elseBody _ => True
  | _ => False

/-- The path leads through bodies and branches only. -/
def Path.InBlocks (path : Path) : Prop := ∀ step ∈ path, step.IntoBlock

namespace Path.InBlocks

variable {path : Path} {step : Step}

theorem cons (hstep : step.IntoBlock) (h : InBlocks path) : InBlocks (step :: path) :=
  List.forall_mem_cons.2 ⟨hstep, h⟩

theorem tail (h : InBlocks (step :: path)) : InBlocks path := (List.forall_mem_cons.1 h).2

theorem item_not_mem (h : InBlocks path) (i : Nat) : .item i ∉ path := fun hi => h _ hi

end Path.InBlocks

namespace Stylesheet

/-- A run folds the condition of the conditional at the path and selects the branch that the step
leads into: the first one if the condition is true, and the other one if it is not. -/
def Selects (sheet : Stylesheet) (path : Path) (condition : Node) (step : Step) : Prop :=
  ∃ values c, (path, values) ∈ sheet.readings ∧
    (Evaluate.fold values condition).result = .ok c ∧
    ((∃ i, step = .body i) ↔ c.value = .bool true)

/-- Every conditional on the path selects the branch that the path goes on into. -/
def EverySelected (sheet : Stylesheet) (path : Path) : Prop :=
  ∀ outer step rest, path = outer ++ step :: rest → ∀ pos condition body elseBody,
    sheet.toNode.at? outer = some (.conditional pos condition body elseBody) →
    sheet.Selects outer condition step

end Stylesheet

/-! ## What a conditional takes -/

namespace Evaluate

variable {n : Node} {values : Env Constant}

theorem choose_ok_iff {pos : Position} {e : Node} {b : Bool} :
    (choose values pos e).result = .ok b ↔
      ∃ c, (fold values e).result = .ok c ∧ (b = true ↔ c.value = .bool true) := by
  have htruth : ∀ c, (truth pos c).result = .ok b ↔ (b = true ↔ c.value = .bool true) := by
    intro c
    unfold truth
    split
    · next b' hb' => cases b <;> cases b' <;> simp [hb', Report.ok]
    · next hb' =>
      have hne : c.value ≠ .bool true := hb' true
      cases b <;> simp [hne, Report.note, Report.andThen, Report.ok]
  rw [choose_eq]
  constructor
  · intro h
    obtain ⟨c, hc, hb⟩ := Report.exists_of_andThen h
    exact ⟨c, hc, (htruth c).1 hb⟩
  · rintro ⟨c, hc, hb⟩
    rw [Report.result_andThen (r := (fold values e).under .condition) hc]
    exact (htruth c).2 hb

/-- A statement that does not stop the evaluator has no block that does. -/
theorem Takes.exists_result {edge : Nat → Step} {nodes : List Node}
    {r : List Node × Env Constant} (h : Takes values n edge nodes)
    (hr : (Lexical.statement n values).result = .ok r) :
    ∃ r, (Lexical.block edge 0 nodes values).result = .ok r := by
  cases h with
  | items => cases hr
  | rule =>
    rw [statement_rule] at hr
    obtain ⟨_, hbody, -⟩ := Report.exists_of_andThen hr
    obtain ⟨r, hblock, -⟩ := Report.exists_of_andThen hbody
    exact ⟨r, hblock⟩
  | thenBranch hchoose | elseBranch hchoose =>
    rw [statement_conditional] at hr
    obtain ⟨b, hb, hbranch⟩ := Report.exists_of_andThen hr
    obtain rfl := Except.ok.inj (hchoose.symm.trans hb)
    obtain ⟨r, hblock, -⟩ := Report.exists_of_andThen hbranch
    exact ⟨r, hblock⟩

/-- Where the evaluator arrives in a statement that does not stop it, it is not stopped. -/
theorem Arrives.exists_result {m : Node} {start : Env Constant} {path : Path}
    {r : List Node × Env Constant} (h : Arrives n start path values) (hat : n.at? path = some m)
    (hr : (Lexical.statement n start).result = .ok r) :
    ∃ r, (Lexical.statement m values).result = .ok r := by
  induction h generalizing r with
  | here =>
    obtain rfl := Option.some.inj hat
    exact ⟨r, hr⟩
  | into htakes hchild hafter _ ih =>
    obtain ⟨_, hblock⟩ := htakes.exists_result hr
    obtain ⟨mid, _, hafter', hchild'⟩ := exists_after_of_block hchild hblock
    obtain rfl := Option.some.inj (hafter.symm.trans hafter')
    rw [htakes.at?_cons hchild] at hat
    exact ih hat hchild'

end Evaluate

/-! ## Arrivals and selected branches -/

namespace Stylesheet

open Evaluate

variable {sheet : Stylesheet} {path : Path} {values : Env Constant}

/-- Where the evaluator arrives, every branch on the way is selected. -/
theorem everySelected_of_arrives {i : Nat}
    (h : Arrives sheet.toNode .empty (.item i :: path) values) (hpath : path.InBlocks) :
    sheet.EverySelected (.item i :: path) := by
  intro outer step rest heq pos e body elseBody hat
  cases outer with
  | nil => cases hat
  | cons s outer =>
    obtain ⟨rfl, rfl⟩ := List.cons.inj heq
    have houter : ∀ j, .item j ∉ outer := fun j hj =>
      hpath.item_not_mem j (List.mem_append_left _ hj)
    have h : Arrives sheet.toNode .empty ((.item i :: outer) ++ step :: rest) values := h
    obtain ⟨m, mid, hm, harrives, hrest⟩ := h.split
    obtain rfl := Option.some.inj (hat.symm.trans hm)
    have hreading := mem_readings_of_arrives harrives houter hm trivial
    cases hrest with
    | into htakes hchild hafter _ =>
      cases htakes with
      | thenBranch hchoose | elseBranch hchoose =>
        obtain ⟨c, hc, hb⟩ := choose_ok_iff.1 hchoose
        exact ⟨mid, c, hreading, hc, by simpa using hb⟩

/-- A step on, the evaluator takes the block that a path leads into, if a conditional selects it. -/
theorem exists_takes {outer : Path} {n m : Node} {step : Step} {start : Env Constant}
    (houter : Arrives sheet.toNode .empty outer start) (hn : sheet.toNode.at? outer = some n)
    (hat : n.at? (step :: path) = some m) (hstep : step.IntoBlock)
    (hsel : sheet.EverySelected (outer ++ step :: path)) :
    ∃ edge nodes i child, step = edge i ∧ Takes start n edge nodes ∧ nodes[i]? = some child := by
  obtain ⟨child, hchild, -⟩ := Option.bind_eq_some_iff.1 hat
  cases n with
  | rule =>
    cases step with
    | body i => exact ⟨_, _, i, child, rfl, .rule, hchild⟩
    | elseBody => cases hchild
    | _ => exact hstep.elim
  | conditional pos e body elseBody =>
    obtain ⟨values, c, hreading, hc, hb⟩ := hsel outer step path rfl pos e body elseBody hn
    obtain rfl := (arrives_of_readings hreading).unique houter
    cases step with
    | body i =>
      have hchoose : (choose values pos e).result = .ok true :=
        choose_ok_iff.2 ⟨c, hc, by simpa using hb⟩
      have hat : body[i]? = some child := by cases elseBody <;> exact hchild
      exact ⟨_, _, i, child, rfl, .thenBranch hchoose, hat⟩
    | elseBody i =>
      have hchoose : (choose values pos e).result = .ok false :=
        choose_ok_iff.2 ⟨c, hc, by simpa using hb⟩
      cases elseBody with
      | none => cases hchild
      | some elseBody => exact ⟨_, _, i, child, rfl, .elseBranch hchoose, hchild⟩
    | _ => exact hstep.elim
  | _ => cases step <;> first | exact hstep.elim | cases hchild

/-- The evaluator arrives wherever every branch on the way is selected. -/
theorem exists_arrives {outer : Path} {n m : Node} {start : Env Constant}
    {r : List Node × Env Constant} (houter : Arrives sheet.toNode .empty outer start)
    (hn : sheet.toNode.at? outer = some n) (hr : (Lexical.statement n start).result = .ok r)
    (hat : n.at? path = some m) (hpath : path.InBlocks)
    (hsel : sheet.EverySelected (outer ++ path)) : ∃ values, Arrives n start path values := by
  induction path generalizing outer n start r with
  | nil => exact ⟨start, .here n start⟩
  | cons step path ih =>
    have hstep : step.IntoBlock := hpath step List.mem_cons_self
    obtain ⟨edge, nodes, i, child, rfl, htakes, hchild⟩ := exists_takes houter hn hat hstep hsel
    obtain ⟨_, hblock⟩ := htakes.exists_result hr
    obtain ⟨mid, r', hafter, hr'⟩ := exists_after_of_block hchild hblock
    have hon : Arrives n start [edge i] mid := .into htakes hchild hafter (.here child mid)
    have hchild' : sheet.toNode.at? (outer ++ [edge i]) = some child := by
      rw [Node.at?_append, hn]
      exact htakes.at?_cons hchild []
    rw [htakes.at?_cons hchild] at hat
    rw [← List.singleton_append, ← List.append_assoc] at hsel
    obtain ⟨values, h⟩ := ih (houter.append hn hon) hchild' hr' hat hpath.tail hsel
    exact ⟨values, .into htakes hchild hafter h⟩

end Stylesheet

end StyleLang
