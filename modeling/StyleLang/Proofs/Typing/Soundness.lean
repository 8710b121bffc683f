import StyleLang.Proofs.Pass.Leaving
import StyleLang.Proofs.Syntax.Place
import StyleLang.Proofs.Typing.Rules

/-!
# Type soundness

What the checker accepts is evaluated without a defect. The two passes agree on what is in scope:
where the checker has a type for a name, the evaluator has a literal of that type, and where it has
none, neither has the evaluator. The evaluator enters one branch of a conditional, the checker both,
but what either binds inside is dropped. Main statements: the evaluator is clean on every tree whose
findings are about assignments and declarations only, and on a tree without findings each
declaration that is left has a property and a literal that belong together.
-/

namespace StyleLang

/-- The types of the literals that the names stand for. -/
def Env.types (values : Env Constant) : Env ValueType := fun name =>
  (values name).map fun c => c.value.type

namespace Env

theorem types_set (values : Env Constant) (name : String) (c : Constant) :
    (values.set name c).types = values.types.set name c.value.type := by
  funext other
  unfold types set
  by_cases h : other = name
  · rw [if_pos h, if_pos h]
    rfl
  · rw [if_neg h, if_neg h]

end Env

theorem Operator.combine_of_measure {op : Operator} {l r : Value} {m : Measure}
    (h : op.measure l.type r.type = .ok m) :
    op.combine l r = .ok (.number m (op.compute l.amount r.amount)) := by
  unfold combine
  rw [h]

/-- The node is a declaration of a property and a literal that belong together, or a rule of
such. -/
inductive Node.Settled : Node → Prop where
  | declaration {pos pos' : Position} {property : String} {value : Value}
      (ha : Property.isAllowed property = true)
      (ht : value.type ∈ Property.expectedTypes property) :
      Settled (.declaration pos property (.literal pos' value))
  | rule {pos : Position} {selectors body : List Node} (h : ∀ node ∈ body, Settled node) :
      Settled (.rule pos selectors body)

namespace Evaluate

open Typing Report

variable {admits : Problem → Prop} {values : Env Constant}

/-! ## Expressions -/

theorem fold_of_hasType {e : Node} {t : ValueType} (h : HasType values.types e t) :
    ∃ c : Constant, fold values e = .ok c ∧ c.value.type = t := by
  induction h with
  | @literal pos value => exact ⟨{ value, pos }, rfl, rfl⟩
  | @reference pos name t h =>
    obtain ⟨c, hc, ht⟩ := Option.map_eq_some_iff.1 h
    refine ⟨c, ?_, ht⟩
    rw [fold, hc]
    rfl
  | @operation pos op lhs rhs l r m _ _ h ihl ihr =>
    obtain ⟨cl, hl, rfl⟩ := ihl
    obtain ⟨cr, hr, rfl⟩ := ihr
    refine ⟨{ value := .number m (op.compute cl.value.amount cr.value.amount) }, ?_, rfl⟩
    rw [fold, hl, hr]
    simp only [Report.bind_def, Report.under_ok, Report.ok_andThen, Operator.combine_of_measure h]
    rfl

theorem choose_of_hasType (pos : Position) {e : Node} (h : HasType values.types e .bool) :
    ∃ b, choose values pos e = .ok b := by
  obtain ⟨c, hc, ht⟩ := fold_of_hasType h
  obtain ⟨b, hb⟩ := Value.type_eq_bool_iff.1 ht
  refine ⟨b, ?_⟩
  unfold choose
  rw [hc]
  simp only [Report.bind_def, Report.under_ok, Report.ok_andThen, hb]
  rfl

end Evaluate

namespace Check

open Typing Report

variable {admits : Problem → Prop}

/-- Without critical problems the expression of a declaration has a type, and without any problem
that type is expected. -/
theorem hasType_of_declaration (hadm : ∀ problem, problem.Critical → ¬ admits problem)
    {Γ : Env ValueType} {pos : Position} {property : String} {e : Node} {u : Unit}
    (h : (declaration Γ pos property e).Yields admits u) :
    ∃ t, HasType Γ e t ∧ ((∀ problem, ¬ admits problem) →
      Property.isAllowed property = true ∧ t ∈ Property.expectedTypes property) := by
  have hinfer := h
  unfold declaration at hinfer
  obtain ⟨type, hi, -⟩ := Report.yields_andThen.1 hinfer
  obtain ⟨t, -, ht⟩ := infer_sound hadm (Report.yields_under.1 hi)
  refine ⟨t, ht, fun hnone => ?_⟩
  obtain ⟨ha, t', ht', hm⟩ := yields_declaration_iff.1 (h.mono fun p hp => hnone p hp)
  rw [ht.unique ht']
  exact ⟨ha, hm⟩

end Check

/-! ## Statements -/

open Evaluate (Leaves leaves_nil leaves_assignment leaves_declaration leaves_conditional
  leaves_rule)

/-- The evaluator meets no problem and hands on literals of the types `Γ`; and if no problem at all
was admitted, what it leaves is settled. -/
def Clean (admits : Problem → Prop) (r : Report (List Node × Env Constant)) (Γ : Env ValueType) :
    Prop :=
  Leaves (fun _ => False) (fun values => values.types = Γ)
    (fun node => (∀ problem, ¬ admits problem) → node.Settled) r

mutual

/-- What the checker finds nothing critical in, the evaluator passes cleanly. -/
theorem clean_statement {admits : Problem → Prop}
    (hadm : ∀ problem, problem.Critical → ¬ admits problem) :
    ∀ (node : Node) {values : Env Constant} {Γ : Env ValueType},
      (Check.Lexical.statement node values.types).Yields admits ((), Γ) →
        Clean admits (Evaluate.Lexical.statement node values) Γ
  | .rule pos selectors body, values, Γ, h => by
    rw [Check.Lexical.statement, Passing.yields_child] at h
    obtain ⟨⟨inner, h⟩, rfl⟩ := h
    refine leaves_rule (clean_block hadm .body 0 body h) rfl fun out hout hnone => ?_
    exact .rule fun node hn => hout node hn hnone
  | .assignment pos name e, values, Γ, h => by
    rw [Check.Lexical.statement, Check.yields_assignment_iff hadm] at h
    obtain ⟨t, ht, rfl⟩ := h
    obtain ⟨c, hc, rfl⟩ := Evaluate.fold_of_hasType ht
    exact leaves_assignment (Report.yields_none_iff.2 hc) (values.types_set name c)
  | .declaration pos property e, values, Γ, h => by
    rw [Check.Lexical.statement, Passing.yields_reading] at h
    obtain ⟨h, rfl⟩ := h
    obtain ⟨t, ht, hs⟩ := Check.hasType_of_declaration hadm h
    obtain ⟨c, hc, rfl⟩ := Evaluate.fold_of_hasType ht
    refine leaves_declaration (Report.yields_none_iff.2 hc) rfl fun hnone => ?_
    obtain ⟨ha, hm⟩ := hs hnone
    exact .declaration ha hm
  | .conditional pos c body none, values, Γ, h => by
    rw [Check.Lexical.statement] at h
    simp only [Passing.bind_def, Passing.yields_andThen, Passing.yields_reading,
      Passing.yields_child, Passing.pure_def, Passing.yields_ok,
      Check.yields_condition_iff hadm] at h
    obtain ⟨_, _, ⟨hc, rfl⟩, _, _, ⟨⟨inner, hb⟩, rfl⟩, -, rfl⟩ := h
    obtain ⟨b, hchoose⟩ := Evaluate.choose_of_hasType pos hc
    refine leaves_conditional (Report.yields_none_iff.2 hchoose) rfl
      (clean_block hadm .body 0 body hb).drop fun nodes hnodes => ?_
    cases hnodes
  | .conditional pos c body (some elseBody), values, Γ, h => by
    rw [Check.Lexical.statement] at h
    simp only [Passing.bind_def, Passing.yields_andThen, Passing.yields_reading,
      Passing.yields_child, Check.yields_condition_iff hadm] at h
    obtain ⟨_, _, ⟨hc, rfl⟩, _, _, ⟨⟨inner, hb⟩, rfl⟩, ⟨inner', he⟩, rfl⟩ := h
    obtain ⟨b, hchoose⟩ := Evaluate.choose_of_hasType pos hc
    refine leaves_conditional (Report.yields_none_iff.2 hchoose) rfl
      (clean_block hadm .body 0 body hb).drop fun nodes hnodes => ?_
    rw [← Option.some.inj hnodes]
    exact (clean_block hadm .elseBody 0 elseBody he).drop
  | .selector _ _ _, _, _, h | .literal _ _, _, _, h | .reference _ _, _, _, h
  | .operation _ _ _ _, _, _, h | .sheet _ _, _, _, h => absurd h Report.not_yields_fault

theorem clean_block {admits : Problem → Prop}
    (hadm : ∀ problem, problem.Critical → ¬ admits problem) (edge : Nat → Step) (index : Nat) :
    ∀ (nodes : List Node) {values : Env Constant} {Γ : Env ValueType},
      (Check.Lexical.block edge index nodes values.types).Yields admits ((), Γ) →
        Clean admits (Evaluate.Lexical.block edge index nodes values) Γ
  | [], values, Γ, h => by
    rw [Check.Lexical.block, Passing.pure_def, Passing.yields_ok] at h
    exact leaves_nil h.2.symm
  | node :: nodes, values, Γ, h => by
    rw [Check.Lexical.block, Passing.bind_def, Passing.yields_andThen] at h
    obtain ⟨_, mid, h, hrest⟩ := h
    refine (clean_statement hadm node (Passing.yields_under.1 h)).cons fun values' hmid => ?_
    rw [← hmid] at hrest
    exact clean_block hadm edge (index + 1) nodes hrest

end

/-! ## Whole trees -/

/-- In a settled node every declaration outside selectors has a property and a literal that belong
together. -/
theorem Node.Settled.at? {node : Node} (h : node.Settled) {path : Path}
    (hp : path.OutsideSelectors) {pos : Position} {property : String} {expression : Node}
    (hd : node.at? path = some (.declaration pos property expression)) :
    Property.isAllowed property = true ∧ ∃ pos' value, expression = .literal pos' value ∧
      value.type ∈ Property.expectedTypes property := by
  induction path generalizing node with
  | nil =>
    rw [Node.at?_nil] at hd
    rw [Option.some.inj hd] at h
    cases h with
    | declaration ha ht => exact ⟨ha, _, _, rfl, ht⟩
  | cons step path ih =>
    rw [Node.at?_cons] at hd
    obtain ⟨child, hchild, hrest⟩ := Option.bind_eq_some_iff.1 hd
    cases h with
    | declaration =>
      -- the one child of a declaration is its literal, which has none
      cases step <;> simp only [Node.child?, reduceCtorEq] at hchild
      obtain rfl := Option.some.inj hchild
      cases path with
      | nil => cases hrest
      | cons step path => cases step <;> cases hrest
    | rule hbody =>
      cases step <;> simp only [Node.child?, reduceCtorEq] at hchild
      · exact absurd rfl (hp.head_ne _)
      · exact ih (hbody child (List.mem_of_getElem? hchild)) hp.tail hrest

namespace Stylesheet

/-- The evaluator on a tree that the checker has returned from. -/
theorem evaluate_of_yields {sheet : Stylesheet} {admits : Problem → Prop} {Γ : Env ValueType}
    (hadm : ∀ problem, problem.Critical → ¬ admits problem)
    (h : sheet.checkReport.Yields admits ((), Γ)) :
    ∃ items, sheet.evaluate = .ok ⟨{ sheet with items }, []⟩ ∧
      ((∀ problem, ¬ admits problem) → ∀ node ∈ items, node.Settled) := by
  have hclean : Clean admits sheet.evaluateReport Γ := clean_block hadm .item 0 sheet.items h
  obtain ⟨items, values, hv, -, hs⟩ := hclean
  refine ⟨items, ?_, fun hnone node hn => hs node hn hnone⟩
  have hr : sheet.evaluateReport = .ok (items, values) := Report.yields_none_iff.1 hv
  rw [evaluate_eq, hr]
  rfl

/-- Every declaration of the tree at the end of such a path has a property that may be set and a
literal of a type that the property expects. -/
def DeclarationsFit (sheet : Stylesheet) (paths : Path → Prop) : Prop :=
  ∀ path, paths path → ∀ pos property expression,
    sheet.toNode.at? path = some (.declaration pos property expression) →
      Property.isAllowed property = true ∧ ∃ pos' value, expression = .literal pos' value ∧
        value.type ∈ Property.expectedTypes property

theorem declarationsFit_of_settled {sheet : Stylesheet} (h : ∀ node ∈ sheet.items, node.Settled) :
    sheet.DeclarationsFit Path.OutsideSelectors := by
  intro path hp pos property expression hd
  cases path with
  | nil => cases hd
  | cons step path =>
    rw [Node.at?_cons] at hd
    obtain ⟨child, hchild, hrest⟩ := Option.bind_eq_some_iff.1 hd
    unfold toNode at hchild
    cases step <;> simp only [Node.child?, reduceCtorEq] at hchild
    exact (h child (List.mem_of_getElem? hchild)).at? hp.tail hrest

/-- **Type soundness.** If no finding is about an unknown variable, operands or a condition, the
evaluator returns without a defect; if there is no finding at all, the declarations that are left
outside selectors fit. -/
theorem evaluate_clean_of_check {sheet : Stylesheet} {findings : List Finding}
    (h : sheet.check = .ok findings) :
    ((∀ f ∈ findings, f.rule ∉ ["unknown_variable", "operand_types", "condition_type"]) →
      ∃ stylesheet, sheet.evaluate = .ok ⟨stylesheet, []⟩) ∧
    (findings = [] → ∃ stylesheet, sheet.evaluate = .ok ⟨stylesheet, []⟩ ∧
      stylesheet.DeclarationsFit Path.OutsideSelectors) := by
  obtain ⟨Γ, hr, rfl⟩ := checkReport_of_check h
  constructor
  · intro hrules
    have hy : sheet.checkReport.Yields (fun problem => ¬ problem.Critical) ((), Γ) := ⟨hr, hrules⟩
    obtain ⟨items, he, -⟩ := evaluate_of_yields (fun _ hc hn => hn hc) hy
    exact ⟨_, he⟩
  · intro hnil
    have hy : sheet.checkReport.Yields (fun _ => False) ((), Γ) :=
      ⟨hr, List.eq_nil_iff_forall_not_mem.1 hnil⟩
    obtain ⟨items, he, hs⟩ := evaluate_of_yields (fun _ _ hn => hn) hy
    exact ⟨_, he, declarationsFit_of_settled (hs fun _ hn => hn)⟩

/-- A tree with a property that may not be set: a variable, a nested block and a conditional are
evaluated without a defect all the same. -/
theorem evaluate_clean_of_check_margin :
    let sheet : Stylesheet :=
      { items :=
        [.assignment {} "Half" (.literal {} (.number .percentage 50)),
          .rule {} [.selector {} .tag "p"]
            [.assignment {} "Wide" (.literal {} (.bool true)),
              .conditional {} (.reference {} "Wide")
                [.declaration {} "Width" (.operation {} .multiply (.literal {} (.number .scalar 2))
                  (.reference {} "Half"))]
                (some [.declaration {} "margin" (.reference {} "Half")])]] }
    let findings : List Finding :=
      [{ severity := .error, problem := .unknownProperty "margin",
         path := [.item 1, .body 1, .elseBody 0] }]
    sheet.check = .ok findings ∧ ∃ stylesheet, sheet.evaluate = .ok ⟨stylesheet, []⟩ := by
  intro sheet findings
  have h : sheet.check = .ok findings := rfl
  refine ⟨h, (evaluate_clean_of_check h).1 ?_⟩
  intro f hf
  rw [List.mem_singleton.1 hf]
  simp [Finding.rule, Problem.rule]

/-- Neither pass looks into selectors: a declaration that stands there is kept, whatever it is. -/
theorem declaration_in_selector_unchecked :
    let sheet : Stylesheet :=
      { items := [.rule {} [.declaration {} "margin" (.literal {} (.number .pixel 1))] []] }
    sheet.check = .ok [] ∧ ∃ stylesheet, sheet.evaluate = .ok ⟨stylesheet, []⟩ ∧
      ¬ stylesheet.DeclarationsFit fun _ => True := by
  intro sheet
  refine ⟨rfl, sheet, rfl, fun h => ?_⟩
  obtain ⟨ha, -⟩ := h [.item 0, .selector 0] trivial {} "margin" _ rfl
  exact absurd ha (by decide)

end Stylesheet

end StyleLang
