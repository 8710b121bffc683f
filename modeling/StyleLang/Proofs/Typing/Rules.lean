import StyleLang.Proofs.Pass.Lexical
import StyleLang.Proofs.Pass.Yields

/-!
# Typing rules

The type system of stylesheets as rules, apart from any order of checking and without findings. An
environment gives names their types. An assignment extends it for the statements that follow in the
same block, and what a nested block binds ends with the block. Main statement: the checker returns
no finding exactly for the trees that the rules derive.
-/

namespace StyleLang

namespace Typing

/-- The expression has the type in the environment. -/
inductive HasType (Γ : Env ValueType) : Node → ValueType → Prop where
  | literal {pos : Position} (value : Value) : HasType Γ (.literal pos value) value.type
  | reference {pos : Position} {name : String} {t : ValueType} (h : Γ name = some t) :
      HasType Γ (.reference pos name) t
  | operation {pos : Position} {op : Operator} {lhs rhs : Node} {l r : ValueType} {m : Measure}
      (hl : HasType Γ lhs l) (hr : HasType Γ rhs r) (h : op.measure l r = .ok m) :
      HasType Γ (.operation pos op lhs rhs) (.number m)

mutual

/-- The statement is derivable in the first environment, and the second one is for the statements
after it. -/
inductive Statement : Env ValueType → Node → Env ValueType → Prop where
  | assignment {Γ : Env ValueType} {pos : Position} {name : String} {expression : Node}
      {t : ValueType} (h : HasType Γ expression t) :
      Statement Γ (.assignment pos name expression) (Γ.set name t)
  | declaration {Γ : Env ValueType} {pos : Position} {property : String} {expression : Node}
      {t : ValueType} (ha : Property.isAllowed property = true) (h : HasType Γ expression t)
      (ht : t ∈ Property.expectedTypes property) :
      Statement Γ (.declaration pos property expression) Γ
  | ifOnly {Γ Γ' : Env ValueType} {pos : Position} {condition : Node} {body : List Node}
      (hc : HasType Γ condition .bool) (hb : Block Γ body Γ') :
      Statement Γ (.conditional pos condition body none) Γ
  | ifElse {Γ Γ' Γ'' : Env ValueType} {pos : Position} {condition : Node}
      {body elseBody : List Node} (hc : HasType Γ condition .bool) (hb : Block Γ body Γ')
      (he : Block Γ elseBody Γ'') :
      Statement Γ (.conditional pos condition body (some elseBody)) Γ
  | rule {Γ Γ' : Env ValueType} {pos : Position} {selectors body : List Node}
      (hb : Block Γ body Γ') : Statement Γ (.rule pos selectors body) Γ

/-- The statements are derivable one after the other. -/
inductive Block : Env ValueType → List Node → Env ValueType → Prop where
  | nil {Γ : Env ValueType} : Block Γ [] Γ
  | cons {Γ Γ' Γ'' : Env ValueType} {node : Node} {nodes : List Node} (h : Statement Γ node Γ')
      (hs : Block Γ' nodes Γ'') : Block Γ (node :: nodes) Γ''

end

theorem HasType.unique {Γ : Env ValueType} {e : Node} {t t' : ValueType} (h : HasType Γ e t)
    (h' : HasType Γ e t') : t = t' := by
  induction h generalizing t' with
  | literal value => cases h'; rfl
  | reference h =>
    cases h' with
    | reference h' => exact Option.some.inj (h.symm.trans h')
  | operation _ _ h ihl ihr =>
    cases h' with
    | operation hl' hr' h' =>
      rw [ihl hl', ihr hr'] at h
      rw [Except.ok.inj (h.symm.trans h')]

end Typing

/-- The tree is derivable in the empty environment. -/
def Stylesheet.Derivable (sheet : Stylesheet) : Prop := ∃ Γ, Typing.Block .empty sheet.items Γ

/-! ## Expressions

A checker that reports none of the critical problems has met no expression without a type, whatever
else it reports. -/

/-- The problems of expressions and conditions. -/
def Problem.Critical (problem : Problem) : Prop :=
  problem.rule ∈ ["unknown_variable", "operand_types", "condition_type"]

namespace Check

open Typing Report

variable {admits : Problem → Prop} {Γ : Env ValueType}

theorem infer_sound (hadm : ∀ problem, problem.Critical → ¬ admits problem) :
    ∀ {e : Node} {type : Option ValueType}, (infer Γ e).Yields admits type →
      ∃ t, type = some t ∧ HasType Γ e t
  | .literal _ value, type, h => ⟨value.type, Report.yields_ok.1 h, .literal value⟩
  | .reference pos name, type, h => by
    rw [infer] at h
    cases hn : Γ name with
    | some t =>
      rw [hn] at h
      exact ⟨t, Report.yields_ok.1 h, .reference hn⟩
    | none =>
      rw [hn] at h
      obtain ⟨_, hnote, -⟩ := Report.yields_andThen.1 h
      exact absurd (Report.yields_note.1 hnote) (hadm _ (by simp [Problem.Critical, Problem.rule]))
  | .operation pos op lhs rhs, type, h => by
    rw [infer] at h
    obtain ⟨left, hleft, h⟩ := Report.yields_andThen.1 h
    obtain ⟨right, hright, h⟩ := Report.yields_andThen.1 h
    obtain ⟨l, rfl, hl⟩ := infer_sound hadm (Report.yields_under.1 hleft)
    obtain ⟨r, rfl, hr⟩ := infer_sound hadm (Report.yields_under.1 hright)
    unfold operationType at h
    cases hm : op.measure l r with
    | ok m =>
      simp only [hm] at h
      exact ⟨.number m, Report.yields_ok.1 h, .operation hl hr hm⟩
    | error reason =>
      simp only [hm] at h
      obtain ⟨_, hnote, -⟩ := Report.yields_andThen.1 h
      exact absurd (Report.yields_note.1 hnote) (hadm _ (by simp [Problem.Critical, Problem.rule]))
  | .selector _ _ _, _, h | .declaration _ _ _, _, h | .assignment _ _ _, _, h
  | .conditional _ _ _ _, _, h | .rule _ _ _, _, h | .sheet _ _, _, h =>
    absurd h not_yields_fault

theorem infer_complete {e : Node} {t : ValueType} (h : HasType Γ e t) :
    (infer Γ e).Yields admits (some t) := by
  induction h with
  | literal value => exact Report.yields_ok.2 rfl
  | reference h =>
    rw [infer, h]
    exact Report.yields_ok.2 rfl
  | operation _ _ h ihl ihr =>
    rw [infer]
    refine Report.yields_andThen.2 ⟨_, Report.yields_under.2 ihl, ?_⟩
    refine Report.yields_andThen.2 ⟨_, Report.yields_under.2 ihr, ?_⟩
    simp only [operationType, h]
    exact Report.yields_ok.2 rfl

/-- Nothing but a type can come out of an expression that has no critical problem. -/
theorem yields_infer_iff (hadm : ∀ problem, problem.Critical → ¬ admits problem) {e : Node}
    {type : Option ValueType} :
    (infer Γ e).Yields admits type ↔ ∃ t, type = some t ∧ HasType Γ e t := by
  constructor
  · exact infer_sound hadm
  · rintro ⟨t, rfl, h⟩
    exact infer_complete h

theorem yields_condition_iff (hadm : ∀ problem, problem.Critical → ¬ admits problem)
    {pos : Position} {e : Node} {u : Unit} :
    (condition Γ pos e).Yields admits u ↔ HasType Γ e .bool := by
  unfold condition
  rw [Report.bind_def, Report.yields_andThen]
  constructor
  · rintro ⟨type, hi, h⟩
    obtain ⟨t, rfl, ht⟩ := infer_sound hadm (Report.yields_under.1 hi)
    by_cases hb : t = .bool
    · exact hb ▸ ht
    · have hr : alreadyReported e (some t) = false := by unfold alreadyReported; split <;> simp_all
      simp only [Option.some.injEq, hb, hr, decide_false, Bool.or_self, Bool.false_eq_true,
        ↓reduceIte] at h
      exact absurd (Report.yields_note.1 h) (hadm _ (by simp [Problem.Critical, Problem.rule]))
  · intro h
    refine ⟨some .bool, Report.yields_under.2 (infer_complete h), ?_⟩
    simp only [decide_true, Bool.true_or, ↓reduceIte]
    exact Report.yields_ok.2 rfl

/-- Without any finding, the property may be set and expects the type of the expression. -/
theorem yields_declaration_iff {pos : Position} {property : String} {e : Node} {u : Unit} :
    (declaration Γ pos property e).Yields (fun _ => False) u ↔
      Property.isAllowed property = true ∧
        ∃ t, HasType Γ e t ∧ t ∈ Property.expectedTypes property := by
  have hinfer : ∀ type, ((infer Γ e).under .expression).Yields (fun _ => False) type ↔
      ∃ t, type = some t ∧ HasType Γ e t := fun type =>
    Report.yields_under.trans (yields_infer_iff fun _ _ h => h)
  unfold declaration Property.isAllowed Property.expectedTypes
  simp only [Report.bind_def, Report.yields_andThen, hinfer]
  cases Property.types? property with
  | none =>
    simp only [Report.yields_note, and_false, exists_false, Option.isSome_none, Bool.false_eq_true,
      false_and]
  | some allowed =>
    simp only [Option.isSome_some, Option.getD_some, true_and]
    constructor
    · rintro ⟨_, ⟨t, rfl, ht⟩, h⟩
      have hr : alreadyReported e (some t) = false := by unfold alreadyReported; split <;> simp_all
      by_cases hm : t ∈ allowed
      · exact ⟨t, ht, hm⟩
      · simp only [Option.any_some, hm, decide_false, hr, Bool.or_self, Bool.false_eq_true,
          ↓reduceIte] at h
        exact (Report.yields_note.1 h).elim
    · rintro ⟨t, ht, hm⟩
      refine ⟨some t, ⟨t, rfl, ht⟩, ?_⟩
      simp only [Option.any_some, hm, decide_true, Bool.true_or, ↓reduceIte]
      exact Report.yields_ok.2 rfl

theorem yields_assignment_iff (hadm : ∀ problem, problem.Critical → ¬ admits problem)
    {pos : Position} {name : String} {e : Node} {u : Unit} {Γ' : Env ValueType} :
    (Lexical.assignment pos name e Γ).Yields admits (u, Γ') ↔
      ∃ t, HasType Γ e t ∧ Γ' = Γ.set name t := by
  unfold Lexical.assignment
  simp only [Passing.bind_def, Passing.yields_andThen, Passing.yields_reading]
  constructor
  · rintro ⟨_, _, ⟨hi, rfl⟩, h⟩
    obtain ⟨t, rfl, ht⟩ := infer_sound hadm (Report.yields_under.1 hi)
    exact ⟨t, ht, Passing.yields_assign.1 h⟩
  · rintro ⟨t, ht, rfl⟩
    exact ⟨some t, Γ, ⟨Report.yields_under.2 (infer_complete ht), rfl⟩, Passing.yields_assign.2 rfl⟩

/-! ## Statements -/

/-- Nothing is admitted here: every finding counts. -/
abbrev Silent (r : Report (Unit × Env ValueType)) (Γ : Env ValueType) : Prop :=
  r.Yields (fun _ => False) ((), Γ)

mutual

theorem silent_statement_iff : ∀ (node : Node) {Γ Γ' : Env ValueType},
    Silent (Lexical.statement node Γ) Γ' ↔ Typing.Statement Γ node Γ'
  | .rule _ _ body, Γ, Γ' => by
    rw [Lexical.statement, Silent, Passing.yields_child]
    constructor
    · rintro ⟨⟨inner, h⟩, rfl⟩
      exact .rule ((silent_block_iff .body 0 body).1 h)
    · intro h
      cases h with
      | rule hb => exact ⟨⟨_, (silent_block_iff .body 0 body).2 hb⟩, rfl⟩
  | .assignment pos name e, Γ, Γ' => by
    rw [Lexical.statement, Silent, yields_assignment_iff fun _ _ h => h]
    constructor
    · rintro ⟨t, ht, rfl⟩
      exact .assignment ht
    · intro h
      cases h with
      | assignment ht => exact ⟨_, ht, rfl⟩
  | .declaration pos property e, Γ, Γ' => by
    rw [Lexical.statement, Silent, Passing.yields_reading, yields_declaration_iff]
    constructor
    · rintro ⟨⟨ha, t, ht, hm⟩, rfl⟩
      exact .declaration ha ht hm
    · intro h
      cases h with
      | declaration ha ht hm => exact ⟨⟨ha, _, ht, hm⟩, rfl⟩
  | .conditional pos c body none, Γ, Γ' => by
    rw [Lexical.statement]
    simp only [Silent, Passing.bind_def, Passing.yields_andThen, Passing.yields_reading,
      Passing.yields_child, Passing.pure_def, Passing.yields_ok,
      yields_condition_iff fun _ _ (h : False) => h]
    constructor
    · rintro ⟨_, _, ⟨hc, rfl⟩, _, _, ⟨⟨inner, hb⟩, rfl⟩, _, rfl⟩
      exact .ifOnly hc ((silent_block_iff .body 0 body).1 hb)
    · intro h
      cases h with
      | ifOnly hc hb =>
        exact ⟨(), _, ⟨hc, rfl⟩, (), _, ⟨⟨_, (silent_block_iff .body 0 body).2 hb⟩, rfl⟩,
          trivial, rfl⟩
  | .conditional pos c body (some elseBody), Γ, Γ' => by
    rw [Lexical.statement]
    simp only [Silent, Passing.bind_def, Passing.yields_andThen, Passing.yields_reading,
      Passing.yields_child, yields_condition_iff fun _ _ (h : False) => h]
    constructor
    · rintro ⟨_, _, ⟨hc, rfl⟩, _, _, ⟨⟨inner, hb⟩, rfl⟩, ⟨inner', he⟩, rfl⟩
      exact .ifElse hc ((silent_block_iff .body 0 body).1 hb)
        ((silent_block_iff .elseBody 0 elseBody).1 he)
    · intro h
      cases h with
      | ifElse hc hb he =>
        exact ⟨(), _, ⟨hc, rfl⟩, (), _, ⟨⟨_, (silent_block_iff .body 0 body).2 hb⟩, rfl⟩,
          ⟨_, (silent_block_iff .elseBody 0 elseBody).2 he⟩, rfl⟩
  | .selector _ _ _, _, _ | .literal _ _, _, _ | .reference _ _, _, _ | .operation _ _ _ _, _, _
  | .sheet _ _, _, _ => by
    constructor
    · intro h
      exact absurd h Report.not_yields_fault
    · intro h
      cases h

theorem silent_block_iff (edge : Nat → Step) (index : Nat) :
    ∀ (nodes : List Node) {Γ Γ' : Env ValueType},
      Silent (Lexical.block edge index nodes Γ) Γ' ↔ Typing.Block Γ nodes Γ'
  | [], Γ, Γ' => by
    rw [Lexical.block, Silent, Passing.pure_def, Passing.yields_ok]
    constructor
    · rintro ⟨-, rfl⟩
      exact .nil
    · intro h
      cases h
      exact ⟨rfl, rfl⟩
  | node :: nodes, Γ, Γ' => by
    rw [Lexical.block, Silent, Passing.bind_def, Passing.yields_andThen]
    simp only [Passing.yields_under]
    constructor
    · rintro ⟨_, mid, h, hs⟩
      exact .cons ((silent_statement_iff node).1 h) ((silent_block_iff edge (index + 1) nodes).1 hs)
    · intro h
      cases h with
      | cons h hs =>
        have hrest := (silent_block_iff edge (index + 1) nodes).2 hs
        exact ⟨(), _, (silent_statement_iff node).2 h, hrest⟩

end

end Check

/-! ## Whole trees -/

namespace Stylesheet

theorem check_eq_nil_iff_silent (sheet : Stylesheet) :
    sheet.check = .ok [] ↔ ∃ Γ, Check.Silent sheet.checkReport Γ := by
  rw [check_eq]
  unfold Check.Silent Report.Yields
  constructor
  · intro h
    cases hr : sheet.checkReport.result with
    | error e => rw [hr] at h; cases h
    | ok r =>
      rw [hr] at h
      have hnil : sheet.checkReport.findings = [] := Except.ok.inj h
      exact ⟨r.2, rfl, List.eq_nil_iff_forall_not_mem.1 hnil⟩
  · rintro ⟨Γ, hr, hf⟩
    rw [hr, List.eq_nil_iff_forall_not_mem.2 hf]
    rfl

theorem silent_iff_derivable (sheet : Stylesheet) :
    (∃ Γ, Check.Silent sheet.checkReport Γ) ↔ sheet.Derivable :=
  exists_congr fun _ => Check.silent_block_iff .item 0 sheet.items

/-- The checker decides the typing rules: it returns no finding, and no fault stops it, exactly if
the tree is derivable. -/
theorem check_eq_nil_iff_derivable (sheet : Stylesheet) :
    sheet.check = .ok [] ↔ sheet.Derivable :=
  sheet.check_eq_nil_iff_silent.trans sheet.silent_iff_derivable

end Stylesheet

end StyleLang
