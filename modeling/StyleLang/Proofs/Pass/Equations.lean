import StyleLang.Proofs.Pass.Lexical

/-!
# Equations of the evaluator

What the evaluator does with each construct, as one report after another. A proof about its findings
rewrites with these and never opens the evaluator.
-/

namespace StyleLang.Evaluate

open Report

variable {values : Env Constant}

/-! ## Expressions -/

/-- The literal that an operation folds to once its operands are folded. -/
def operation (pos : Position) (op : Operator) (left right : Constant) : Report Constant :=
  match op.combine left.value right.value with
  | .ok value => .ok { value }
  | .error reason => (Report.note .defect pos (.operands reason)).andThen fun _ => .ok .fallback

theorem fold_operation (pos : Position) (op : Operator) (lhs rhs : Node) :
    fold values (.operation pos op lhs rhs) =
      ((fold values lhs).under .lhs).andThen fun left =>
        ((fold values rhs).under .rhs).andThen fun right => operation pos op left right := rfl

/-- The branch that a conditional takes once its condition is folded. -/
def truth (pos : Position) (c : Constant) : Report Bool :=
  match c.value with
  | .bool b => .ok b
  | value =>
    (Report.note .defect pos (.conditionType (some value.type))).andThen fun _ => .ok false

theorem choose_eq (pos : Position) (e : Node) :
    choose values pos e = ((fold values e).under .condition).andThen (truth pos) := rfl

/-! ## Statements -/

/-- What is left of the branch of a conditional that is taken. -/
def branch (body : List Node) (elseBody : Option (List Node)) (b : Bool) (values : Env Constant) :
    Report (List Node × Env Constant) :=
  if b then (Lexical.block .body 0 body).child values
  else match elseBody with
    | none => .ok ([], values)
    | some elseBody => (Lexical.block .elseBody 0 elseBody).child values

theorem statement_declaration (pos : Position) (property : String) (e : Node) :
    Lexical.statement (.declaration pos property e) values =
      ((fold values e).under .expression).andThen fun c =>
        .ok ([.declaration pos property c.toNode], values) := by
  rw [Lexical.statement]
  exact andThen_assoc _ _ _

theorem statement_assignment (pos : Position) (name : String) (e : Node) :
    Lexical.statement (.assignment pos name e) values =
      ((fold values e).under .expression).andThen fun c => .ok ([], values.set name c) := by
  rw [Lexical.statement]
  exact andThen_assoc _ _ _

theorem statement_conditional (pos : Position) (c : Node) (body : List Node)
    (elseBody : Option (List Node)) :
    Lexical.statement (.conditional pos c body elseBody) values =
      (choose values pos c).andThen fun b => branch body elseBody b values := by
  cases elseBody <;>
  · rw [Lexical.statement]
    refine (andThen_assoc _ _ _).trans (andThen_congr fun b _ => ?_)
    cases b <;> rfl

theorem statement_rule (pos : Position) (selectors body : List Node) :
    Lexical.statement (.rule pos selectors body) values =
      ((Lexical.block .body 0 body).child values).andThen fun r =>
        .ok ([.rule pos selectors r.1], r.2) := by
  rw [Lexical.statement]
  rfl

theorem block_cons (edge : Nat → Step) (index : Nat) (n : Node) (ns : List Node) :
    Lexical.block edge index (n :: ns) values =
      ((Lexical.statement n values).under (edge index)).andThen fun r =>
        (Lexical.block edge (index + 1) ns r.2).andThen fun r' => .ok (r.1 ++ r'.1, r'.2) := by
  rw [Lexical.block]
  rfl

end StyleLang.Evaluate
