import StyleLang.Proofs.Pass.Lexical
import StyleLang.Proofs.Pass.Matching
import StyleLang.Proofs.Syntax.Relabeling

/-!
# Passes on relabeled trees

Neither pass looks at positions, and of the names of variables it only asks whether they are equal.
Main statement: on a relabeled tree either pass gives what it gives on the tree, relabeled.
-/

namespace StyleLang

namespace Relabeling

/-- A literal that a name stands for, at its new position. -/
def constant (L : Relabeling) (c : Constant) : Constant := { c with pos := L.position c.pos }

@[simp] theorem constant_value (L : Relabeling) (c : Constant) :
    (L.constant c).value = c.value := rfl

/-- The new name stands for what the old one stood for, under `g`. -/
def Carries {τ : Type} (L : Relabeling) (g : τ → τ) (env env' : Env τ) : Prop :=
  ∀ name, env' (L.name name) = (env name).map g

variable {τ : Type} {L : Relabeling} {g : τ → τ}

theorem carries_empty : L.Carries g (.empty : Env τ) .empty := fun _ => rfl

theorem Carries.set (hL : L.Faithful) {env env' : Env τ} (h : L.Carries g env env') (name : String)
    (value : τ) : L.Carries g (env.set name value) (env'.set (L.name name) (g value)) := by
  intro other
  unfold Env.set
  by_cases hname : other = name
  · rw [if_pos hname, if_pos (congrArg L.name hname)]
    rfl
  · rw [if_neg hname, if_neg fun hnew => hname (hL.injective hnew)]
    exact h other

end Relabeling

variable {L : Relabeling}

/-- A node that is misplaced is so under other labels, and the complaint about it is the same. -/
theorem Report.matches_misplaced {α α' : Type} {R : α → α' → Prop} (n : Node) :
    (fault (.ofNode n)).Matches L.finding Eq R (fault (.ofNode (n.relabel L))) := by
  unfold Fault.ofNode
  rw [Node.printable_relabel]
  exact matches_fault rfl

/-! ## The checker -/

namespace Check

open Report (matches_ok matches_misplaced matches_note)

variable {types types' : Env ValueType}

theorem matches_operationType (pos : Position) (op : Operator) (left right : Option ValueType) :
    (operationType pos op left right).Matches L.finding Eq Eq
      (operationType (L.position pos) op left right) := by
  unfold operationType
  split
  · split
    · exact matches_ok rfl
    · exact (matches_note rfl).andThen fun _ _ _ => matches_ok rfl
  · exact (matches_note rfl).andThen fun _ _ _ => matches_ok rfl

theorem matches_infer (h : L.Carries id types types') : ∀ e : Node,
    (infer types e).Matches L.finding Eq Eq (infer types' (e.relabel L))
  | .literal _ _ => matches_ok rfl
  | .reference pos name => by
    have hname := h name
    rw [Node.relabel, infer, infer, hname]
    cases types name with
    | some t => exact matches_ok rfl
    | none => exact (matches_note rfl).andThen fun _ _ _ => matches_ok rfl
  | .operation pos op lhs rhs => by
    rw [Node.relabel, infer, infer]
    refine ((matches_infer h lhs).under L.finding_under .lhs).andThen fun left _ hleft => ?_
    refine ((matches_infer h rhs).under L.finding_under .rhs).andThen fun right _ hright => ?_
    rw [← hleft, ← hright]
    exact matches_operationType pos op left right
  | .selector _ _ _ | .declaration _ _ _ | .assignment _ _ _ | .conditional _ _ _ _ | .rule _ _ _
  | .sheet _ _ => matches_misplaced _

theorem alreadyReported_relabel (e : Node) (type : Option ValueType) :
    alreadyReported (e.relabel L) type = alreadyReported e type := by
  cases e <;> cases type <;> rfl

theorem matches_declaration (h : L.Carries id types types') (pos : Position) (property : String)
    (e : Node) : (declaration types pos property e).Matches L.finding Eq Eq
      (declaration types' (L.position pos) property (e.relabel L)) := by
  unfold declaration
  refine ((matches_infer h e).under L.finding_under .expression).andThen fun type _ htype => ?_
  rw [← htype, alreadyReported_relabel]
  split
  · exact matches_note rfl
  · split
    · exact matches_ok rfl
    · exact matches_note rfl

theorem matches_condition (h : L.Carries id types types') (pos : Position) (e : Node) :
    (condition types pos e).Matches L.finding Eq Eq
      (condition types' (L.position pos) (e.relabel L)) := by
  unfold condition
  refine ((matches_infer h e).under L.finding_under .condition).andThen fun type _ htype => ?_
  rw [← htype, alreadyReported_relabel]
  split
  · exact matches_ok rfl
  · exact matches_note rfl

/-- The two passings on types report the same up to the relabeling. -/
abbrev Relabels (L : Relabeling) (p p' : Passing ValueType Unit) : Prop :=
  p.Matches L.finding Eq (L.Carries id) Eq p'

theorem matches_readInfer (e : Node) :
    (Passing.reading fun types => (infer types e).under .expression).Matches L.finding Eq
      (L.Carries id) Eq
      (Passing.reading fun types => (infer types (e.relabel L)).under .expression) :=
  Passing.matches_reading fun _ _ h => (matches_infer h e).under L.finding_under .expression

theorem relabels_condition (pos : Position) (c : Node) :
    Relabels L (Passing.reading fun types => condition types pos c)
      (Passing.reading fun types => condition types (L.position pos) (c.relabel L)) :=
  Passing.matches_reading fun _ _ h => matches_condition h pos c

theorem relabels_assignment (hL : L.Faithful) (pos : Position) (name : String) (e : Node) :
    Relabels L (Lexical.assignment pos name e)
      (Lexical.assignment (L.position pos) (L.name name) (e.relabel L)) := by
  unfold Lexical.assignment
  refine (matches_readInfer e).andThen fun type _ htype => ?_
  rw [← htype]
  cases type with
  | some t => exact Passing.matches_assign fun _ _ h => h.set hL name t
  | none => exact Passing.matches_note rfl

mutual

theorem relabels_statement (hL : L.Faithful) : ∀ n : Node,
    Relabels L (Lexical.statement n) (Lexical.statement (n.relabel L))
  | .rule _ _ body => by
    rw [Node.relabel, Lexical.statement, Lexical.statement]
    exact (relabels_block hL .body 0 body).child
  | .assignment pos name e => by
    rw [Node.relabel, Lexical.statement, Lexical.statement]
    exact relabels_assignment hL pos name e
  | .declaration pos property e => by
    rw [Node.relabel, Lexical.statement, Lexical.statement]
    exact Passing.matches_reading fun _ _ h => matches_declaration h pos property e
  | .conditional pos c body none => by
    rw [Node.relabel, Node.relabelElse, Lexical.statement, Lexical.statement]
    refine (relabels_condition pos c).andThen fun _ _ _ => ?_
    refine (relabels_block hL .body 0 body).child.andThen fun _ _ _ => ?_
    exact Passing.matches_ok rfl
  | .conditional pos c body (some elseBody) => by
    rw [Node.relabel, Node.relabelElse, Lexical.statement, Lexical.statement]
    refine (relabels_condition pos c).andThen fun _ _ _ => ?_
    refine (relabels_block hL .body 0 body).child.andThen fun _ _ _ => ?_
    exact (relabels_block hL .elseBody 0 elseBody).child
  | .selector _ _ _ | .literal _ _ | .reference _ _ | .operation _ _ _ _ | .sheet _ _ => by
    rw [Node.relabel, Lexical.statement, Lexical.statement]
    · exact fun _ _ _ => Report.matches_misplaced _
    all_goals simp

theorem relabels_block (hL : L.Faithful) (edge : Nat → Step) (index : Nat) : ∀ nodes : List Node,
    Relabels L (Lexical.block edge index nodes)
      (Lexical.block edge index (Node.relabelAll L nodes))
  | [] => by
    rw [Node.relabelAll, Lexical.block]
    exact Passing.matches_ok rfl
  | node :: nodes => by
    rw [Node.relabelAll, Lexical.block, Lexical.block]
    refine ((relabels_statement hL node).under L.finding_under (edge index)).andThen fun _ _ _ => ?_
    exact relabels_block hL edge (index + 1) nodes

end

end Check

/-! ## The evaluator -/

namespace Evaluate

open Report (matches_ok matches_misplaced matches_note)

variable {values values' : Env Constant}

theorem constant_computed (hL : L.Faithful) (value : Value) :
    L.constant { value } = { value } := by
  rw [Relabeling.constant, hL.unplaced]

theorem matches_fold (hL : L.Faithful) (h : L.Carries L.constant values values') : ∀ e : Node,
    (fold values e).Matches L.finding Eq (fun c c' => c' = L.constant c)
      (fold values' (e.relabel L))
  | .literal _ _ => matches_ok rfl
  | .reference pos name => by
    have hname := h name
    rw [Node.relabel, fold, fold, hname]
    cases values name with
    | some c => exact matches_ok rfl
    | none =>
      refine (matches_note rfl).andThen fun _ _ _ => matches_ok ?_
      exact (constant_computed hL _).symm
  | .operation pos op lhs rhs => by
    rw [Node.relabel, fold, fold]
    refine ((matches_fold hL h lhs).under L.finding_under .lhs).andThen fun left _ hleft => ?_
    refine ((matches_fold hL h rhs).under L.finding_under .rhs).andThen fun right _ hright => ?_
    subst hleft hright
    simp only [Relabeling.constant_value]
    cases op.combine left.value right.value with
    | ok value => exact matches_ok (constant_computed hL _).symm
    | error reason =>
      exact (matches_note rfl).andThen fun _ _ _ => matches_ok (constant_computed hL _).symm
  | .selector _ _ _ | .declaration _ _ _ | .assignment _ _ _ | .conditional _ _ _ _ | .rule _ _ _
  | .sheet _ _ => matches_misplaced _

theorem matches_choose (hL : L.Faithful) (h : L.Carries L.constant values values')
    (pos : Position) (e : Node) : (choose values pos e).Matches L.finding Eq Eq
      (choose values' (L.position pos) (e.relabel L)) := by
  unfold choose
  refine ((matches_fold hL h e).under L.finding_under .condition).andThen fun c _ hc => ?_
  subst hc
  obtain ⟨value, pos'⟩ := c
  cases value with
  | bool b => exact matches_ok rfl
  | _ => exact (matches_note rfl).andThen fun _ _ _ => matches_ok rfl

/-- The two passings on literals leave the same and report the same up to the relabeling. -/
abbrev Relabels (L : Relabeling) (p p' : Passing Constant (List Node)) : Prop :=
  p.Matches L.finding Eq (L.Carries L.constant) (fun out out' => out' = Node.relabelAll L out) p'

theorem matches_readFold (hL : L.Faithful) (e : Node) :
    (Passing.reading fun values => (fold values e).under .expression).Matches L.finding Eq
      (L.Carries L.constant) (fun c c' => c' = L.constant c)
      (Passing.reading fun values => (fold values (e.relabel L)).under .expression) :=
  Passing.matches_reading fun _ _ h => (matches_fold hL h e).under L.finding_under .expression

theorem matches_readChoose (hL : L.Faithful) (pos : Position) (c : Node) :
    (Passing.reading fun values => choose values pos c).Matches L.finding Eq
      (L.Carries L.constant) Eq
      (Passing.reading fun values => choose values (L.position pos) (c.relabel L)) :=
  Passing.matches_reading fun _ _ h => matches_choose hL h pos c

mutual

theorem relabels_statement (hL : L.Faithful) : ∀ n : Node,
    Relabels L (Lexical.statement n) (Lexical.statement (n.relabel L))
  | .assignment pos name e => by
    rw [Node.relabel, Lexical.statement, Lexical.statement]
    refine (matches_readFold hL e).andThen fun c _ hc => ?_
    subst hc
    refine (Passing.matches_assign fun _ _ h => h.set hL name c).andThen fun _ _ _ => ?_
    exact Passing.matches_ok rfl
  | .declaration pos property e => by
    rw [Node.relabel, Lexical.statement, Lexical.statement]
    refine (matches_readFold hL e).andThen fun c _ hc => ?_
    subst hc
    exact Passing.matches_ok rfl
  | .rule pos selectors body => by
    rw [Node.relabel, Lexical.statement, Lexical.statement]
    refine (relabels_block hL .body 0 body).child.andThen fun out _ hout => ?_
    subst hout
    exact Passing.matches_ok rfl
  | .conditional pos c body none => by
    rw [Node.relabel, Node.relabelElse, Lexical.statement, Lexical.statement]
    refine (matches_readChoose hL pos c).andThen fun b _ hb => ?_
    subst hb
    cases b with
    | true => exact (relabels_block hL .body 0 body).child
    | false => exact Passing.matches_ok rfl
  | .conditional pos c body (some elseBody) => by
    rw [Node.relabel, Node.relabelElse, Lexical.statement, Lexical.statement]
    refine (matches_readChoose hL pos c).andThen fun b _ hb => ?_
    subst hb
    cases b with
    | true => exact (relabels_block hL .body 0 body).child
    | false => exact (relabels_block hL .elseBody 0 elseBody).child
  | .selector _ _ _ | .literal _ _ | .reference _ _ | .operation _ _ _ _ | .sheet _ _ => by
    rw [Node.relabel, Lexical.statement, Lexical.statement]
    · exact fun _ _ _ => Report.matches_misplaced _
    all_goals simp

theorem relabels_block (hL : L.Faithful) (edge : Nat → Step) (index : Nat) : ∀ nodes : List Node,
    Relabels L (Lexical.block edge index nodes)
      (Lexical.block edge index (Node.relabelAll L nodes))
  | [] => by
    rw [Node.relabelAll, Lexical.block]
    exact Passing.matches_ok rfl
  | node :: nodes => by
    rw [Node.relabelAll, Lexical.block, Lexical.block]
    refine ((relabels_statement hL node).under L.finding_under (edge index)).andThen
      fun first _ hfirst => ?_
    refine (relabels_block hL edge (index + 1) nodes).andThen fun rest _ hrest => ?_
    subst hfirst hrest
    exact Passing.matches_ok (Node.relabelAll_append first rest).symm

end

end Evaluate

/-! ## Whole trees -/

namespace Stylesheet

theorem check_relabel (hL : L.Faithful) (sheet : Stylesheet) :
    (sheet.relabel L).check = sheet.check.map (List.map L.finding) := by
  have h : sheet.checkReport.Matches L.finding Eq _ (sheet.relabel L).checkReport :=
    Check.relabels_block hL .item 0 sheet.items .empty .empty Relabeling.carries_empty
  rw [check_eq, check_eq]
  generalize sheet.checkReport = r, (sheet.relabel L).checkReport = r' at h
  cases h with
  | ok => rfl
  | fault hreason =>
    subst hreason
    rfl

theorem evaluate_relabel (hL : L.Faithful) (sheet : Stylesheet) :
    (sheet.relabel L).evaluate = sheet.evaluate.map fun e =>
      { stylesheet := e.stylesheet.relabel L, defects := e.defects.map L.finding } := by
  have h : sheet.evaluateReport.Matches L.finding Eq _ (sheet.relabel L).evaluateReport :=
    Evaluate.relabels_block hL .item 0 sheet.items .empty .empty Relabeling.carries_empty
  rw [evaluate_eq, evaluate_eq]
  generalize sheet.evaluateReport = r, (sheet.relabel L).evaluateReport = r' at h
  cases h with
  | ok h =>
    simp only [Except.map, h.1]
    rfl
  | fault hreason =>
    subst hreason
    rfl

end Stylesheet

end StyleLang
