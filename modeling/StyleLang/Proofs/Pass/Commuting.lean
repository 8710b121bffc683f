import StyleLang.Proofs.Pass.Exchanging
import StyleLang.Proofs.Pass.Faults

/-!
# Addition and multiplication commute

The two operands of a sum or a product may be exchanged, whether they combine or not. Main
statement: with them exchanged, wherever in a tree, the checker and the evaluator return or fail as
before, find the same of the corresponding nodes, in the same order outside the operands, and the
evaluated tree is the same; only if the operation stands in a selector and is left there are its
operands exchanged in the evaluated tree too. A failure has the same reason as before, unless both
operands hold strays and the first one of one operand can be shown and that of the other cannot.
-/

namespace StyleLang

section Passes

/-- If there are strays in both operands, the complaints about the first ones are alike: both can
be shown, or neither can. -/
def Node.StrayAlike (lhs rhs : Node) : Prop :=
  ∀ path path' m m', lhs.FirstStrayFrom .lhs path m → rhs.FirstStrayFrom .rhs path' m' →
    m.printable = m'.printable

variable {pos : Position} {op : Operator} {lhs rhs : Node}

/-- Where the operands have no place, the complaint shows them in any order. -/
theorem ofNode_graft {n : Node} {path : Path}
    (hat : n.at? path = some (.operation pos op lhs rhs)) :
    Fault.ofNode (n.graft path (.operation pos op rhs lhs)) = Fault.ofNode n := by
  have hoperands : (Node.operation pos op rhs lhs).printable =
      (Node.operation pos op lhs rhs).printable := Bool.and_comm _ _
  unfold Fault.ofNode
  rw [Node.printable_graft hat hoperands]

/-- Two reports that the first strays of the operands stop are stopped for the same reason. -/
theorem Node.StrayAlike.reason_eq {α β : Type} (h : lhs.StrayAlike rhs) {left : Report α}
    {right : Report β} (hleft : left.StopsAtFirst lhs.expressionStrays)
    (hright : right.StopsAtFirst rhs.expressionStrays) {reason reason' : Fault}
    (hr : left.result = .error reason) (hr' : right.result = .error reason') :
    reason = reason' := by
  obtain ⟨⟨path, m⟩, hm, rfl⟩ := hleft.reason hr
  obtain ⟨⟨path', m'⟩, hm', rfl⟩ := hright.reason hr'
  unfold Fault.ofNode
  rw [h path path' m m' ((Node.head?_expressionStrays_iff .lhs trivial).1 hm)
    ((Node.head?_expressionStrays_iff .rhs trivial).1 hm')]

/-! ## The checker -/

namespace Check

section Expressions

open Report

variable {types : Env ValueType}

theorem operationType_comm (hop : op = .add ∨ op = .multiply) (left right : Option ValueType) :
    operationType pos op right left =
      ⟨(operationType pos op left right).findings.map (Finding.exchange []),
        (operationType pos op left right).result⟩ := by
  rcases left with _ | left <;> rcases right with _ | right
  · rfl
  · rfl
  · rfl
  · have hmeasure := Operator.measure_comm hop left right
    dsimp only [operationType]
    rw [hmeasure]
    cases op.measure left right <;> rfl

theorem beside_operationType {step : Step} {target : Path} (pos : Position) (op : Operator)
    (left right : Option ValueType) :
    (operationType pos op left right).Beside (step :: target) := by
  unfold operationType
  split
  · split
    · exact beside_ok _
    · exact (beside_note _ _ _).andThen fun _ => beside_ok _
  · exact (beside_note _ _ _).andThen fun _ => beside_ok _

theorem exchanged_infer (hop : op = .add ∨ op = .multiply) {path : Path} {e : Node}
    (hat : e.at? path = some (.operation pos op lhs rhs)) :
    (infer types e).Exchanged (lhs.StrayAlike rhs) path Eq
      (infer types (e.graft path (.operation pos op rhs lhs))) := by
  induction path generalizing e with
  | nil =>
    obtain rfl := Option.some.inj hat
    exact exchanged_operation
      (fun halike _ _ => halike.reason_eq (stops_infer lhs) (stops_infer rhs))
      (operationType_comm hop)
  | cons step path ih =>
    obtain ⟨child, hchild, hbelow⟩ := Option.bind_eq_some_iff.1 hat
    cases e with
    | operation pos' op' lhs' rhs' =>
      cases step with
      | lhs =>
        obtain rfl := Option.some.inj hchild
        exact exchanged_lhs (ih hbelow) (beside_operationType pos' op')
      | rhs =>
        obtain rfl := Option.some.inj hchild
        exact exchanged_rhs (ih hbelow) (beside_operationType pos' op')
      | _ => cases hchild
    | literal | reference => cases step <;> cases hchild
    | conditional _ _ _ elseBody =>
      cases elseBody <;> cases step <;> exact .fault fun _ => (ofNode_graft hat).symm
    | _ => cases step <;> exact .fault fun _ => (ofNode_graft hat).symm

/-- An expression with an operation in it is no bare reference. -/
theorem alreadyReported_graft {path : Path} {e : Node}
    (hat : e.at? path = some (.operation pos op lhs rhs)) (type : Option ValueType) :
    alreadyReported (e.graft path (.operation pos op rhs lhs)) type = alreadyReported e type := by
  cases path with
  | nil =>
    obtain rfl := Option.some.inj hat
    rfl
  | cons step path =>
    obtain ⟨child, hchild, -⟩ := Option.bind_eq_some_iff.1 hat
    cases e with
    | reference => cases step <;> cases hchild
    | conditional _ _ _ elseBody => cases elseBody <;> cases step <;> rfl
    | _ => cases step <;> rfl

theorem exchanged_declaration (hop : op = .add ∨ op = .multiply) {path : Path} {e : Node}
    (hat : e.at? path = some (.operation pos op lhs rhs)) (pos' : Position) (property : String) :
    (declaration types pos' property e).Exchanged (lhs.StrayAlike rhs) (.expression :: path) Eq
      (declaration types pos' property (e.graft path (.operation pos op rhs lhs))) := by
  unfold declaration
  refine ((exchanged_infer hop hat).under .expression).andThen fun type _ htype => ?_
  subst htype
  rw [alreadyReported_graft hat]
  refine Beside.exchanged ?_
  split
  · exact beside_note _ _ _
  · split
    · exact beside_ok _
    · exact beside_note _ _ _

theorem exchanged_condition (hop : op = .add ∨ op = .multiply) {path : Path} {e : Node}
    (hat : e.at? path = some (.operation pos op lhs rhs)) (pos' : Position) :
    (condition types pos' e).Exchanged (lhs.StrayAlike rhs) (.condition :: path) Eq
      (condition types pos' (e.graft path (.operation pos op rhs lhs))) := by
  unfold condition
  refine ((exchanged_infer hop hat).under .condition).andThen fun type _ htype => ?_
  subst htype
  rw [alreadyReported_graft hat]
  refine Beside.exchanged ?_
  split
  · exact beside_ok _
  · exact beside_note _ _ _

end Expressions

section Statements

open Passing

theorem exchanged_assignment (hop : op = .add ∨ op = .multiply) {path : Path} {e : Node}
    (hat : e.at? path = some (.operation pos op lhs rhs)) (pos' : Position) (name : String) :
    (Lexical.assignment pos' name e).Exchanged (lhs.StrayAlike rhs) (.expression :: path) Eq
      (Lexical.assignment pos' name (e.graft path (.operation pos op rhs lhs))) := by
  have hinfer : ∀ types : Env ValueType,
      ((infer types e).under .expression).Exchanged (lhs.StrayAlike rhs) (.expression :: path) Eq
        ((infer types (e.graft path (.operation pos op rhs lhs))).under .expression) :=
    fun _ => (exchanged_infer hop hat).under .expression
  unfold Lexical.assignment
  refine (exchanged_reading hinfer).andThen fun type _ htype => ?_
  subst htype
  refine Beside.exchanged ?_
  cases type with
  | some t => exact fun _ => Report.beside_ok _
  | none => exact beside_reading fun _ => Report.beside_note _ _ _

/-- The branch of a conditional after the first one. -/
def otherwise : Option (List Node) → Passing ValueType Unit
  | none => .ok ()
  | some elseBody => (Lexical.block .elseBody 0 elseBody).child

theorem statement_conditional (pos : Position) (c : Node) (body : List Node)
    (elseBody : Option (List Node)) : Lexical.statement (.conditional pos c body elseBody) =
      (reading fun types => condition types pos c).andThen fun _ =>
        (Lexical.block .body 0 body).child.andThen fun _ => otherwise elseBody := by
  cases elseBody <;>
  · rw [Lexical.statement]
    rfl

theorem beside_childBlock {edge : Nat → Step} {step : Step} {target : Path}
    (hne : ∀ j, edge j ≠ step) (nodes : List Node) :
    (Lexical.block edge 0 nodes).child.Beside (step :: target) := by
  rw [Lexical.block_eq]
  exact (Gathering.beside_block (fun j _ => hne j) nodes).child

theorem beside_otherwise {step : Step} {target : Path} (hne : ∀ j, .elseBody j ≠ step)
    (elseBody : Option (List Node)) : (otherwise elseBody).Beside (step :: target) := by
  cases elseBody with
  | none => exact beside_ok ()
  | some elseBody => exact beside_childBlock hne elseBody

theorem exchanged_block {alike : Prop} {edge : Nat → Step} (hedge : Step.BlockEdge edge)
    {path : Path} {m m' : Node} {nodes : List Node} {i : Nat}
    (hat : (nodes[i]?.bind fun n => n.at? path) = some m)
    (h : ∀ n : Node, n.at? path = some m →
      (Lexical.statement n).Exchanged alike path Eq (Lexical.statement (n.graft path m'))) :
    (Lexical.block edge 0 nodes).Exchanged alike (edge i :: path) Eq
      (Lexical.block edge 0 (Node.alterAt (fun n => some (n.graft path m')) i nodes)) := by
  rw [Lexical.block_eq, Lexical.block_eq]
  exact Gathering.exchanged_block (Gathering.congruent_eq _) hedge hat h

theorem exchanged_statement (hop : op = .add ∨ op = .multiply) (path : Path) (n : Node)
    (hat : n.at? path = some (.operation pos op lhs rhs)) :
    (Lexical.statement n).Exchanged (lhs.StrayAlike rhs) path Eq
      (Lexical.statement (n.graft path (.operation pos op rhs lhs))) := by
  induction path generalizing n with
  | nil =>
    obtain rfl := Option.some.inj hat
    exact exchanged_fault fun _ => (ofNode_graft hat).symm
  | cons step path ih =>
    obtain ⟨child, hchild, hbelow⟩ := Option.bind_eq_some_iff.1 hat
    cases n with
    | rule pos' selectors body =>
      cases step with
      | selector i =>
        rw [Node.graft_cons, Node.alter, Lexical.statement, Lexical.statement]
        exact (beside_childBlock (fun _ => by simp) body).exchanged
      | body i =>
        rw [Node.graft_cons, Node.alter, Lexical.statement, Lexical.statement]
        exact (exchanged_block (.inr (.inl rfl)) hat ih).child
      | _ => cases hchild
    | assignment pos' name e =>
      cases step with
      | expression =>
        obtain rfl := Option.some.inj hchild
        rw [Node.graft_cons, Node.alter, Option.getD_some, Lexical.statement, Lexical.statement]
        exact exchanged_assignment hop hbelow pos' name
      | _ => cases hchild
    | declaration pos' property e =>
      cases step with
      | expression =>
        obtain rfl := Option.some.inj hchild
        rw [Node.graft_cons, Node.alter, Option.getD_some, Lexical.statement, Lexical.statement]
        exact exchanged_reading fun _ => exchanged_declaration hop hbelow pos' property
      | _ => cases hchild
    | conditional pos' c body elseBody =>
      have hcond : ∀ {step : Step} {path : Path}, .condition ≠ step →
          (reading fun types => condition types pos' c).Beside (step :: path) :=
        fun hne => beside_reading fun types => (near_condition types pos' c).beside hne
      cases step with
      | condition =>
        have hc : some c = some child := by cases elseBody <;> exact hchild
        obtain rfl := Option.some.inj hc
        rw [Node.graft_cons, Node.alter, Option.getD_some, statement_conditional,
          statement_conditional]
        refine (exchanged_reading fun _ => exchanged_condition hop hbelow pos').andThen
          fun _ _ _ => Beside.exchanged ?_
        exact (beside_childBlock (fun _ => by simp) body).andThen fun _ =>
          beside_otherwise (fun _ => by simp) elseBody
      | body i =>
        have hbody : (body[i]?.bind fun n => n.at? path) = some (.operation pos op lhs rhs) := by
          cases elseBody <;> exact hat
        rw [Node.graft_cons, Node.alter, statement_conditional, statement_conditional]
        refine (hcond (by simp)).exchanged.andThen fun _ _ _ => ?_
        refine (exchanged_block (.inr (.inl rfl)) hbody ih).child.andThen fun _ _ _ => ?_
        exact (beside_otherwise (fun _ => by simp) elseBody).exchanged
      | elseBody i =>
        cases elseBody with
        | none => cases hchild
        | some elseBody =>
          rw [Node.graft_cons, Node.alter, statement_conditional, statement_conditional]
          refine (hcond (by simp)).exchanged.andThen fun _ _ _ => ?_
          refine (beside_childBlock (fun _ => by simp) body).exchanged.andThen fun _ _ _ => ?_
          exact (exchanged_block (.inr (.inr rfl)) hat ih).child
      | _ => cases elseBody <;> cases hchild
    | literal | reference | selector => cases step <;> cases hchild
    | _ => cases step <;> exact exchanged_fault fun _ => (ofNode_graft hat).symm

end Statements

end Check

/-! ## The evaluator -/

/-- What is left is the same; or the operation stands in a selector, and is left in one, with its
operands exchanged. -/
inductive Node.LeftExchanged (target : Path) (old new : Node) (ns : List Node) : List Node → Prop
  | same : LeftExchanged target old new ns ns
  | selector (i : Nat) (path : Path) (htarget : ¬ target.OutsideSelectors)
    (hpath : ¬ path.OutsideSelectors) (hat : (ns[i]?.bind fun n => n.at? path) = some old) :
    LeftExchanged target old new ns (Node.alterAt (fun n => some (n.graft path new)) i ns)

namespace Node.LeftExchanged

variable {target : Path} {old new : Node} {ns ns' : List Node}

theorem inside (h : LeftExchanged target old new ns ns') (step : Step) :
    LeftExchanged (step :: target) old new ns ns' := by
  cases h with
  | same => exact .same
  | selector i path htarget hpath hat =>
    exact .selector i path (fun hout => htarget hout.tail) hpath hat

theorem cons (h : LeftExchanged target old new ns ns') (n : Node) :
    LeftExchanged target old new (n :: ns) (n :: ns') := by
  cases h with
  | same => exact .same
  | selector i path htarget hpath hat => exact .selector (i + 1) path htarget hpath hat

theorem append_left (h : LeftExchanged target old new ns ns') (ms : List Node) :
    LeftExchanged target old new (ms ++ ns) (ms ++ ns') := by
  induction ms with
  | nil => exact h
  | cons m ms ih => exact ih.cons m

theorem append_right (h : LeftExchanged target old new ns ns') (ms : List Node) :
    LeftExchanged target old new (ns ++ ms) (ns' ++ ms) := by
  cases h with
  | same => exact .same
  | selector i path htarget hpath hat =>
    obtain ⟨n, hn, -⟩ := Option.bind_eq_some_iff.1 hat
    have hi : i < ns.length := (List.getElem?_eq_some_iff.1 hn).1
    rw [← Node.alterAt_append_of_lt hi]
    refine .selector i path htarget hpath ?_
    rw [List.getElem?_append_left hi]
    exact hat

theorem rule (h : LeftExchanged target old new ns ns') (pos : Position) (selectors : List Node) :
    LeftExchanged target old new [.rule pos selectors ns] [.rule pos selectors ns'] := by
  cases h with
  | same => exact .same
  | selector i path htarget hpath hat =>
    exact .selector 0 (.body i :: path) htarget (fun hout => hpath hout.tail) hat

end Node.LeftExchanged

namespace Evaluate

variable {values : Env Constant}

section Expressions

open Report

theorem operation_comm (hop : op = .add ∨ op = .multiply) (left right : Constant) :
    operation pos op right left =
      ⟨(operation pos op left right).findings.map (Finding.exchange []),
        (operation pos op left right).result⟩ := by
  unfold operation
  rw [Operator.combine_comm hop]
  cases op.combine left.value right.value <;> rfl

theorem exchanged_fold (hop : op = .add ∨ op = .multiply) {path : Path} {e : Node}
    (hat : e.at? path = some (.operation pos op lhs rhs)) :
    (fold values e).Exchanged (lhs.StrayAlike rhs) path Eq
      (fold values (e.graft path (.operation pos op rhs lhs))) := by
  induction path generalizing e with
  | nil =>
    obtain rfl := Option.some.inj hat
    exact exchanged_operation
      (fun halike _ _ => halike.reason_eq (stops_fold lhs) (stops_fold rhs))
      (operation_comm hop)
  | cons step path ih =>
    obtain ⟨child, hchild, hbelow⟩ := Option.bind_eq_some_iff.1 hat
    cases e with
    | operation pos' op' lhs' rhs' =>
      cases step with
      | lhs =>
        obtain rfl := Option.some.inj hchild
        exact exchanged_lhs (ih hbelow) (beside_operation pos' op')
      | rhs =>
        obtain rfl := Option.some.inj hchild
        exact exchanged_rhs (ih hbelow) (beside_operation pos' op')
      | _ => cases hchild
    | literal | reference => cases step <;> cases hchild
    | conditional _ _ _ elseBody =>
      cases elseBody <;> cases step <;> exact .fault fun _ => (ofNode_graft hat).symm
    | _ => cases step <;> exact .fault fun _ => (ofNode_graft hat).symm

theorem exchanged_choose (hop : op = .add ∨ op = .multiply) {path : Path} {e : Node}
    (hat : e.at? path = some (.operation pos op lhs rhs)) (pos' : Position) :
    (choose values pos' e).Exchanged (lhs.StrayAlike rhs) (.condition :: path) Eq
      (choose values pos' (e.graft path (.operation pos op rhs lhs))) := by
  rw [choose_eq, choose_eq]
  refine ((exchanged_fold hop hat).under .condition).andThen fun c _ hc => ?_
  subst hc
  exact (beside_truth pos' c).exchanged

end Expressions

namespace Traced

open Passing

/-- The nodes that are left are the same, but maybe for an operation in a selector. -/
def LeftExchanged (target : Path) (old new : Node) (rs rs' : List Remnant) : Prop :=
  Node.LeftExchanged target old new (Remnant.toNodes rs) (Remnant.toNodes rs')

theorem congruent_leftExchanged (target : Path) (old new : Node) :
    Gathering.remnants.Congruent (LeftExchanged target old new) where
  under step rs rs' h := by
    unfold LeftExchanged Gathering.remnants
    rwa [Remnant.toNodes_under, Remnant.toNodes_under]
  join_left rs h := by
    unfold LeftExchanged Gathering.remnants
    rw [Remnant.toNodes_append, Remnant.toNodes_append]
    exact h.append_right _
  join_right rs h := by
    unfold LeftExchanged Gathering.remnants
    rw [Remnant.toNodes_append, Remnant.toNodes_append]
    exact h.append_left _

/-- The branch of a conditional after the first one. -/
def otherwise : Option (List Node) → Passing Constant (List Remnant)
  | none => .ok []
  | some elseBody => (block .elseBody 0 elseBody).child

theorem statement_conditional (pos : Position) (c : Node) (body : List Node)
    (elseBody : Option (List Node)) : statement (.conditional pos c body elseBody) =
      (reading fun values => choose values pos c).andThen fun b =>
        if b then (block .body 0 body).child else otherwise elseBody := by
  cases elseBody <;>
  · rw [statement]
    rfl

theorem beside_childBlock {edge : Nat → Step} {step : Step} {target : Path}
    (hne : ∀ j, edge j ≠ step) (nodes : List Node) :
    (block edge 0 nodes).child.Beside (step :: target) := by
  rw [block_eq]
  exact (Gathering.beside_block (fun j _ => hne j) nodes).child

theorem beside_otherwise {step : Step} {target : Path} (hne : ∀ j, .elseBody j ≠ step)
    (elseBody : Option (List Node)) : (otherwise elseBody).Beside (step :: target) := by
  cases elseBody with
  | none => exact beside_ok []
  | some elseBody => exact beside_childBlock hne elseBody

theorem exchanged_block {alike : Prop} {edge : Nat → Step} (hedge : Step.BlockEdge edge)
    {path : Path} {m m' : Node} {nodes : List Node} {i : Nat}
    (hat : (nodes[i]?.bind fun n => n.at? path) = some m)
    (h : ∀ n : Node, n.at? path = some m →
      (statement n).Exchanged alike path (LeftExchanged path m m') (statement (n.graft path m'))) :
    (block edge 0 nodes).Exchanged alike (edge i :: path) (LeftExchanged (edge i :: path) m m')
      (block edge 0 (Node.alterAt (fun n => some (n.graft path m')) i nodes)) := by
  rw [block_eq, block_eq]
  exact Gathering.exchanged_block (congruent_leftExchanged _ m m') hedge hat fun n hn =>
    (h n hn).mono fun _ _ hleft => hleft.inside (edge i)

/-- What is left is the same if the passing finds nothing inside the node. -/
theorem Beside.exchanged_left {alike : Prop} {p : Passing Constant (List Remnant)} {target : Path}
    (h : p.Beside target) (old new : Node) :
    p.Exchanged alike target (LeftExchanged target old new) p :=
  h.exchanged.mono fun _ _ heq => heq ▸ Node.LeftExchanged.same

/-- A statement that folds its expression first. -/
theorem exchanged_expression (hop : op = .add ∨ op = .multiply) {path : Path} {e : Node}
    (hat : e.at? path = some (.operation pos op lhs rhs))
    {next : Constant → Passing Constant (List Remnant)}
    (hnext : ∀ c, (next c).Beside (.expression :: path)) :
    ((reading fun values => (fold values e).under .expression).andThen next).Exchanged
      (lhs.StrayAlike rhs) (.expression :: path)
      (LeftExchanged (.expression :: path) (.operation pos op lhs rhs) (.operation pos op rhs lhs))
      ((reading fun values => (fold values (e.graft path (.operation pos op rhs lhs))).under
        .expression).andThen next) := by
  refine (exchanged_reading fun _ => (exchanged_fold hop hat).under .expression).andThen
    fun c _ hc => ?_
  subst hc
  exact Beside.exchanged_left (hnext c) _ _

theorem exchanged_statement (hop : op = .add ∨ op = .multiply) (path : Path) (n : Node)
    (hat : n.at? path = some (.operation pos op lhs rhs)) :
    (statement n).Exchanged (lhs.StrayAlike rhs) path
      (LeftExchanged path (.operation pos op lhs rhs) (.operation pos op rhs lhs))
      (statement (n.graft path (.operation pos op rhs lhs))) := by
  induction path generalizing n with
  | nil =>
    obtain rfl := Option.some.inj hat
    exact exchanged_fault fun _ => (ofNode_graft hat).symm
  | cons step path ih =>
    obtain ⟨child, hchild, hbelow⟩ := Option.bind_eq_some_iff.1 hat
    cases n with
    | rule pos' selectors body =>
      cases step with
      | selector i =>
        rw [Node.graft_cons, Node.alter, statement, statement]
        refine (beside_childBlock (fun _ => by simp) body).exchanged.andThen fun rs _ hrs => ?_
        subst hrs
        have hin : ∀ rest, ¬ Path.OutsideSelectors (.selector i :: rest) := fun rest hout =>
          hout.head_ne i rfl
        exact Passing.exchanged_ok (.selector 0 (.selector i :: path) (hin path) (hin path) hat)
      | body i =>
        rw [Node.graft_cons, Node.alter, statement, statement]
        refine (exchanged_block (.inr (.inl rfl)) hat ih).child.andThen fun rs rs' hleft => ?_
        exact Passing.exchanged_ok (hleft.rule pos' selectors)
      | _ => cases hchild
    | assignment pos' name e =>
      cases step with
      | expression =>
        obtain rfl := Option.some.inj hchild
        rw [Node.graft_cons, Node.alter, Option.getD_some, statement, statement]
        exact exchanged_expression hop hbelow fun _ _ => Report.beside_ok _
      | _ => cases hchild
    | declaration pos' property e =>
      cases step with
      | expression =>
        obtain rfl := Option.some.inj hchild
        rw [Node.graft_cons, Node.alter, Option.getD_some, statement, statement]
        exact exchanged_expression hop hbelow fun _ _ => Report.beside_ok _
      | _ => cases hchild
    | conditional pos' c body elseBody =>
      have hchoose : ∀ {step : Step} {path : Path}, .condition ≠ step →
          (reading fun values => choose values pos' c).Beside (step :: path) :=
        fun hne => beside_reading fun values => (near_choose values pos' c).beside hne
      cases step with
      | condition =>
        have hc : some c = some child := by cases elseBody <;> exact hchild
        obtain rfl := Option.some.inj hc
        rw [Node.graft_cons, Node.alter, Option.getD_some, statement_conditional,
          statement_conditional]
        refine (exchanged_reading fun _ => exchanged_choose hop hbelow pos').andThen
          fun b _ hb => ?_
        subst hb
        refine Beside.exchanged_left ?_ _ _
        cases b with
        | true => exact beside_childBlock (fun _ => by simp) body
        | false => exact beside_otherwise (fun _ => by simp) elseBody
      | body i =>
        have hbody : (body[i]?.bind fun n => n.at? path) = some (.operation pos op lhs rhs) := by
          cases elseBody <;> exact hat
        rw [Node.graft_cons, Node.alter, statement_conditional, statement_conditional]
        refine (hchoose (by simp)).exchanged.andThen fun b _ hb => ?_
        subst hb
        cases b with
        | true => exact (exchanged_block (.inr (.inl rfl)) hbody ih).child
        | false => exact Beside.exchanged_left (beside_otherwise (fun _ => by simp) elseBody) _ _
      | elseBody i =>
        cases elseBody with
        | none => cases hchild
        | some elseBody =>
          rw [Node.graft_cons, Node.alter, statement_conditional, statement_conditional]
          refine (hchoose (by simp)).exchanged.andThen fun b _ hb => ?_
          subst hb
          cases b with
          | true => exact Beside.exchanged_left (beside_childBlock (fun _ => by simp) body) _ _
          | false => exact (exchanged_block (.inr (.inr rfl)) hat ih).child
      | _ => cases elseBody <;> cases hchild
    | literal | reference | selector => cases step <;> cases hchild
    | _ => cases step <;> exact exchanged_fault fun _ => (ofNode_graft hat).symm

end Traced

end Evaluate

/-! ## Whole trees -/

namespace Stylesheet

variable {sheet sheet' : Stylesheet} {path : Path}

theorem exists_item_operation (hat : sheet.toNode.at? path = some (.operation pos op lhs rhs)) :
    ∃ i rest, path = .item i :: rest ∧
      (sheet.items[i]?.bind fun n => n.at? rest) = some (.operation pos op lhs rhs) :=
  (at?_toNode hat).resolve_left fun h => by cases h

/-- The checker returns on both trees, with exchanged findings, or is stopped on both, and for the
same reason if `alike` holds. -/
def CheckedAlike (alike : Prop) (path : Path) (sheet sheet' : Stylesheet) : Prop :=
  ((∃ reason, sheet'.check = .error reason) ↔ ∃ reason, sheet.check = .error reason) ∧
  (alike → ∀ reason, sheet'.check = .error reason ↔ sheet.check = .error reason) ∧
  ∀ findings, sheet.check = .ok findings → ∃ findings', sheet'.check = .ok findings' ∧
    Finding.Exchanged path findings findings'

theorem checkedAlike_of_exchanged {alike : Prop}
    {R : Unit × Env ValueType → Unit × Env ValueType → Prop}
    (h : sheet.checkReport.Exchanged alike path R sheet'.checkReport) :
    CheckedAlike alike path sheet sheet' := by
  unfold CheckedAlike
  rw [check_eq, check_eq]
  generalize sheet.checkReport = r at h
  generalize sheet'.checkReport = r' at h
  cases h with
  | fault hreason =>
    refine ⟨⟨fun _ => ⟨_, rfl⟩, fun _ => ⟨_, rfl⟩⟩, fun halike reason => ?_, nofun⟩
    rw [hreason halike]
    exact Iff.rfl
  | @ok fs fs' _ _ hfs _ =>
    refine ⟨⟨nofun, nofun⟩, fun _ reason => ⟨nofun, nofun⟩, fun findings hf => ?_⟩
    obtain rfl := Except.ok.inj hf
    exact ⟨fs', rfl, hfs⟩

/-- The evaluator leaves the same of both trees, but that an operation that stands in a selector of
the first one, and so is left, stands there with its operands exchanged. -/
def LeftAlike (path : Path) (old new : Node) (left left' : Stylesheet) : Prop :=
  left' = left ∨ ¬ path.OutsideSelectors ∧ ∃ place : Path, ¬ place.OutsideSelectors ∧
    left.toNode.at? place = some old ∧ left' = left.graft place new

/-- The evaluator returns on both trees, with exchanged defects, or is stopped on both, and for the
same reason if `alike` holds. -/
def EvaluatedAlike (alike : Prop) (path : Path) (old new : Node) (sheet sheet' : Stylesheet) :
    Prop :=
  ((∃ reason, sheet'.evaluate = .error reason) ↔ ∃ reason, sheet.evaluate = .error reason) ∧
  (alike → ∀ reason, sheet'.evaluate = .error reason ↔ sheet.evaluate = .error reason) ∧
  ∀ e, sheet.evaluate = .ok e → ∃ e', sheet'.evaluate = .ok e' ∧
    Finding.Exchanged path e.defects e'.defects ∧
    LeftAlike path old new e.stylesheet e'.stylesheet

theorem leftAlike_of_nodes {old new : Node} {ns ns' : List Node} (pos : Position)
    (h : Node.LeftExchanged path old new ns ns') :
    LeftAlike path old new { pos, items := ns } { pos, items := ns' } := by
  cases h with
  | same => exact .inl rfl
  | selector i rest htarget hrest hat =>
    exact .inr ⟨htarget, .item i :: rest, fun hout => hrest hout.tail, hat, rfl⟩

theorem evaluatedAlike_of_exchanged {alike : Prop} {old new : Node} (hpos : sheet'.pos = sheet.pos)
    (h : sheet.trace.Exchanged alike path
      (fun r r' => Evaluate.Traced.LeftExchanged path old new r.1 r'.1 ∧ r.2 = r'.2)
      sheet'.trace) : EvaluatedAlike alike path old new sheet sheet' := by
  unfold EvaluatedAlike
  rw [evaluate_eq_trace, evaluate_eq_trace, hpos]
  generalize sheet.trace = r at h
  generalize sheet'.trace = r' at h
  cases h with
  | fault hreason =>
    refine ⟨⟨fun _ => ⟨_, rfl⟩, fun _ => ⟨_, rfl⟩⟩, fun halike reason => ?_, nofun⟩
    rw [hreason halike]
    exact Iff.rfl
  | @ok fs fs' _ _ hfs hleft =>
    refine ⟨⟨nofun, nofun⟩, fun _ reason => ⟨nofun, nofun⟩, fun e he => ?_⟩
    obtain rfl := Except.ok.inj he
    exact ⟨_, rfl, hfs, leftAlike_of_nodes sheet.pos hleft.1⟩

/-- **Addition and multiplication commute.** With the operands of a sum or a product exchanged,
there are the same nodes at the corresponding places, and at the others the same but for the
exchange; the checker and the evaluator return or fail as before, for the same reason if the strays
in the operands are alike, and find the same of the corresponding nodes, in the same order but in
the operands; and the evaluated tree is the same, except that an operation that stands in a selector
is left there with its operands exchanged. -/
theorem operands_commute (hop : op = .add ∨ op = .multiply)
    (hat : sheet.toNode.at? path = some (.operation pos op lhs rhs)) :
    let old : Node := .operation pos op lhs rhs
    let new : Node := .operation pos op rhs lhs
    Function.Involutive path.exchange ∧
    (∀ f : Finding, (f.exchange path).rule = f.rule ∧
      (f.path ≠ path → (f.exchange path).message = f.message)) ∧
    (∀ place, ¬ place <+: path →
      (sheet.graft path new).toNode.at? (path.exchange place) = sheet.toNode.at? place) ∧
    (∀ place rest, path = place ++ rest → (sheet.graft path new).toNode.at? place =
      (sheet.toNode.at? place).map fun n => n.graft rest new) ∧
    CheckedAlike (lhs.StrayAlike rhs) path sheet (sheet.graft path new) ∧
    EvaluatedAlike (lhs.StrayAlike rhs) path old new sheet (sheet.graft path new) := by
  intro old new
  obtain ⟨i, rest, rfl, hitem⟩ := exists_item_operation hat
  have hcheck := Check.exchanged_block (.inl rfl) hitem (Check.exchanged_statement hop rest)
  have hevaluate := Evaluate.Traced.exchanged_block (.inl rfl) hitem
    (Evaluate.Traced.exchanged_statement hop rest)
  refine ⟨Path.exchange_involutive _, fun f => ⟨f.rule_exchange _, fun hne =>
      congrArg Problem.message (Finding.problem_exchange_of_ne hne)⟩,
    fun place hplace => Node.at?_exchange hat hplace, fun place rest' heq => ?_,
    checkedAlike_of_exchanged (hcheck .empty), evaluatedAlike_of_exchanged rfl (hevaluate .empty)⟩
  have hgraft : (sheet.graft (.item i :: rest) new).toNode =
      sheet.toNode.graft (place ++ rest') new := heq ▸ rfl
  rw [hgraft, Node.at?_graft_append]

/-- An unknown variable and a truth value do not make a sum, and neither do they the other way
round. -/
theorem operands_commute_unknown :
    let unknown : Node := .reference {} "Nope"
    let truth : Node := .literal {} (.bool true)
    let sheet (lhs rhs : Node) : Stylesheet :=
      { items := [.rule {} [.selector {} .tag "p"]
          [.declaration {} "width" (.operation {} .add lhs rhs)]] }
    let evaluated : Stylesheet :=
      { items := [.rule {} [.selector {} .tag "p"]
          [.declaration {} "width" (.literal {} (.number .scalar 0))]] }
    let path : Path := [.item 0, .body 0, .expression]
    let defects (step : Step) (left right : ValueType) : List Finding :=
      [{ severity := .defect, problem := .unknownVariable "Nope", path := path ++ [step] },
        { severity := .defect, problem := .operands (.mixedTerms left "+" right), path }]
    (sheet unknown truth).toNode.at? path = some (.operation {} .add unknown truth) ∧
      (sheet unknown truth).graft path (.operation {} .add truth unknown) = sheet truth unknown ∧
      (sheet unknown truth).evaluate = .ok ⟨evaluated, defects .lhs (.number .scalar) .bool⟩ ∧
      (sheet truth unknown).evaluate = .ok ⟨evaluated, defects .rhs .bool (.number .scalar)⟩ ∧
      Finding.Exchanged path (defects .lhs (.number .scalar) .bool)
        (defects .rhs .bool (.number .scalar)) := by
  intro unknown truth sheet evaluated path defects
  have hat : (sheet unknown truth).toNode.at? path = some (.operation {} .add unknown truth) := rfl
  have he : (sheet unknown truth).evaluate =
      .ok ⟨evaluated, defects .lhs (.number .scalar) .bool⟩ := rfl
  have he' : (sheet truth unknown).evaluate =
      .ok ⟨evaluated, defects .rhs .bool (.number .scalar)⟩ := rfl
  obtain ⟨-, -, -, -, -, -, -, hevaluate⟩ := operands_commute (.inl rfl) hat
  obtain ⟨e', hleft, hdefects, -⟩ := hevaluate _ he
  obtain rfl := Except.ok.inj (he'.symm.trans hleft)
  exact ⟨hat, rfl, he, he', hdefects⟩

/-- The exchange shows where a sum stands in the place of a selector and is left, and where both
operands are conditionals and a number in one of them is too long to be shown. -/
theorem exchange_shows :
    let pixels (n : Int) : Node := .literal {} (.number .pixel n)
    let sum (left right : Node) : Node := .operation {} .add left right
    let selector (left right : Int) : Stylesheet :=
      { items := [.rule {} [sum (pixels left) (pixels right)] []] }
    let stray (n : Int) : Node := .conditional {} (pixels n) [] none
    let strays (left right : Int) : Stylesheet :=
      { items := [.assignment {} "x" (sum (stray left) (stray right))] }
    let long : Int := .ofNat (Nat.pow 10 digitLimit)
    ((selector 1 2).toNode.at? [.item 0, .selector 0] = some (sum (pixels 1) (pixels 2)) ∧
      (selector 1 2).graft [.item 0, .selector 0] (sum (pixels 2) (pixels 1)) = selector 2 1 ∧
      (selector 1 2).evaluate = .ok ⟨selector 1 2, []⟩ ∧
      (selector 2 1).evaluate = .ok ⟨selector 2 1, []⟩ ∧
      (selector 2 1).toNode.same (selector 1 2).toNode = false) ∧
    (strays 1 long).toNode.at? [.item 0, .expression] = some (sum (stray 1) (stray long)) ∧
    (strays 1 long).graft [.item 0, .expression] (sum (stray long) (stray 1)) = strays long 1 ∧
    (strays 1 long).check = .error .misplaced ∧ (strays long 1).check = .error .unprintable ∧
    (strays 1 long).evaluate = .error .misplaced ∧
    (strays long 1).evaluate = .error .unprintable := by
  intro pixels sum selector stray strays long
  have hfirst : ∀ left right, (strays left right).check = .error (.ofNode (stray left)) ∧
      (strays left right).evaluate = .error (.ofNode (stray left)) := fun _ _ => ⟨rfl, rfl⟩
  have hshort : Fault.ofNode (stray 1) = .misplaced := by decide +kernel
  have hlong : Fault.ofNode (stray long) = .unprintable := by decide +kernel
  refine ⟨⟨rfl, rfl, rfl, rfl, by decide⟩, rfl, rfl, ?_⟩
  rw [(hfirst _ _).1, (hfirst _ _).1, (hfirst _ _).2, (hfirst _ _).2, hshort, hlong]
  exact ⟨rfl, rfl, rfl, rfl⟩

end Stylesheet

end Passes

end StyleLang
