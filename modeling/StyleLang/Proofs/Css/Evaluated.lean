import StyleLang.Proofs.Css.Flat
import StyleLang.Proofs.Grammar.Correctness

/-!
# What evaluation leaves of a read tree

A tree that was read has expressions where expressions belong and statements where statements
belong, so no fault stops the evaluator, whatever problems it meets. A literal moves through
variables, but none is made up that has no spelling. Main statement: what is left is a flat tree.
-/

namespace StyleLang

/-! ## Shapes -/

namespace Node

/-- Literals that can be written, references and operations on such. -/
def IsExpression : Node → Prop
  | literal _ value => value.Writable
  | reference _ _ => True
  | operation _ _ lhs rhs => lhs.IsExpression ∧ rhs.IsExpression
  | _ => False

mutual

/-- A statement of a body, of expressions and names that can be written. -/
def IsStatement : Node → Prop
  | assignment _ _ expression => expression.IsExpression
  | declaration _ property expression =>
    IsName property.toList ∧ property.toList ≠ ['i', 'f'] ∧ expression.IsExpression
  | conditional _ condition body elseBody =>
    condition.IsExpression ∧ AreStatements body ∧ AreElseStatements elseBody
  | _ => False

/-- `IsStatement`, member by member. -/
def AreStatements : List Node → Prop
  | [] => True
  | node :: nodes => node.IsStatement ∧ AreStatements nodes

/-- `AreStatements` for a branch that may be missing. -/
def AreElseStatements : Option (List Node) → Prop
  | none => True
  | some nodes => AreStatements nodes

end

/-- An assignment, or a rule with selectors that can be written and a body of statements. -/
def IsItem : Node → Prop
  | assignment _ _ expression => expression.IsExpression
  | rule _ selectors body =>
    (∃ ws, Grammar.Selectors (bareAll selectors) ws) ∧ AreStatements body
  | _ => False

theorem isExpression_bare : ∀ n : Node, n.bare.IsExpression ↔ n.IsExpression
  | operation _ _ lhs rhs => and_congr (isExpression_bare lhs) (isExpression_bare rhs)
  | selector _ _ _ | literal _ _ | reference _ _ | declaration _ _ _ | assignment _ _ _
  | conditional _ _ _ _ | rule _ _ _ | sheet _ _ => Iff.rfl

mutual

theorem isStatement_bare : ∀ n : Node, n.bare.IsStatement ↔ n.IsStatement
  | assignment _ _ e => isExpression_bare e
  | declaration _ _ e => and_congr Iff.rfl (and_congr Iff.rfl (isExpression_bare e))
  | conditional _ c b none =>
    and_congr (isExpression_bare c) (and_congr (areStatements_bare b) Iff.rfl)
  | conditional _ c b (some e) =>
    and_congr (isExpression_bare c) (and_congr (areStatements_bare b) (areStatements_bare e))
  | selector _ _ _ | literal _ _ | reference _ _ | operation _ _ _ _ | rule _ _ _ | sheet _ _ =>
    Iff.rfl

theorem areStatements_bare : ∀ ns : List Node, AreStatements (bareAll ns) ↔ AreStatements ns
  | [] => Iff.rfl
  | n :: ns => and_congr (isStatement_bare n) (areStatements_bare ns)

end

theorem areStatements_append {ns ms : List Node} (hn : AreStatements ns) (hm : AreStatements ms) :
    AreStatements (ns ++ ms) := by
  induction ns with
  | nil => exact hm
  | cons n ns ih => exact ⟨hn.1, ih hn.2⟩

end Node

namespace Grammar

open Reserve (keywords)

theorem Atom.isExpression {n : Node} {w : List Char} (h : Atom keywords n w) :
    n.IsExpression := by
  cases h with
  | number _ _ => trivial
  | color hw =>
    show IsColor _
    rwa [String.toList_ofList]
  | bool _ => trivial
  | reference _ _ => trivial

theorem Product.isExpression {n : Node} {ws : List (List Char)} (h : Product keywords n ws) :
    n.IsExpression := by
  induction h with
  | atom ha => exact ha.isExpression
  | times _ ha ih => exact ⟨ih, ha.isExpression⟩

theorem Expression.isExpression {n : Node} {ws : List (List Char)}
    (h : Expression keywords n ws) : n.IsExpression := by
  induction h with
  | product hp => exact hp.isExpression
  | plus _ hp ih | minus _ hp ih => exact ⟨ih, hp.isExpression⟩

theorem Condition.isExpression {n : Node} {ws : List (List Char)}
    (h : Condition keywords n ws) : n.IsExpression := by
  cases h with
  | square he => exact he.isExpression
  | round he => exact he.isExpression

/-- Wherever a statement starts, `if` is reserved. -/
theorem if_reserved (previous : Option Node) :
    keywords (Spot.afterStatement previous) ['i', 'f'] := by
  unfold Spot.afterStatement
  split
  · exact .inr rfl
  · rfl

mutual

theorem Statement.isStatement {spot : Spot} {n : Node} {ws : List (List Char)}
    (h : Statement keywords spot n ws) (hspot : keywords spot ['i', 'f']) : n.IsStatement := by
  match h with
  | .assignment ha =>
    cases ha with
    | mk _ _ he => exact he.isExpression
  | @Statement.declaration _ _ w _ _ hw hfree he =>
    refine ⟨?_, ?_, he.isExpression⟩
    · rwa [String.toList_ofList]
    · rw [String.toList_ofList]
      rintro rfl
      exact hfree hspot
  | .conditional hc hb => exact ⟨hc.isExpression, hb.areStatements, trivial⟩
  | .branching hc hb he => exact ⟨hc.isExpression, hb.areStatements, he.areStatements⟩

theorem Body.areStatements {ns : List Node} {ws : List (List Char)} (h : Body keywords ns ws) :
    Node.AreStatements ns := by
  match h with
  | .nil => trivial
  | .snoc hns hn =>
    exact Node.areStatements_append hns.areStatements ⟨hn.isStatement (if_reserved _), trivial⟩

end

theorem Items.item {R : Reserve} {ns : List Node} {ws : List (List Char)} (h : Items R ns ws)
    {n : Node} (hn : n ∈ ns) : ∃ spot vs, Item R spot n vs := by
  induction h with
  | nil => cases hn
  | snoc _ hlast ih =>
    rcases List.mem_append.1 hn with hn | hn
    · exact ih hn
    · rw [List.mem_singleton.1 hn]
      exact ⟨_, _, hlast⟩

theorem Item.isItem_of_bare {spot : Spot} {n : Node} {ws : List (List Char)}
    (h : Item keywords spot n.bare ws) : n.IsItem := by
  generalize hm : n.bare = m at h
  cases h with
  | assignment ha =>
    cases ha with
    | mk _ _ he =>
      cases n with
      | assignment pos name e =>
        obtain ⟨-, -, hbare⟩ := Node.assignment.inj hm
        rw [← hbare] at he
        exact (Node.isExpression_bare e).1 he.isExpression
      | _ => cases hm
  | rule hss _ hb =>
    cases n with
    | rule pos selectors body =>
      obtain ⟨-, hselectors, hbody⟩ := Node.rule.inj hm
      rw [← hselectors] at hss
      rw [← hbody] at hb
      exact ⟨⟨_, hss⟩, (Node.areStatements_bare body).1 hb.areStatements⟩
    | _ => cases hm

end Grammar

open Css

/-! ## Expressions -/

def Env.Writable (values : Env Constant) : Prop :=
  ∀ name c, values name = some c → c.value.Writable

theorem Env.writable_empty : (.empty : Env Constant).Writable := fun _ _ h => by cases h

theorem Env.Writable.set {values : Env Constant} (h : values.Writable) (name : String)
    {c : Constant} (hc : c.value.Writable) : (values.set name c).Writable := by
  intro other d hd
  unfold Env.set at hd
  by_cases hother : other = name
  · rw [if_pos hother] at hd
    rw [← Option.some.inj hd]
    exact hc
  · rw [if_neg hother] at hd
    exact h other d hd

namespace Evaluate

variable {values : Env Constant}

/-- Of operators only numbers come. -/
theorem writable_of_combine {op : Operator} {l r value : Value}
    (h : op.combine l r = .ok value) : value.Writable := by
  unfold Operator.combine at h
  split at h
  · rw [← Except.ok.inj h]
    trivial
  · cases h

/-- A problem stops nothing. -/
theorem yields_afterNote {α : Type} (severity : Severity) (pos : Position) (problem : Problem)
    (a : α) : ((Report.note severity pos problem).andThen fun _ => Report.ok a).Yields
      (fun _ => True) a :=
  Report.yields_andThen.2 ⟨(), Report.yields_note.2 trivial, Report.yields_ok.2 rfl⟩

theorem fold_yields (hv : values.Writable) : ∀ e : Node, e.IsExpression →
    ∃ c, (fold values e).Yields (fun _ => True) c ∧ c.value.Writable
  | .literal pos value, h => ⟨_, Report.yields_ok.2 rfl, h⟩
  | .reference pos name, _ => by
    rw [fold]
    cases hname : values name with
    | some c => exact ⟨c, Report.yields_ok.2 rfl, hv name c hname⟩
    | none => exact ⟨.fallback, yields_afterNote _ _ _ _, trivial⟩
  | .operation pos op lhs rhs, h => by
    obtain ⟨l, hl, -⟩ := fold_yields hv lhs h.1
    obtain ⟨r, hr, -⟩ := fold_yields hv rhs h.2
    have hboth : ∀ {c : Constant} {next : Constant → Constant → Report Constant},
        (next l r).Yields (fun _ => True) c → (((fold values lhs).under .lhs).andThen fun l =>
          ((fold values rhs).under .rhs).andThen fun r => next l r).Yields (fun _ => True) c := by
      intro c next hc
      refine Report.yields_andThen.2 ⟨l, Report.yields_under.2 hl, ?_⟩
      exact Report.yields_andThen.2 ⟨r, Report.yields_under.2 hr, hc⟩
    rw [fold]
    cases hcombine : op.combine l.value r.value with
    | ok value =>
      refine ⟨{ value }, hboth ?_, writable_of_combine hcombine⟩
      rw [hcombine]
      exact Report.yields_ok.2 rfl
    | error reason =>
      refine ⟨.fallback, hboth ?_, trivial⟩
      rw [hcombine]
      exact yields_afterNote _ _ _ _

theorem choose_yields (hv : values.Writable) (pos : Position) {e : Node} (he : e.IsExpression) :
    ∃ b, (choose values pos e).Yields (fun _ => True) b := by
  obtain ⟨c, hc, -⟩ := fold_yields hv e he
  unfold choose
  cases hvalue : c.value with
  | bool b =>
    refine ⟨b, Report.yields_andThen.2 ⟨c, Report.yields_under.2 hc, ?_⟩⟩
    rw [hvalue]
    exact Report.yields_ok.2 rfl
  | number _ _ | color _ =>
    refine ⟨false, Report.yields_andThen.2 ⟨c, Report.yields_under.2 hc, ?_⟩⟩
    rw [hvalue]
    exact yields_afterNote _ _ _ _

end Evaluate

/-! ## Statements -/

open Evaluate (Leaves leaves_nil leaves_assignment leaves_declaration leaves_conditional
  leaves_rule fold_yields choose_yields)

mutual

/-- Whatever problems it meets, the evaluator leaves flat lines of a statement. -/
theorem leaves_statement : ∀ (node : Node) {values : Env Constant}, values.Writable →
    node.IsStatement →
      Leaves (fun _ => True) Env.Writable FlatLine (Evaluate.Lexical.statement node values)
  | .assignment pos name e, values, hv, h => by
    obtain ⟨c, hc, hw⟩ := fold_yields hv e h
    exact leaves_assignment hc (hv.set name hw)
  | .declaration pos property e, values, hv, ⟨hname, hif, he⟩ => by
    obtain ⟨c, hc, hw⟩ := fold_yields hv e he
    exact leaves_declaration hc hv (.mk hname hif hw)
  | .conditional pos c body none, values, hv, ⟨hc, hb, _⟩ => by
    obtain ⟨b, hchoose⟩ := choose_yields hv pos hc
    refine leaves_conditional hchoose hv (leaves_block .body 0 body hv hb).drop fun nodes h => ?_
    cases h
  | .conditional pos c body (some elseBody), values, hv, ⟨hc, hb, he⟩ => by
    obtain ⟨b, hchoose⟩ := choose_yields hv pos hc
    refine leaves_conditional hchoose hv (leaves_block .body 0 body hv hb).drop fun nodes h => ?_
    rw [← Option.some.inj h]
    exact (leaves_block .elseBody 0 elseBody hv he).drop
  | .selector _ _ _, _, _, h | .literal _ _, _, _, h | .reference _ _, _, _, h
  | .operation _ _ _ _, _, _, h | .rule _ _ _, _, _, h | .sheet _ _, _, _, h => h.elim

theorem leaves_block (edge : Nat → Step) (index : Nat) :
    ∀ (nodes : List Node) {values : Env Constant}, values.Writable → Node.AreStatements nodes →
      Leaves (fun _ => True) Env.Writable FlatLine (Evaluate.Lexical.block edge index nodes values)
  | [], _, hv, _ => leaves_nil hv
  | node :: nodes, _, hv, ⟨hn, hns⟩ =>
    (leaves_statement node hv hn).cons fun _ hmid => leaves_block edge (index + 1) nodes hmid hns

end

/-! ## Items -/

theorem leaves_item {node : Node} {values : Env Constant} (hv : values.Writable)
    (h : node.IsItem) :
    Leaves (fun _ => True) Env.Writable FlatRule (Evaluate.Lexical.statement node values) := by
  cases node with
  | assignment pos name e =>
    obtain ⟨c, hc, hw⟩ := fold_yields hv e h
    exact leaves_assignment hc (hv.set name hw)
  | rule pos selectors body =>
    obtain ⟨⟨ws, hselectors⟩, hbody⟩ := h
    refine leaves_rule (leaves_block .body 0 body hv hbody) hv fun out hlines => ?_
    exact .mk hselectors hlines
  | _ => exact h.elim

theorem leaves_items (edge : Nat → Step) {nodes : List Node} (h : ∀ n ∈ nodes, n.IsItem)
    (index : Nat) {values : Env Constant} (hv : values.Writable) :
    Leaves (fun _ => True) Env.Writable FlatRule
      (Evaluate.Lexical.block edge index nodes values) := by
  induction nodes generalizing index values with
  | nil => exact leaves_nil hv
  | cons node nodes ih =>
    refine (leaves_item hv (h node List.mem_cons_self)).cons fun mid hmid => ?_
    exact ih (fun n hn => h n (List.mem_cons_of_mem _ hn)) (index + 1) hmid

/-- The items of a tree that was read are assignments and rules that can be written. -/
theorem Stylesheet.isItem_of_parse {source : String} {sheet : Stylesheet}
    (h : Stylesheet.parse source = .ok sheet) : ∀ n ∈ sheet.items, n.IsItem := by
  obtain ⟨ws, body, gap, hitems, -, -, -⟩ := Grammar.spells_of_parse h
  intro n hn
  have hmem : n.bare ∈ Node.bareAll sheet.items := by
    rw [Node.bareAll_eq_map]
    exact List.mem_map_of_mem hn
  obtain ⟨spot, vs, hitem⟩ := hitems.item hmem
  exact hitem.isItem_of_bare

/-- A tree that was read is evaluated, to a flat tree. -/
theorem Stylesheet.evaluate_of_parse {source : String} {sheet : Stylesheet}
    (h : Stylesheet.parse source = .ok sheet) :
    ∃ e, sheet.evaluate = .ok e ∧ ∀ n ∈ e.stylesheet.items, FlatRule n := by
  obtain ⟨out, values, hyields, -, hflat⟩ :=
    leaves_items .item (isItem_of_parse h) 0 Env.writable_empty
  have hresult : sheet.evaluateReport.result = .ok (out, values) := hyields.1
  refine ⟨⟨{ sheet with items := out }, sheet.evaluateReport.findings⟩, ?_, hflat⟩
  rw [Stylesheet.evaluate_eq, hresult]
  rfl

end StyleLang
