import StyleLang.Proofs.Pass.Lexical
import StyleLang.Proofs.Pass.Yields

/-!
# What the evaluator leaves

What is left of each kind of statement, given what its expressions fold to and what is left of its
blocks. A proof about evaluated trees needs these laws and an induction, and never looks into the
evaluator.
-/

namespace StyleLang.Evaluate

/-- The report yields nodes that satisfy `P` and an environment that satisfies `Q`. -/
def Leaves (admits : Problem → Prop) (Q : Env Constant → Prop) (P : Node → Prop)
    (r : Report (List Node × Env Constant)) : Prop :=
  ∃ out values, r.Yields admits (out, values) ∧ Q values ∧ ∀ n ∈ out, P n

variable {admits : Problem → Prop} {Q Q' : Env Constant → Prop} {P P' : Node → Prop}
  {values : Env Constant}

theorem leaves_nothing (hQ : Q values) :
    Leaves admits Q P ((Passing.ok [] : Passing Constant (List Node)) values) :=
  ⟨[], values, Passing.yields_ok.2 ⟨rfl, rfl⟩, hQ, fun n hn => by cases hn⟩

theorem leaves_one (hQ : Q values) {n : Node} (hn : P n) :
    Leaves admits Q P ((Passing.ok [n] : Passing Constant (List Node)) values) := by
  refine ⟨[n], values, Passing.yields_ok.2 ⟨rfl, rfl⟩, hQ, fun m hm => ?_⟩
  rw [List.mem_singleton.1 hm]
  exact hn

/-- `Leaves` without a word on the environment. -/
theorem Leaves.drop {r : Report (List Node × Env Constant)} (h : Leaves admits Q P r) :
    Leaves admits (fun _ => True) P r := by
  obtain ⟨out, values, hr, -, hout⟩ := h
  exact ⟨out, values, hr, trivial, hout⟩

/-- What is bound inside is dropped. -/
theorem Leaves.child {p : Passing Constant (List Node)} (h : Leaves admits Q' P (p values))
    (hQ : Q values) : Leaves admits Q P (p.child values) := by
  obtain ⟨out, inner, hp, -, hout⟩ := h
  exact ⟨out, values, Passing.yields_child.2 ⟨⟨inner, hp⟩, rfl⟩, hQ, hout⟩

/-- A pass that reads one report first. -/
theorem Leaves.afterReading {α : Type} {report : Env Constant → Report α} {a : α}
    {next : α → Passing Constant (List Node)} (hr : (report values).Yields admits a)
    (h : Leaves admits Q P (next a values)) :
    Leaves admits Q P (((Passing.reading report).andThen next) values) := by
  obtain ⟨out, values', hn, hQ, hout⟩ := h
  have hread : ((Passing.reading report) values).Yields admits (a, values) :=
    Passing.yields_reading.2 ⟨hr, rfl⟩
  exact ⟨out, values', Passing.yields_andThen.2 ⟨a, values, hread, hn⟩, hQ, hout⟩

/-! ## Statements -/

theorem leaves_assignment {pos : Position} {name : String} {e : Node} {c : Constant}
    (hc : (fold values e).Yields admits c) (hQ : Q (values.set name c)) :
    Leaves admits Q P (Lexical.statement (.assignment pos name e) values) := by
  rw [Lexical.statement]
  refine Leaves.afterReading (Report.yields_under.2 hc) ?_
  refine ⟨[], values.set name c, ?_, hQ, fun n hn => by cases hn⟩
  exact Passing.yields_andThen.2
    ⟨(), _, Passing.yields_assign.2 rfl, Passing.yields_ok.2 ⟨rfl, rfl⟩⟩

theorem leaves_declaration {pos : Position} {property : String} {e : Node} {c : Constant}
    (hc : (fold values e).Yields admits c) (hQ : Q values)
    (hP : P (.declaration pos property c.toNode)) :
    Leaves admits Q P (Lexical.statement (.declaration pos property e) values) := by
  rw [Lexical.statement]
  exact Leaves.afterReading (Report.yields_under.2 hc) (leaves_one hQ hP)

/-- Of a conditional the branch that is taken is left, if it is there. -/
theorem leaves_conditional {pos : Position} {cond : Node} {body : List Node}
    {elseBody : Option (List Node)} {b : Bool} (hb : (choose values pos cond).Yields admits b)
    (hQ : Q values) (hbody : Leaves admits (fun _ => True) P (Lexical.block .body 0 body values))
    (helse : ∀ nodes, elseBody = some nodes →
      Leaves admits (fun _ => True) P (Lexical.block .elseBody 0 nodes values)) :
    Leaves admits Q P (Lexical.statement (.conditional pos cond body elseBody) values) := by
  cases elseBody with
  | none =>
    rw [Lexical.statement]
    refine Leaves.afterReading hb ?_
    cases b with
    | true => exact hbody.child hQ
    | false => exact leaves_nothing hQ
  | some nodes =>
    rw [Lexical.statement]
    refine Leaves.afterReading hb ?_
    cases b with
    | true => exact hbody.child hQ
    | false => exact (helse nodes rfl).child hQ

theorem leaves_rule {pos : Position} {selectors body : List Node}
    (h : Leaves admits Q' P' (Lexical.block .body 0 body values)) (hQ : Q values)
    (hP : ∀ out, (∀ n ∈ out, P' n) → P (.rule pos selectors out)) :
    Leaves admits Q P (Lexical.statement (.rule pos selectors body) values) := by
  obtain ⟨out, values', hout, hQ', hlines⟩ := h.child hQ
  have hone : Leaves admits Q P ((Passing.ok [.rule pos selectors out]) values') :=
    leaves_one hQ' (hP out hlines)
  obtain ⟨rule, values'', hrule, hQ'', hP'⟩ := hone
  rw [Lexical.statement]
  exact ⟨rule, values'', Passing.yields_andThen.2 ⟨out, values', hout, hrule⟩, hQ'', hP'⟩

/-! ## Blocks -/

theorem leaves_nil {edge : Nat → Step} {index : Nat} (hQ : Q values) :
    Leaves admits Q P (Lexical.block edge index [] values) := by
  rw [Lexical.block]
  exact leaves_nothing hQ

/-- A block leaves what its first statement leaves, and then what the others leave. -/
theorem Leaves.cons {edge : Nat → Step} {index : Nat} {node : Node} {nodes : List Node}
    (h : Leaves admits Q' P (Lexical.statement node values))
    (hrest : ∀ mid, Q' mid → Leaves admits Q P (Lexical.block edge (index + 1) nodes mid)) :
    Leaves admits Q P (Lexical.block edge index (node :: nodes) values) := by
  obtain ⟨first, mid, hfirst, hmid, hn⟩ := h
  obtain ⟨rest, last, hblock, hlast, hns⟩ := hrest mid hmid
  rw [Lexical.block]
  refine ⟨first ++ rest, last, ?_, hlast, fun n hmem => ?_⟩
  · refine Passing.yields_andThen.2 ⟨first, mid, Passing.yields_under.2 hfirst, ?_⟩
    exact Passing.yields_andThen.2 ⟨rest, last, hblock, Passing.yields_ok.2 ⟨rfl, rfl⟩⟩
  · rcases List.mem_append.1 hmem with hmem | hmem
    · exact hn n hmem
    · exact hns n hmem

end StyleLang.Evaluate
