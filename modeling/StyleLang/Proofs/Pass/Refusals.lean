import StyleLang.Proofs.Pass.Faults

/-!
# Trees that are refused

Statements belong into items, bodies and branches; expressions belong to statements and operations.
Main statements: the checker refuses a tree exactly if a node at one of these places is of another
kind, outside selectors, which it does not look into; from every other tree it returns. It complains
of the first such node, and the complaint shows the node, unless a number in it is too long for
that. The evaluator refuses no tree that the checker does not refuse.
-/

namespace StyleLang

namespace Node

/-- The node at the end of the path belongs there, or it is the root. -/
def WellPlacedAt (n : Node) (path : Path) : Prop :=
  ∃ m, n.at? path = some m ∧ ∀ outer step, path = outer ++ [step] → m.Suits step

/-- At the end of such a path the place of a statement, or the place of an expression of a
well-placed node, holds a node of another kind. -/
def HoldsMisplaced (n : Node) (paths : Path → Prop) : Prop :=
  ∃ path step m, paths (path ++ [step]) ∧ n.at? (path ++ [step]) = some m ∧ ¬ m.Suits step ∧
    (step.ToStatement ∨ step.ToExpression ∧ n.WellPlacedAt path)

variable {root n m : Node} {step : Step} {path : Path}

/-- On the way to a node that is not where it belongs there is a stray, if it is not one itself. -/
theorem exists_strayFrom (hpath : (path ++ [step]).OutsideSelectors)
    (hat : n.at? (path ++ [step]) = some m) (hm : ¬ m.Suits step) :
    ∃ next child rest k, n.child? next = some child ∧ (∀ i, next ≠ .selector i) ∧
      StrayFrom next child rest k := by
  induction path generalizing n with
  | nil =>
    obtain ⟨child, hchild, hrest⟩ := Option.bind_eq_some_iff.1 hat
    obtain rfl := Option.some.inj hrest
    exact ⟨step, child, _, _, hchild, hpath.head_ne, .here hm⟩
  | cons first path ih =>
    obtain ⟨child, hchild, hrest⟩ := Option.bind_eq_some_iff.1 hat
    refine ⟨first, child, ?_⟩
    by_cases hsuits : child.Suits first
    · obtain ⟨next, below, rest, k, hbelow, hnext, hk⟩ := ih hpath.tail hrest
      exact ⟨_, k, hchild, hpath.head_ne, .under hsuits hbelow hnext hk⟩
    · exact ⟨_, _, hchild, hpath.head_ne, .here hsuits⟩

theorem wellPlacedAt_nil (n : Node) : n.WellPlacedAt [] :=
  ⟨n, rfl, fun outer step h => by simp at h⟩

theorem wellPlacedAt_append (hat : n.at? (path ++ [step]) = some m) (h : m.Suits step) :
    n.WellPlacedAt (path ++ [step]) := by
  refine ⟨m, hat, fun outer last heq => ?_⟩
  obtain ⟨-, hlast⟩ := List.append_inj' heq rfl
  obtain rfl := List.head_eq_of_cons_eq hlast
  exact h

/-- A stray below a node that is reached through well-placed ones is misplaced. -/
theorem StrayFrom.holdsMisplaced {rest : Path} (h : StrayFrom step n rest m)
    (hpath : (path ++ [step]).OutsideSelectors) (hat : root.at? (path ++ [step]) = some n)
    (hplaced : root.WellPlacedAt path) : root.HoldsMisplaced Path.OutsideSelectors := by
  induction h generalizing path with
  | @here step n hn =>
    have hstep : ∀ i, step ≠ .selector i := fun i hi => hpath i (by simp [hi])
    exact ⟨path, step, n, hpath, hat, hn,
      (Step.toStatement_or_toExpression hstep).imp_right fun hexpr => ⟨hexpr, hplaced⟩⟩
  | @under step next n child m rest hn hchild hnext _ ih =>
    refine ih ?_ ?_ (wellPlacedAt_append hat hn)
    · intro i hi
      rcases List.mem_append.1 hi with hi | hi
      · exact hpath i hi
      · exact hnext i (List.mem_singleton.1 hi).symm
    · rw [at?_append, hat, Option.bind_some, at?_cons, hchild]
      rfl

end Node

namespace Stylesheet

variable {sheet : Stylesheet}

theorem holdsMisplaced_iff : sheet.toNode.HoldsMisplaced Path.OutsideSelectors ↔
    ∃ path m, sheet.StrayAt path m := by
  constructor
  · rintro ⟨path, step, m, hpath, hat, hm, -⟩
    obtain ⟨next, child, rest, k, hchild, -, hk⟩ := Node.exists_strayFrom hpath hat hm
    cases next with
    | item i => exact ⟨_, k, i, child, rest, hchild, rfl, hk⟩
    | _ => cases hchild
  · rintro ⟨_, m, i, item, rest, hitem, rfl, hm⟩
    refine hm.holdsMisplaced (fun j hj => ?_) ?_ (Node.wellPlacedAt_nil sheet.toNode)
    · cases List.mem_singleton.1 hj
    · exact Option.bind_eq_some_iff.2 ⟨item, hitem, rfl⟩

theorem exists_check_error_iff : (∃ reason, sheet.check = .error reason) ↔
    ∃ path m, sheet.StrayAt path m := by
  have hreturns : (∃ findings, sheet.check = .ok findings) ↔ ∀ path m, ¬ sheet.StrayAt path m :=
    exists_check_iff.trans placed_iff_forall_not_strayAt
  cases hcheck : sheet.check with
  | ok findings =>
    have hnone := hreturns.1 ⟨findings, hcheck⟩
    exact ⟨nofun, fun ⟨path, m, hm⟩ => absurd hm (hnone path m)⟩
  | error reason =>
    obtain ⟨path, m, hm, -⟩ := check_error_iff.1 hcheck
    exact ⟨fun _ => ⟨path, m, hm.1⟩, fun _ => ⟨reason, rfl⟩⟩

/-- **Misplaced nodes are refused.** The checker refuses a tree exactly if, outside selectors, the
place of a statement or the place of an expression of a well-placed node holds a node of another
kind, and complains of the first such node in the order of the nodes; from every other tree it
returns. The evaluator complains of such nodes and of nothing else, and only on trees that the
checker refuses. -/
theorem refused_iff_misplaced (sheet : Stylesheet) :
    ((∃ reason, sheet.check = .error reason) ↔
      sheet.toNode.HoldsMisplaced Path.OutsideSelectors) ∧
    (∀ reason, sheet.check = .error reason ↔
      ∃ path m, sheet.FirstStrayAt path m ∧ reason = .ofNode m) ∧
    ((∃ findings, sheet.check = .ok findings) ↔
      ¬ sheet.toNode.HoldsMisplaced Path.OutsideSelectors) ∧
    ∀ reason, sheet.evaluate = .error reason →
      (∃ path m, sheet.StrayAt path m ∧ reason = .ofNode m) ∧
        ∃ reason', sheet.check = .error reason' := by
  refine ⟨exists_check_error_iff.trans holdsMisplaced_iff.symm, fun reason => check_error_iff, ?_,
    fun reason he => ?_⟩
  · rw [exists_check_iff, placed_iff_forall_not_strayAt, holdsMisplaced_iff]
    simp only [not_exists]
  · obtain ⟨path, m, hm, rfl⟩ := strayAt_of_evaluate he
    exact ⟨⟨path, m, hm, rfl⟩, exists_check_error_iff.2 ⟨path, m, hm⟩⟩

/-- A rule among the selectors of another one holds a literal in its body: neither pass looks there,
so the tree is not refused. Where a literal in the place of a statement is too long to be shown, the
complaint about it is another one. -/
theorem misplaced_not_always_shown :
    let selectors : Stylesheet :=
      { items := [.rule {} [.rule {} [] [.literal {} (.number .pixel 1)]] []] }
    let long : Node := .literal {} (.number .pixel (.ofNat (Nat.pow 10 digitLimit)))
    let statement : Stylesheet := { items := [long] }
    (selectors.toNode.HoldsMisplaced (fun _ => True) ∧ selectors.check = .ok []) ∧
      statement.toNode.HoldsMisplaced Path.OutsideSelectors ∧
      statement.check = .error .unprintable ∧ statement.evaluate = .error .unprintable := by
  intro selectors long statement
  have hlong : Fault.ofNode long = .unprintable := by decide +kernel
  have hcheck : statement.check = .error (.ofNode long) := rfl
  have hevaluate : statement.evaluate = .error (.ofNode long) := rfl
  rw [hcheck, hevaluate, hlong]
  refine ⟨⟨⟨[.item 0, .selector 0], .body 0, _, trivial, rfl, id, .inl trivial⟩, rfl⟩, ?_, rfl, rfl⟩
  exact ⟨[], .item 0, long, fun i hi => by simp at hi, rfl, id, .inl trivial⟩

end Stylesheet

end StyleLang
