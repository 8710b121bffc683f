import Mathlib.Logic.Function.Basic
import StyleLang.Proofs.Syntax.Grafting

/-!
# Exchanging operands

The operands of an operation in a tree are exchanged. Main statements: places before and after
correspond one to one, and at corresponding places there are the same nodes, except that the
operation and the nodes above it have the operands exchanged.
-/

namespace StyleLang

/-- The place of a node once the operands of the operation at the end of the first path are
exchanged. -/
def Path.exchange : Path → Path → Path
  | [], .lhs :: rest => .rhs :: rest
  | [], .rhs :: rest => .lhs :: rest
  | step :: target, step' :: rest =>
    if step' = step then step :: exchange target rest else step' :: rest
  | _, path => path

namespace Path

theorem exchange_cons_self (step : Step) (target rest : Path) :
    exchange (step :: target) (step :: rest) = step :: exchange target rest := if_pos rfl

theorem exchange_cons_of_ne {step step' : Step} (h : step' ≠ step) (target rest : Path) :
    exchange (step :: target) (step' :: rest) = step' :: rest := if_neg h

/-- Only below the operation places change. -/
theorem exchange_of_not_prefix {target path : Path} (h : ¬ target <+: path) :
    exchange target path = path := by
  induction target generalizing path with
  | nil => exact absurd List.nil_prefix h
  | cons step target ih =>
    cases path with
    | nil => rfl
    | cons step' rest =>
      by_cases hstep : step' = step
      · subst hstep
        rw [exchange_cons_self, ih fun hrest => h (List.cons_prefix_cons.2 ⟨rfl, hrest⟩)]
      · exact exchange_cons_of_ne hstep target rest

theorem exchange_involutive (target : Path) : Function.Involutive (exchange target) := by
  intro path
  induction target generalizing path with
  | nil =>
    cases path with
    | nil => rfl
    | cons step rest => cases step <;> rfl
  | cons step target ih =>
    cases path with
    | nil => rfl
    | cons step' rest =>
      by_cases hstep : step' = step
      · subst hstep
        rw [exchange_cons_self, exchange_cons_self, ih]
      · rw [exchange_cons_of_ne hstep, exchange_cons_of_ne hstep]

end Path

namespace Node

/-- Above a new node and where it is, the old tree has the new node in it. -/
theorem at?_graft_append (n m : Node) (path rest : Path) :
    (n.graft (path ++ rest) m).at? path = (n.at? path).map fun above => above.graft rest m := by
  induction path generalizing n with
  | nil => rfl
  | cons step path ih =>
    rw [List.cons_append, graft_cons, at?_cons, at?_cons, child?_alter_self fun _ => rfl]
    cases n.child? step with
    | none => rfl
    | some child => exact ih child

/-- Elsewhere the nodes are those at the corresponding places of the old tree. -/
theorem at?_exchange {n lhs rhs : Node} {target path : Path} {pos : Position} {op : Operator}
    (hat : n.at? target = some (.operation pos op lhs rhs)) (hpath : ¬ path <+: target) :
    (n.graft target (.operation pos op rhs lhs)).at? (target.exchange path) = n.at? path := by
  induction target generalizing n path with
  | nil =>
    obtain rfl := Option.some.inj hat
    cases path with
    | nil => exact absurd List.nil_prefix hpath
    | cons step rest => cases step <;> rfl
  | cons step target ih =>
    obtain ⟨child, hchild, hbelow⟩ := Option.bind_eq_some_iff.1 hat
    cases path with
    | nil => exact absurd List.nil_prefix hpath
    | cons step' rest =>
      rw [graft_cons]
      by_cases hstep : step' = step
      · subst hstep
        have hrest : ¬ rest <+: target := fun h => hpath (List.cons_prefix_cons.2 ⟨rfl, h⟩)
        rw [Path.exchange_cons_self, at?_cons, at?_cons, child?_alter_self fun _ => rfl, hchild]
        exact ih hbelow hrest
      · rw [Path.exchange_cons_of_ne hstep, at?_cons, at?_cons,
          child?_alter_of_ne (fun _ => rfl) hstep]

end Node

end StyleLang
