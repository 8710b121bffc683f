import StyleLang.Proofs.Syntax.Bare
import StyleLang.Proofs.Syntax.Deletion

/-!
# Grafting

A node of a tree is replaced by another one. Main statements: the new node is found where the old
one was, what branches off before it is as it was, positions do not matter for either, and whether
all numbers of the tree can be written stays as it was if that holds of the node.
-/

namespace StyleLang

namespace Node

/-- The tree with another node at the end of the path. -/
def graft (n : Node) : Path → Node → Node
  | [], m => m
  | step :: path, m => n.alter (fun child => some (child.graft path m)) step

theorem graft_cons (n m : Node) (step : Step) (path : Path) :
    n.graft (step :: path) m = n.alter (fun child => some (child.graft path m)) step := rfl

/-- The new node is where the old one was. -/
theorem at?_graft_self {n old : Node} (m : Node) {path : Path} (h : n.at? path = some old) :
    (n.graft path m).at? path = some m := by
  induction path generalizing n with
  | nil => rfl
  | cons step path ih =>
    obtain ⟨child, hchild, hat⟩ := Option.bind_eq_some_iff.1 h
    rw [graft_cons, at?_cons, child?_alter_self fun _ => rfl, hchild]
    exact ih hat

/-- What branches off the path before the new node stays. -/
theorem at?_graft_beside {s t : Step} (hst : t ≠ s) (m : Node) (path rest rest' : Path)
    (n : Node) :
    (n.graft (path ++ s :: rest) m).at? (path ++ t :: rest') = n.at? (path ++ t :: rest') := by
  induction path generalizing n with
  | nil =>
    rw [List.nil_append, List.nil_append, graft_cons, at?_cons, at?_cons,
      child?_alter_of_ne (fun _ => rfl) hst]
  | cons step path ih =>
    rw [List.cons_append, List.cons_append, graft_cons, at?_cons, at?_cons,
      child?_alter_self fun _ => rfl]
    cases n.child? step with
    | none => rfl
    | some child => exact ih child

/-! ## Positions do not matter -/

theorem getElem?_bareAll (nodes : List Node) (i : Nat) :
    (bareAll nodes)[i]? = nodes[i]?.map bare := by
  rw [bareAll_eq_map, List.getElem?_map]

theorem child?_bare (n : Node) (step : Step) : n.bare.child? step = (n.child? step).map bare := by
  cases n with
  | conditional pos c body elseBody =>
    cases elseBody <;> cases step <;> first | rfl | exact getElem?_bareAll _ _
  | _ => cases step <;> first | rfl | exact getElem?_bareAll _ _

theorem at?_bare (n : Node) (path : Path) : n.bare.at? path = (n.at? path).map bare := by
  induction path generalizing n with
  | nil => rfl
  | cons step path ih =>
    rw [at?_cons, at?_cons, child?_bare]
    cases n.child? step with
    | none => rfl
    | some child => exact ih child

/-- Trees that are the same have the same nodes at the same places. -/
theorem exists_at?_of_same {a b n : Node} {path : Path} (h : a.same b = true)
    (hat : b.at? path = some n) : ∃ m, a.at? path = some m ∧ m.bare = n.bare := by
  have hbare : (a.at? path).map bare = some n.bare := by
    rw [← at?_bare, (same_iff_bare a b).1 h, at?_bare, hat]
    rfl
  exact Option.map_eq_some_iff.1 hbare

section Alter

variable {f g : Node → Option Node}

theorem bareAll_alterAt (h : ∀ n, (f n).map bare = g n.bare) (nodes : List Node) (i : Nat) :
    bareAll (alterAt f i nodes) = alterAt g i (bareAll nodes) := by
  induction nodes generalizing i with
  | nil => cases i <;> rfl
  | cons n ns ih =>
    cases i with
    | zero =>
      rw [bareAll_cons, alterAt, alterAt, ← h n, bareAll_append]
      cases f n <;> rfl
    | succ i => rw [bareAll_cons, alterAt, alterAt, bareAll_cons, ih]

theorem bare_alter (h : ∀ n, (f n).map bare = g n.bare) (n : Node) (step : Step) :
    (n.alter f step).bare = n.bare.alter g step := by
  have hget : ∀ n, ((f n).getD n).bare = (g n.bare).getD n.bare := by
    intro n
    rw [← h n]
    cases f n <;> rfl
  have hlist := bareAll_alterAt h
  cases n with
  | conditional pos c body elseBody =>
    cases elseBody <;> cases step <;> simp [alter, bare, bareElse, hget, hlist]
  | _ => cases step <;> simp [alter, bare, hget, hlist]

end Alter

theorem bare_graft (n m : Node) (path : Path) :
    (n.graft path m).bare = n.bare.graft path m.bare := by
  induction path generalizing n with
  | nil => rfl
  | cons step path ih =>
    have hchild : ∀ child : Node, (some (child.graft path m)).map bare =
        some (child.bare.graft path m.bare) := fun child => congrArg some (ih child)
    rw [graft_cons, graft_cons]
    exact bare_alter hchild n step

/-! ## Numbers -/

theorem allPrintable_alterAt {f : Node → Node} {nodes : List Node} {i : Nat} {n : Node}
    (hn : nodes[i]? = some n) (h : (f n).printable = n.printable) :
    allPrintable (alterAt (fun n => some (f n)) i nodes) = allPrintable nodes := by
  induction nodes generalizing i with
  | nil => cases hn
  | cons m ms ih =>
    cases i with
    | zero =>
      obtain rfl := Option.some.inj hn
      rw [alterAt, Option.toList_some, List.singleton_append, allPrintable, allPrintable, h]
    | succ i => rw [alterAt, allPrintable, allPrintable, ih hn]

theorem printable_alter {f : Node → Node} {n child : Node} {step : Step}
    (hchild : n.child? step = some child) (h : (f child).printable = child.printable) :
    (n.alter (fun child => some (f child)) step).printable = n.printable := by
  cases n with
  | operation =>
    cases step <;> cases hchild <;> simp only [alter, Option.getD_some, printable, h]
  | declaration | assignment =>
    cases step <;> cases hchild
    exact h
  | conditional pos c body elseBody =>
    cases step with
    | condition =>
      obtain rfl := Option.some.inj hchild
      cases elseBody <;> simp only [alter, Option.getD_some, printable, h]
    | body =>
      cases elseBody <;> simp only [alter, printable, allPrintable_alterAt hchild h]
    | elseBody =>
      cases elseBody with
      | none => cases hchild
      | some elseBody =>
        simp only [alter, printable, allPrintable_alterAt hchild h]
    | _ => cases hchild
  | rule =>
    cases step with
    | selector | body => simp only [alter, printable, allPrintable_alterAt hchild h]
    | _ => cases hchild
  | sheet =>
    cases step with
    | item => simp only [alter, printable, allPrintable_alterAt hchild h]
    | _ => cases hchild
  | selector | literal | reference => cases step <;> cases hchild

/-- With a node replaced by one that is printable if it was, the tree is printable if it was. -/
theorem printable_graft {n old new : Node} {path : Path} (hat : n.at? path = some old)
    (h : new.printable = old.printable) : (n.graft path new).printable = n.printable := by
  induction path generalizing n with
  | nil =>
    obtain rfl := Option.some.inj hat
    exact h
  | cons step path ih =>
    obtain ⟨child, hchild, hrest⟩ := Option.bind_eq_some_iff.1 hat
    rw [graft_cons]
    exact printable_alter hchild (ih hrest)

end Node

end StyleLang
