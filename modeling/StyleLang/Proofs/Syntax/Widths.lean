import StyleLang.Proofs.Syntax.Order
import StyleLang.Proofs.Syntax.Place

/-!
# Widths

How many tokens a node is read from, marks and keywords included, and how many of them come
before those of the node at the end of an edge or of a path. Main statement: the tokens of a node
end before those of the nodes that stand after it in the same node.
-/

namespace StyleLang

namespace Node

mutual

/-- How many tokens a node is read from. -/
def width : Node → Nat
  | selector _ _ _ => 1
  | literal _ _ => 1
  | reference _ _ => 1
  | operation _ _ lhs rhs => lhs.width + 1 + rhs.width
  | declaration _ _ expression => 2 + expression.width + 1
  | assignment _ _ expression => 2 + expression.width + 1
  | conditional _ condition body none => 3 + condition.width + (2 + widthAll body)
  | conditional _ condition body (some elseBody) =>
    3 + condition.width + (2 + widthAll body) + 1 + (2 + widthAll elseBody)
  | rule _ selectors body => widthAll selectors + (selectors.length - 1) + (2 + widthAll body)
  | sheet _ items => widthAll items

def widthAll : List Node → Nat
  | [] => 0
  | n :: ns => n.width + widthAll ns

end

@[simp] theorem widthAll_nil : widthAll [] = 0 := rfl

@[simp] theorem widthAll_cons (n : Node) (ns : List Node) :
    widthAll (n :: ns) = n.width + widthAll ns := rfl

@[simp] theorem widthAll_append (ns ms : List Node) :
    widthAll (ns ++ ms) = widthAll ns + widthAll ms := by
  induction ns with
  | nil => simp
  | cons n ns ih =>
    rw [List.cons_append, widthAll_cons, widthAll_cons, ih]
    omega

/-- The nodes before an index, and the one at it, are among the nodes before a greater index. -/
theorem widthAll_take_add_le {ns : List Node} {i j : Nat} {n : Node} (hn : ns[i]? = some n)
    (hij : i < j) : widthAll (ns.take i) + n.width ≤ widthAll (ns.take j) := by
  obtain ⟨k, rfl⟩ := Nat.exists_eq_add_of_lt hij
  have hsplit : ns.take (i + k + 1) = ns.take i ++ n :: (ns.drop (i + 1)).take k := by
    rw [Nat.add_assoc, Nat.add_comm k, ← Nat.add_assoc, List.take_add, List.take_add_one, hn]
    simp
  rw [hsplit, widthAll_append, widthAll_cons]
  omega

theorem widthAll_take_le (ns : List Node) (i : Nat) : widthAll (ns.take i) ≤ widthAll ns := by
  conv => rhs; rw [← List.take_append_drop i ns, widthAll_append]
  exact Nat.le_add_right _ _

theorem widthAll_take_add_width_le {ns : List Node} {i : Nat} {n : Node} (hn : ns[i]? = some n) :
    widthAll (ns.take i) + n.width ≤ widthAll ns :=
  Nat.le_trans (widthAll_take_add_le hn (Nat.lt_succ_self i)) (widthAll_take_le ns (i + 1))

/-- How many tokens of the node come before those of the node at the end of the edge. -/
def lead : Node → Step → Nat
  | sheet _ items, .item i => widthAll (items.take i)
  | rule _ selectors _, .selector i => widthAll (selectors.take i) + i
  | rule _ selectors body, .body i =>
    widthAll selectors + selectors.length + widthAll (body.take i)
  | conditional _ _ _ _, .condition => 2
  | conditional _ condition body _, .body i => 4 + condition.width + widthAll (body.take i)
  | conditional _ condition body (some elseBody), .elseBody i =>
    7 + condition.width + widthAll body + widthAll (elseBody.take i)
  | declaration _ _ _, .expression => 2
  | assignment _ _ _, .expression => 2
  | operation _ _ lhs _, .rhs => lhs.width + 1
  | _, _ => 0

/-- How many tokens of the node come before those of the node at the end of the path. -/
def leadTo (node : Node) : Path → Nat
  | [] => 0
  | step :: path => node.lead step + ((node.child? step).map fun child => child.leadTo path).getD 0

end Node

/-! ## Siblings -/

/-- The parts of a node in the order in which they stand in a text. -/
def Step.part : Step → Nat
  | item _ | selector _ | condition | expression | lhs => 0
  | rhs | body _ => 1
  | elseBody _ => 2

/-- Of two nodes in the same node, the one at the end of the first edge stands before the one at the
end of the second. -/
def Step.Ahead (a b : Step) : Prop := a.part < b.part ∨ a.part = b.part ∧ a.index < b.index

namespace Node

/-- The tokens of a node end before those of the nodes that stand after it in the same node. -/
theorem lead_add_width_le {n m m' : Node} {a b : Step} (hm : n.child? a = some m)
    (hm' : n.child? b = some m') (hab : a.Ahead b) : n.lead a + m.width ≤ n.lead b := by
  have htake : ∀ {ns : List Node} {i j : Nat}, ns[i]? = some m → i < j →
      widthAll (ns.take i) + m.width ≤ widthAll (ns.take j) := widthAll_take_add_le
  have hall : ∀ {ns : List Node} {i : Nat}, ns[i]? = some m →
      widthAll (ns.take i) + m.width ≤ widthAll ns ∧ i < ns.length := fun hi =>
    ⟨widthAll_take_add_width_le hi, (List.getElem?_eq_some_iff.1 hi).1⟩
  unfold Step.Ahead at hab
  cases n with
  | selector | literal | reference => cases hm
  | conditional pos c body elseBody =>
    cases elseBody <;> cases a <;> first
      | exact absurd hm.symm (Option.some_ne_none m)
      | cases b <;> first
        | exact absurd hm'.symm (Option.some_ne_none m')
        | grind [child?, lead, Step.part, Step.index]
  | _ =>
    cases a <;> first
      | exact absurd hm.symm (Option.some_ne_none m)
      | cases b <;> first
        | exact absurd hm'.symm (Option.some_ne_none m')
        | grind [child?, lead, Step.part, Step.index]

end Node

end StyleLang
