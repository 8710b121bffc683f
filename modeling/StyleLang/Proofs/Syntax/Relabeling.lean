import StyleLang.Finding
import StyleLang.Proofs.Syntax.Bare
import StyleLang.Proofs.Syntax.Place

/-!
# Relabeling

A relabeling moves every node of a tree to another position and gives every variable another name,
also in the findings about the tree. Main statements: the nodes stand at the places where they
stood, and a tree that names no variable is only moved.
-/

namespace StyleLang

/-- New positions for nodes and new names for variables. -/
structure Relabeling where
  position : Position → Position := id
  name : String → String := id

namespace Relabeling

/-- What has no position stays without one, and different variables stay different. -/
structure Faithful (L : Relabeling) : Prop where
  unplaced : L.position {} = {}
  injective : Function.Injective L.name

/-- The problem as it is told of the relabeled tree. -/
def problem (L : Relabeling) : Problem → Problem
  | .unknownVariable name => .unknownVariable (L.name name)
  | .untypedAssignment name => .untypedAssignment (L.name name)
  | problem => problem

def finding (L : Relabeling) (f : Finding) : Finding :=
  { f with problem := L.problem f.problem, pos := L.position f.pos }

theorem finding_under (L : Relabeling) (step : Step) (f : Finding) :
    L.finding (f.under step) = (L.finding f).under step := rfl

/-- Takes the positions away and leaves the names. -/
def unplace : Relabeling := { position := fun _ => {} }

theorem unplace_faithful : unplace.Faithful := ⟨rfl, fun _ _ h => h⟩

end Relabeling

namespace Node

/-- A reference to a variable, or an assignment of one. -/
def NamesVariable : Node → Prop
  | reference _ _ => True
  | assignment _ _ _ => True
  | _ => False

mutual

def relabel (L : Relabeling) : Node → Node
  | selector pos kind name => selector (L.position pos) kind name
  | literal pos value => literal (L.position pos) value
  | reference pos name => reference (L.position pos) (L.name name)
  | operation pos op lhs rhs => operation (L.position pos) op (relabel L lhs) (relabel L rhs)
  | declaration pos property expression =>
    declaration (L.position pos) property (relabel L expression)
  | assignment pos name expression =>
    assignment (L.position pos) (L.name name) (relabel L expression)
  | conditional pos condition body elseBody =>
    conditional (L.position pos) (relabel L condition) (relabelAll L body) (relabelElse L elseBody)
  | rule pos selectors body =>
    rule (L.position pos) (relabelAll L selectors) (relabelAll L body)
  | sheet pos items => sheet (L.position pos) (relabelAll L items)

/-- `relabel`, member by member. -/
def relabelAll (L : Relabeling) : List Node → List Node
  | [] => []
  | node :: nodes => relabel L node :: relabelAll L nodes

/-- `relabel` for a branch that may be missing. -/
def relabelElse (L : Relabeling) : Option (List Node) → Option (List Node)
  | none => none
  | some nodes => some (relabelAll L nodes)

end

variable {L : Relabeling}

theorem relabelAll_eq_map (nodes : List Node) : relabelAll L nodes = nodes.map (relabel L) := by
  induction nodes with
  | nil => rfl
  | cons node nodes ih => rw [relabelAll, ih, List.map_cons]

theorem relabelAll_append (nodes nodes' : List Node) :
    relabelAll L (nodes ++ nodes') = relabelAll L nodes ++ relabelAll L nodes' := by
  simp only [relabelAll_eq_map, List.map_append]

theorem getElem?_relabelAll (nodes : List Node) (i : Nat) :
    (relabelAll L nodes)[i]? = nodes[i]?.map (relabel L) := by
  rw [relabelAll_eq_map, List.getElem?_map]

theorem child?_relabel (n : Node) (step : Step) :
    (n.relabel L).child? step = (n.child? step).map (relabel L) := by
  cases n with
  | conditional pos c body elseBody =>
    cases elseBody <;> cases step <;> first | rfl | exact getElem?_relabelAll _ _
  | _ => cases step <;> first | rfl | exact getElem?_relabelAll _ _

theorem at?_relabel (n : Node) (path : Path) :
    (n.relabel L).at? path = (n.at? path).map (relabel L) := by
  induction path generalizing n with
  | nil => rfl
  | cons step path ih =>
    rw [at?_cons, at?_cons, child?_relabel]
    cases n.child? step with
    | none => rfl
    | some child => exact ih child

/-! ## Numbers

Neither positions nor names are among the numbers of a tree that can be too long to be written. -/

mutual

theorem printable_relabel : ∀ n : Node, (n.relabel L).printable = n.printable
  | selector _ _ _ | literal _ _ | reference _ _ => rfl
  | operation _ _ lhs rhs => by
    rw [relabel, printable, printable, printable_relabel lhs, printable_relabel rhs]
  | declaration _ _ e | assignment _ _ e => by
    rw [relabel, printable, printable, printable_relabel e]
  | conditional _ c body none => by
    rw [relabel, relabelElse, printable, printable, printable_relabel c,
      allPrintable_relabelAll body]
  | conditional _ c body (some elseBody) => by
    rw [relabel, relabelElse, printable, printable, printable_relabel c,
      allPrintable_relabelAll body, allPrintable_relabelAll elseBody]
  | rule _ selectors body => by
    rw [relabel, printable, printable, allPrintable_relabelAll selectors,
      allPrintable_relabelAll body]
  | sheet _ items => by rw [relabel, printable, printable, allPrintable_relabelAll items]

theorem allPrintable_relabelAll : ∀ nodes : List Node,
    allPrintable (relabelAll L nodes) = allPrintable nodes
  | [] => rfl
  | n :: ns => by
    rw [relabelAll, allPrintable, allPrintable, printable_relabel n, allPrintable_relabelAll ns]

end

/-! ## Trees without positions -/

mutual

theorem relabel_unplace : ∀ n : Node, n.relabel .unplace = n.bare
  | selector _ _ _ | literal _ _ | reference _ _ => rfl
  | operation _ _ lhs rhs => by
    rw [relabel, bare, relabel_unplace lhs, relabel_unplace rhs]
    rfl
  | declaration _ _ e | assignment _ _ e => by
    rw [relabel, bare, relabel_unplace e]
    rfl
  | conditional _ c body none => by
    rw [relabel, bare, relabel_unplace c, relabelAll_unplace body]
    rfl
  | conditional _ c body (some elseBody) => by
    rw [relabel, bare, relabel_unplace c, relabelAll_unplace body, relabelElse, bareElse,
      relabelAll_unplace elseBody]
    rfl
  | rule _ selectors body => by
    rw [relabel, bare, relabelAll_unplace selectors, relabelAll_unplace body]
    rfl
  | sheet _ items => by
    rw [relabel, bare, relabelAll_unplace items]
    rfl

theorem relabelAll_unplace : ∀ nodes : List Node, relabelAll .unplace nodes = bareAll nodes
  | [] => rfl
  | n :: ns => by rw [relabelAll, bareAll, relabel_unplace n, relabelAll_unplace ns]

end

theorem printable_bare (n : Node) : n.bare.printable = n.printable := by
  rw [← relabel_unplace, printable_relabel]

/-! ## Trees that name no variable -/

/-- No node of the tree names a variable. -/
def Nameless (n : Node) : Prop := ∀ path m, n.at? path = some m → ¬ m.NamesVariable

theorem Nameless.child {n child : Node} (h : n.Nameless) (step : Step)
    (hchild : n.child? step = some child) : child.Nameless := by
  intro path m hm
  refine h (step :: path) m ?_
  rw [at?_cons, hchild]
  exact hm

mutual

theorem relabel_eq_self (hpos : L.position = id) : ∀ n : Node, n.Nameless → n.relabel L = n
  | selector _ _ _, _ | literal _ _, _ => by
    rw [relabel, hpos]
    rfl
  | reference _ _, h | assignment _ _ _, h => absurd trivial (h [] _ rfl)
  | operation _ _ lhs rhs, h => by
    rw [relabel, hpos, relabel_eq_self hpos lhs (h.child .lhs rfl),
      relabel_eq_self hpos rhs (h.child .rhs rfl)]
    rfl
  | declaration _ _ e, h => by
    rw [relabel, hpos, relabel_eq_self hpos e (h.child .expression rfl)]
    rfl
  | conditional _ c body none, h => by
    rw [relabel, hpos, relabel_eq_self hpos c (h.child .condition rfl),
      relabelAll_eq_self hpos body fun i n hn => h.child (.body i) hn]
    rfl
  | conditional _ c body (some elseBody), h => by
    rw [relabel, hpos, relabel_eq_self hpos c (h.child .condition rfl),
      relabelAll_eq_self hpos body fun i n hn => h.child (.body i) hn, relabelElse,
      relabelAll_eq_self hpos elseBody fun i n hn => h.child (.elseBody i) hn]
    rfl
  | rule _ selectors body, h => by
    rw [relabel, hpos,
      relabelAll_eq_self hpos selectors fun i n hn => h.child (.selector i) hn,
      relabelAll_eq_self hpos body fun i n hn => h.child (.body i) hn]
    rfl
  | sheet _ items, h => by
    rw [relabel, hpos, relabelAll_eq_self hpos items fun i n hn => h.child (.item i) hn]
    rfl

theorem relabelAll_eq_self (hpos : L.position = id) : ∀ nodes : List Node,
    (∀ (i : Nat) (n : Node), nodes[i]? = some n → n.Nameless) → relabelAll L nodes = nodes
  | [], _ => rfl
  | node :: nodes, h => by
    rw [relabelAll, relabel_eq_self hpos node (h 0 node rfl),
      relabelAll_eq_self hpos nodes fun i n hn => h (i + 1) n hn]

end

end Node

namespace Stylesheet

def relabel (L : Relabeling) (sheet : Stylesheet) : Stylesheet :=
  ⟨L.position sheet.pos, Node.relabelAll L sheet.items⟩

theorem toNode_relabel (L : Relabeling) (sheet : Stylesheet) :
    (sheet.relabel L).toNode = sheet.toNode.relabel L := by
  rw [toNode, toNode, Node.relabel]
  rfl

end Stylesheet

end StyleLang
