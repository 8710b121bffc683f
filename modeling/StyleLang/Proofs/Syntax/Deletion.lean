import StyleLang.Finding
import StyleLang.Proofs.Syntax.Place

/-!
# Deleting a node

A node is deleted from the list that it stands in, at whatever depth. What comes after it in that
list moves up by one, and every other node keeps its place. Main statement: a node that is neither
deleted nor above the deleted one is found at its new place as it was.
-/

namespace StyleLang

/-! ## Trees -/

namespace Node

/-- Puts what `f` gives for the node at the index into its place, or nothing. -/
def alterAt (f : Node → Option Node) : Nat → List Node → List Node
  | _, [] => []
  | 0, n :: ns => (f n).toList ++ ns
  | i + 1, n :: ns => n :: alterAt f i ns

/-- Puts what `f` gives for the node at the end of an edge into its place. Only from a list a node
can be missing. -/
def alter (f : Node → Option Node) : Node → Step → Node
  | sheet pos items, .item i => sheet pos (alterAt f i items)
  | rule pos selectors body, .selector i => rule pos (alterAt f i selectors) body
  | rule pos selectors body, .body i => rule pos selectors (alterAt f i body)
  | conditional pos condition body elseBody, .condition =>
    conditional pos ((f condition).getD condition) body elseBody
  | conditional pos condition body elseBody, .body i =>
    conditional pos condition (alterAt f i body) elseBody
  | conditional pos condition body (some elseBody), .elseBody i =>
    conditional pos condition body (some (alterAt f i elseBody))
  | declaration pos property expression, .expression =>
    declaration pos property ((f expression).getD expression)
  | assignment pos name expression, .expression =>
    assignment pos name ((f expression).getD expression)
  | operation pos op lhs rhs, .lhs => operation pos op ((f lhs).getD lhs) rhs
  | operation pos op lhs rhs, .rhs => operation pos op lhs ((f rhs).getD rhs)
  | n, _ => n

/-- What is left of a node when the one at the end of the path is deleted. -/
def erase : Path → Node → Option Node
  | [], _ => none
  | step :: path, n => some (n.alter (erase path) step)

end Node

/-- The tree without the node at the end of the path. -/
def Stylesheet.erase (sheet : Stylesheet) : Path → Stylesheet
  | .item i :: path => { sheet with items := Node.alterAt (Node.erase path) i sheet.items }
  | _ => sheet

/-! ## Paths -/

/-- What becomes of the nodes at the end of an edge. -/
inductive Turn where
  /-- They are deleted. -/
  | gone
  /-- Of them the one at the end of the path is deleted. -/
  | into (path : Path)
  /-- They stay, at the end of the given edge. -/
  | beside (step : Step)

/-- The edge to the same node once the node at the end of the first edge is deleted. -/
def Step.skipping : Step → Step → Step
  | .item i, .item j => .item (if i < j then j - 1 else j)
  | .selector i, .selector j => .selector (if i < j then j - 1 else j)
  | .body i, .body j => .body (if i < j then j - 1 else j)
  | .elseBody i, .elseBody j => .elseBody (if i < j then j - 1 else j)
  | _, step => step

namespace Path

/-- What becomes of the nodes at the end of the edge when the one at the end of the path is
deleted. -/
def turn : Path → Step → Turn
  | [], t => .beside t
  | [s], t => if t = s then .gone else .beside (s.skipping t)
  | s :: path, t => if t = s then .into path else .beside t

/-- The new path to the node at the end of the second path when the one at the end of the first path
is deleted, unless it is deleted too. -/
def without : Path → Path → Option Path
  | _, [] => some []
  | target, t :: path =>
    match turn target t with
    | .gone => none
    | .into rest => (without rest path).map (t :: ·)
    | .beside t' => some (t' :: path)

end Path

/-- The finding in the tree without the node at the end of the path, unless it is about a deleted
node. -/
def Finding.without (target : Path) (f : Finding) : Option Finding :=
  (target.without f.path).map fun path => { f with path }

/-! ## What stays -/

namespace Node

theorem getElem?_alterAt_self {f : Node → Option Node} {nodes : List Node} {i : Nat}
    (hf : ∀ n, (f n).isSome) : (alterAt f i nodes)[i]? = nodes[i]?.bind f := by
  induction nodes generalizing i with
  | nil => cases i <;> rfl
  | cons n ns ih =>
    cases i with
    | zero =>
      obtain ⟨m, hm⟩ := Option.isSome_iff_exists.1 (hf n)
      simp [alterAt, hm]
    | succ i => simpa [alterAt] using ih

theorem getElem?_alterAt_of_ne {f : Node → Option Node} {nodes : List Node} {i j : Nat}
    (hf : ∀ n, (f n).isSome) (hij : j ≠ i) : (alterAt f i nodes)[j]? = nodes[j]? := by
  induction nodes generalizing i j with
  | nil => cases i <;> rfl
  | cons n ns ih =>
    cases i with
    | zero =>
      obtain ⟨m, hm⟩ := Option.isSome_iff_exists.1 (hf n)
      cases j with
      | zero => exact absurd rfl hij
      | succ j => simp [alterAt, hm]
    | succ i =>
      cases j with
      | zero => rfl
      | succ j => simpa [alterAt] using ih fun h => hij (congrArg (· + 1) h)

theorem getElem?_alterAt_none {nodes : List Node} {i j : Nat} (hij : j ≠ i) :
    (alterAt (fun _ => none) i nodes)[if i < j then j - 1 else j]? = nodes[j]? := by
  induction nodes generalizing i j with
  | nil => cases i <;> simp [alterAt]
  | cons n ns ih =>
    cases i with
    | zero =>
      cases j with
      | zero => exact absurd rfl hij
      | succ j => simp [alterAt]
    | succ i =>
      cases j with
      | zero => rfl
      | succ j =>
        have hne : j ≠ i := fun h => hij (congrArg (· + 1) h)
        have h := ih hne
        rcases Nat.lt_or_gt_of_ne hne with hlt | hgt
        · rw [if_neg (by omega)] at h ⊢
          exact h
        · obtain ⟨k, rfl⟩ := Nat.exists_eq_succ_of_ne_zero (Nat.ne_zero_of_lt hgt)
          rw [if_pos (by omega)] at h ⊢
          exact h

section Child

variable {f : Node → Option Node} {s t : Step}

theorem child?_alter_self (hf : ∀ n, (f n).isSome) (n : Node) :
    (n.alter f s).child? s = (n.child? s).bind f := by
  have hget : ∀ n, some ((f n).getD n) = f n := by
    intro n
    obtain ⟨m, hm⟩ := Option.isSome_iff_exists.1 (hf n)
    rw [hm]
    rfl
  cases n with
  | conditional pos c body elseBody =>
    cases elseBody <;> cases s <;> first | rfl | exact hget _ | exact getElem?_alterAt_self hf
  | _ => cases s <;> first | rfl | exact hget _ | exact getElem?_alterAt_self hf

theorem child?_alter_of_ne (hf : ∀ n, (f n).isSome) (hst : t ≠ s) (n : Node) :
    (n.alter f s).child? t = n.child? t := by
  have hlist : ∀ {nodes : List Node} {i j : Nat}, ∀ edge : Nat → Step, edge j ≠ edge i →
      (alterAt f i nodes)[j]? = nodes[j]? := fun edge hne =>
    getElem?_alterAt_of_ne hf fun hij => hne (congrArg edge hij)
  cases n with
  | conditional pos c body elseBody =>
    cases elseBody <;> cases s <;> first | rfl | skip
    all_goals cases t <;> first | rfl | exact absurd rfl hst | exact hlist _ hst
  | _ =>
    cases s <;> first | rfl | skip
    all_goals cases t <;> first | rfl | exact absurd rfl hst | exact hlist _ hst

theorem child?_alter_none (hst : t ≠ s) (n : Node) :
    (n.alter (fun _ => none) s).child? (s.skipping t) = n.child? t := by
  have hlist : ∀ {nodes : List Node} {i j : Nat}, ∀ edge : Nat → Step, edge j ≠ edge i →
      (alterAt (fun _ => none) i nodes)[if i < j then j - 1 else j]? = nodes[j]? :=
    fun edge hne => getElem?_alterAt_none fun hij => hne (congrArg edge hij)
  cases n with
  | conditional pos c body elseBody =>
    cases elseBody <;> cases s <;>
      cases t <;> first | rfl | exact absurd rfl hst | exact hlist _ hst
  | _ =>
    cases s <;> cases t <;> first | rfl | exact absurd rfl hst | exact hlist _ hst

end Child

end Node

/-! ## Turns -/

namespace Path

theorem turn_self (s : Step) : turn [s] s = .gone := if_pos rfl

theorem turn_into {s : Step} {path : Path} (h : path ≠ []) : turn (s :: path) s = .into path := by
  cases path with
  | nil => exact absurd rfl h
  | cons => exact if_pos rfl

theorem turn_singleton_of_ne {s t : Step} (h : t ≠ s) : turn [s] t = .beside (s.skipping t) :=
  if_neg h

theorem turn_cons_cons_of_ne {s r t : Step} {path : Path} (h : t ≠ s) :
    turn (s :: r :: path) t = .beside t := if_neg h

/-- A deletion at the end of one edge leaves nodes at the ends of edges of another kind where they
are. -/
theorem turn_other {s t : Step} (hne : t ≠ s) (h : s.skipping t = t) (path : Path) :
    turn (s :: path) t = .beside t := by
  cases path with
  | nil => rw [turn_singleton_of_ne hne, h]
  | cons => exact turn_cons_cons_of_ne hne

theorem eq_of_turn_into {target rest : Path} {t : Step} (h : target.turn t = .into rest) :
    target = t :: rest := by
  unfold turn at h
  split at h
  · cases h
  · split at h <;> cases h
  · split at h
    · next heq =>
      obtain rfl := Turn.into.inj h
      rw [heq]
    · cases h

theorem head?_ne_of_turn_beside {target : Path} {t t' : Step} (h : target.turn t = .beside t') :
    target.head? ≠ some t := by
  unfold turn at h
  split at h
  · simp
  · split at h
    · cases h
    · next hne => simpa using fun heq => hne heq.symm
  · split at h
    · cases h
    · next hne => simpa using fun heq => hne heq.symm

theorem without_cons (target : Path) (t : Step) (path : Path) :
    target.without (t :: path) = match target.turn t with
      | .gone => none
      | .into rest => (rest.without path).map (t :: ·)
      | .beside t' => some (t' :: path) := rfl

theorem without_cons_gone {target : Path} {t : Step} (h : target.turn t = .gone) (path : Path) :
    target.without (t :: path) = none := by
  rw [without_cons, h]

theorem without_cons_into {target rest : Path} {t : Step} (h : target.turn t = .into rest)
    (path : Path) : target.without (t :: path) = (rest.without path).map (t :: ·) := by
  rw [without_cons, h]

theorem without_cons_beside {target : Path} {t t' : Step} (h : target.turn t = .beside t')
    (path : Path) : target.without (t :: path) = some (t' :: path) := by
  rw [without_cons, h]

end Path

/-- A node that is neither deleted nor above the deleted one stays as it is. -/
theorem Node.at?_erase {target path path' : Path} {n n' : Node} (h : n.erase target = some n')
    (hpath : target.without path = some path') (habove : ¬ path <+: target) :
    n'.at? path' = n.at? path := by
  induction target generalizing n n' path path' with
  | nil => cases h
  | cons s rest ih =>
    obtain rfl := Option.some.inj h
    cases path with
    | nil => exact absurd List.nil_prefix habove
    | cons t path =>
      by_cases hst : t = s
      · subst hst
        cases rest with
        | nil =>
          rw [Path.without_cons_gone (Path.turn_self t)] at hpath
          cases hpath
        | cons r rest =>
          rw [Path.without_cons_into (Path.turn_into (List.cons_ne_nil r rest))] at hpath
          obtain ⟨path'', hrest, rfl⟩ := Option.map_eq_some_iff.1 hpath
          rw [at?_cons, at?_cons, child?_alter_self fun _ => rfl]
          cases n.child? t with
          | none => rfl
          | some child => exact ih rfl hrest fun hp => habove (List.cons_prefix_cons.2 ⟨rfl, hp⟩)
      · cases rest with
        | nil =>
          rw [Path.without_cons_beside (Path.turn_singleton_of_ne hst)] at hpath
          obtain rfl := Option.some.inj hpath
          rw [at?_cons, at?_cons]
          exact congrArg (Option.bind · _) (child?_alter_none hst n)
        | cons r rest =>
          rw [Path.without_cons_beside (Path.turn_cons_cons_of_ne hst)] at hpath
          obtain rfl := Option.some.inj hpath
          rw [at?_cons, at?_cons, child?_alter_of_ne (fun _ => rfl) hst]

namespace Finding

theorem without_under_gone {target : Path} {step : Step} (h : target.turn step = .gone)
    (f : Finding) : (f.under step).without target = none := by
  rw [without, under_path, Path.without_cons_gone h]
  rfl

theorem without_under_into {target rest : Path} {step : Step} (h : target.turn step = .into rest)
    (f : Finding) : (f.under step).without target = (f.without rest).map (under step) := by
  rw [without, without, under_path, Path.without_cons_into h]
  cases rest.without f.path <;> rfl

theorem without_under_beside {target : Path} {step step' : Step}
    (h : target.turn step = .beside step') (f : Finding) :
    (f.under step).without target = some (f.under step') := by
  rw [without, under_path, Path.without_cons_beside h]
  rfl

end Finding

namespace Step

/-- The edges from a block to its statements. -/
def BlockEdge (edge : Nat → Step) : Prop := edge = item ∨ edge = body ∨ edge = elseBody

theorem BlockEdge.skipping {edge : Nat → Step} (h : BlockEdge edge) (i j : Nat) :
    (edge i).skipping (edge j) = edge (if i < j then j - 1 else j) := by
  rcases h with rfl | rfl | rfl <;> rfl

theorem BlockEdge.ne {edge : Nat → Step} (h : BlockEdge edge) {i j : Nat} (hij : i ≠ j) :
    edge i ≠ edge j := by
  rcases h with rfl | rfl | rfl <;> simpa using hij

/-- Statements before the deleted one stay. -/
theorem BlockEdge.turn_lt {edge : Nat → Step} (h : BlockEdge edge) {i j : Nat} (hij : j < i)
    (path : Path) : Path.turn (edge i :: path) (edge j) = .beside (edge j) := by
  have hne := h.ne (Nat.ne_of_lt hij)
  cases path with
  | nil =>
    have hskip := h.skipping i j
    rw [if_neg (by omega)] at hskip
    rw [Path.turn_singleton_of_ne hne, hskip]
  | cons => exact Path.turn_cons_cons_of_ne hne

/-- Statements after the deleted one move up. -/
theorem BlockEdge.turn_gt {edge : Nat → Step} (h : BlockEdge edge) {i j : Nat} (hij : i ≤ j) :
    Path.turn [edge i] (edge (j + 1)) = .beside (edge j) := by
  have hskip := h.skipping i (j + 1)
  rw [if_pos (by omega)] at hskip
  rw [Path.turn_singleton_of_ne (h.ne (by omega)), hskip]
  rfl

/-- A deletion inside a statement leaves the others where they are. -/
theorem BlockEdge.turn_ne {edge : Nat → Step} (h : BlockEdge edge) {i j : Nat} (hij : j ≠ i)
    {path : Path} (hpath : path ≠ []) : Path.turn (edge i :: path) (edge j) = .beside (edge j) := by
  cases path with
  | nil => exact absurd rfl hpath
  | cons => exact Path.turn_cons_cons_of_ne (h.ne hij)

end Step

end StyleLang
