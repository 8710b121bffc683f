import StyleLang.Proofs.Syntax.Deletion
import StyleLang.Proofs.Syntax.Order

/-!
# Inserting statements

Statements are inserted in front of a statement of a block or at its end, at whatever depth. Main
statements: what has its turn before that point is found where it was, and what is around the point
is as before but for the inserted statements.
-/

namespace StyleLang

/-! ## What lies ahead of a point -/

/-- Of two edges from one node, the first leads to nodes that have their turn earlier. -/
def Step.aheadOf (t s : Step) : Bool :=
  decide (t.stage < s.stage ∨ t.stage = s.stage ∧ t.index < s.index)

/-- The node at the end of the path has its turn before all that may be put in front of the
statement at the point. -/
def Path.aheadOf : Path → Path → Bool
  | _, [] => false
  | [], s :: _ => decide (2 < s.stage)
  | t :: path, s :: point => if t = s then aheadOf path point else t.aheadOf s

theorem Step.BlockEdge.aheadOf {edge : Nat → Step} (h : BlockEdge edge) {j k : Nat} :
    (edge j).aheadOf (edge k) = true ↔ j < k := by
  rcases h with rfl | rfl | rfl <;> simp [Step.aheadOf, stage, index]

namespace Path

theorem earlier_cons_self {step : Step} {p q : Path} :
    Earlier (step :: p) (step :: q) ↔ Earlier p q := by
  constructor
  · intro h
    cases h with
    | apart h =>
      have h : step.stage < step.stage ∨ step.stage = step.stage ∧ step.index < step.index := h
      omega
    | inside _ h => exact h
  · exact .inside step

theorem earlier_cons_of_ne {t s : Step} (hts : t ≠ s) {p q : Path} :
    Earlier (t :: p) (s :: q) ↔ t.aheadOf s = true := by
  unfold Step.aheadOf
  rw [decide_eq_true_iff]
  constructor
  · intro h
    cases h with
    | apart h => exact h
    | inside => exact absurd rfl hts
  · exact fun h => .apart h

/-- What is ahead of a point comes earlier and is no part of the statement behind it. -/
theorem aheadOf_iff {path point : Path} :
    path.aheadOf point = true ↔ path.Earlier point ∧ ¬ point <+: path := by
  induction point generalizing path with
  | nil =>
    have hnil : aheadOf path [] = false := by cases path <;> rfl
    simp [hnil]
  | cons s point ih =>
    cases path with
    | nil =>
      have hstage : s.stage ≠ 2 := by cases s <;> simp [Step.stage]
      have hearlier : Earlier [] (s :: point) ↔ 2 < s.stage := by
        constructor
        · intro h
          cases h with
          | apart h =>
            have h : 2 < s.stage ∨ 2 = s.stage ∧ 0 < s.index := h
            omega
        · exact fun h => .apart (.inl h)
      rw [hearlier, aheadOf, decide_eq_true_iff]
      simp
    | cons t path =>
      rw [aheadOf]
      by_cases hts : t = s
      · subst hts
        rw [if_pos rfl, ih, earlier_cons_self]
        simp
      · rw [if_neg hts, earlier_cons_of_ne hts]
        have hne : ¬ (s :: point <+: t :: path) := fun h => hts (List.cons_prefix_cons.1 h).1.symm
        simp [hne]

end Path

/-! ## Insertion -/

namespace Node

/-- Puts statements in front of the one at the end of the edge. -/
def insertAt (new : List Node) : Step → Node → Node
  | .item k, sheet pos items => sheet pos (items.take k ++ new ++ items.drop k)
  | .body k, rule pos selectors body => rule pos selectors (body.take k ++ new ++ body.drop k)
  | .body k, conditional pos c body elseBody =>
    conditional pos c (body.take k ++ new ++ body.drop k) elseBody
  | .elseBody k, conditional pos c body (some elseBody) =>
    conditional pos c body (some (elseBody.take k ++ new ++ elseBody.drop k))
  | _, n => n

/-- Puts statements in front of the one at the point. -/
def insert (new : List Node) : Path → Node → Node
  | [], n => n
  | [s], n => n.insertAt new s
  | s :: path, n => n.alter (fun child => some (insert new path child)) s

/-- Puts statements in front of the one at the index, or in it if the point is there. -/
def insertIn (new : List Node) (path : Path) (k : Nat) (nodes : List Node) : List Node :=
  match path with
  | [] => nodes.take k ++ new ++ nodes.drop k
  | _ => alterAt (fun n => some (n.insert new path)) k nodes

/-- The point is in front of a statement of a block or at the end of a block. -/
inductive HasGap : Node → Path → Prop where
  | items {pos : Position} {items : List Node} {k : Nat} (h : k ≤ items.length) :
      HasGap (sheet pos items) [.item k]
  | rule {pos : Position} {selectors body : List Node} {k : Nat} (h : k ≤ body.length) :
      HasGap (rule pos selectors body) [.body k]
  | branch {pos : Position} {c : Node} {body : List Node} {elseBody : Option (List Node)} {k : Nat}
      (h : k ≤ body.length) : HasGap (conditional pos c body elseBody) [.body k]
  | elseBranch {pos : Position} {c : Node} {body elseBody : List Node} {k : Nat}
      (h : k ≤ elseBody.length) :
      HasGap (conditional pos c body (some elseBody)) [.elseBody k]
  | inside {n child : Node} {s : Step} {path : Path} (hchild : n.child? s = some child)
      (h : HasGap child path) : HasGap n (s :: path)

variable {new nodes : List Node} {n child : Node} {s t : Step} {path point : Path} {k : Nat}

theorem HasGap.ne_nil (h : n.HasGap point) : point ≠ [] := by
  cases h <;> exact List.cons_ne_nil _ _

theorem insert_cons (h : path ≠ []) (n : Node) :
    n.insert new (s :: path) = n.alter (fun child => some (child.insert new path)) s := by
  cases path with
  | nil => exact absurd rfl h
  | cons => rfl

/-! ## What is found where -/

theorem getElem?_splice (h : k ≤ nodes.length) {j : Nat} (hj : j < k) :
    (nodes.take k ++ new ++ nodes.drop k)[j]? = nodes[j]? := by
  have hlength : j < (nodes.take k).length := by
    rw [List.length_take]
    omega
  rw [List.append_assoc, List.getElem?_append_left hlength, List.getElem?_take_of_lt hj]

/-- Edges that lead ahead of a gap lead where they did. -/
theorem child?_insertAt (h : n.HasGap [s]) (ht : t.aheadOf s = true) :
    (n.insertAt new s).child? t = n.child? t := by
  cases h with
  | items hk =>
    have hlt {j : Nat} := @Step.BlockEdge.aheadOf .item (.inl rfl) j
    cases t <;> first | rfl | exact getElem?_splice hk (hlt.1 ht)
  | rule hk =>
    have hlt {j : Nat} := @Step.BlockEdge.aheadOf .body (.inr (.inl rfl)) j
    cases t <;> first | rfl | exact getElem?_splice hk (hlt.1 ht)
  | @branch _ _ _ elseBody _ hk =>
    have hlt {j : Nat} := @Step.BlockEdge.aheadOf .body (.inr (.inl rfl)) j
    cases elseBody <;> cases t <;> first | rfl | exact getElem?_splice hk (hlt.1 ht)
  | elseBranch hk =>
    have hlt {j : Nat} := @Step.BlockEdge.aheadOf .elseBody (.inr (.inr rfl)) j
    cases t <;> first | rfl | exact getElem?_splice hk (hlt.1 ht)
  | inside _ h => exact absurd rfl h.ne_nil

/-- What is ahead of the point and not around it stays where it was. -/
theorem at?_insert_ahead (h : n.HasGap point) (hahead : path.aheadOf point = true)
    (haround : ¬ path <+: point) : (n.insert new point).at? path = n.at? path := by
  induction point generalizing n path with
  | nil => exact absurd rfl h.ne_nil
  | cons s point ih =>
    cases path with
    | nil => exact absurd List.nil_prefix haround
    | cons t path =>
      rw [Path.aheadOf] at hahead
      cases point with
      | nil =>
        have hts : t ≠ s := by
          rintro rfl
          rw [if_pos rfl] at hahead
          cases path <;> cases hahead
        rw [if_neg hts] at hahead
        rw [at?_cons, at?_cons, insert, child?_insertAt h hahead]
      | cons s' point =>
        have hf : ∀ child : Node, (some (child.insert new (s' :: point))).isSome := fun _ => rfl
        rw [insert_cons (List.cons_ne_nil _ _), at?_cons, at?_cons]
        by_cases hts : t = s
        · subst hts
          rw [if_pos rfl] at hahead
          rw [child?_alter_self hf]
          cases h with
          | inside hchild h =>
            rw [hchild]
            exact ih h hahead fun hp => haround (List.cons_prefix_cons.2 ⟨rfl, hp⟩)
        · rw [child?_alter_of_ne hf hts]

/-- What is around the point is what it was with the statements inserted. -/
theorem at?_insert_around {rest : Path} (hrest : rest ≠ []) (n : Node) :
    (n.insert new (path ++ rest)).at? path = (n.at? path).map (insert new rest) := by
  induction path generalizing n with
  | nil => rfl
  | cons s path ih =>
    have hf : ∀ child : Node, (some (child.insert new (path ++ rest))).isSome := fun _ => rfl
    rw [List.cons_append, insert_cons (by simp [hrest]), at?_cons, at?_cons, child?_alter_self hf]
    cases n.child? s with
    | none => rfl
    | some child => exact ih child

/-! ## Insertion in a list -/

/-- The point is in front of a statement of the block, at its end, or in one of the statements. -/
def GapIn (nodes : List Node) (path : Path) (k : Nat) : Prop :=
  (path = [] ∧ k ≤ nodes.length) ∨ ∃ n, nodes[k]? = some n ∧ n.HasGap path

theorem insertIn_eq (hk : k < nodes.length) (hpath : path ≠ []) :
    insertIn new path k nodes =
      nodes.take k ++ nodes[k].insert new path :: nodes.drop (k + 1) := by
  have halter : insertIn new path k nodes =
      alterAt (fun n => some (n.insert new path)) k nodes := by
    cases path with
    | nil => exact absurd rfl hpath
    | cons => rfl
  rw [halter]
  clear halter
  induction nodes generalizing k with
  | nil => cases hk
  | cons m nodes ih =>
    cases k with
    | zero => rfl
    | succ k => exact congrArg (m :: ·) (ih (Nat.lt_of_succ_lt_succ hk))

/-- What becomes of a statement in which statements are inserted. -/
inductive Inserted (new : List Node) : Node → Path → Node → Prop where
  | selector {pos : Position} {selectors selectors' body : List Node} {i : Nat} {path : Path}
      (h : selectors'.take i = selectors.take i) :
      Inserted new (rule pos selectors body) (.selector i :: path) (rule pos selectors' body)
  | body {pos : Position} {selectors body : List Node} {k : Nat} {path : Path}
      (h : GapIn body path k) : Inserted new (rule pos selectors body) (.body k :: path)
        (rule pos selectors (insertIn new path k body))
  | branch {pos : Position} {c : Node} {body : List Node} {elseBody : Option (List Node)} {k : Nat}
      {path : Path} (h : GapIn body path k) :
      Inserted new (conditional pos c body elseBody) (.body k :: path)
        (conditional pos c (insertIn new path k body) elseBody)
  | elseBranch {pos : Position} {c : Node} {body elseBody : List Node} {k : Nat} {path : Path}
      (h : GapIn elseBody path k) :
      Inserted new (conditional pos c body (some elseBody)) (.elseBody k :: path)
        (conditional pos c body (some (insertIn new path k elseBody)))

theorem take_alterAt (f : Node → Option Node) (i : Nat) (nodes : List Node) :
    (alterAt f i nodes).take i = nodes.take i := by
  induction nodes generalizing i with
  | nil => cases i <;> rfl
  | cons n ns ih =>
    cases i with
    | zero => simp
    | succ i => exact congrArg (n :: ·) (ih i)

end Node

/-- The tree with statements put in front of the one at the point. -/
def Stylesheet.insert (sheet : Stylesheet) (new : List Node) : Path → Stylesheet
  | .item k :: path => { sheet with items := Node.insertIn new path k sheet.items }
  | _ => sheet

theorem Stylesheet.toNode_insert (sheet : Stylesheet) (new : List Node) (k : Nat) (path : Path) :
    (sheet.insert new (.item k :: path)).toNode = sheet.toNode.insert new (.item k :: path) := by
  cases path <;> rfl

end StyleLang
