import StyleLang.Proofs.Grammar.Gaps
import StyleLang.Proofs.Syntax.Bare
import StyleLang.Read.Lexeme
import StyleLang.Read.Place

/-!
# Spellings

The grammar, as relations between trees without positions and the words that spell them. A star
binds tighter than a plus or a minus, and all three lead to the left, so a product has no sum for a
factor, and no term on the right is a sum.

The relations leave open which words are reserved at which spots. If none is, a name may be spelled
like a keyword wherever it stands.
-/

namespace StyleLang

/-- Where a name stands that may be spelled like a keyword. -/
inductive Spot where
  | item
  /-- The start of an item after an assignment. -/
  | afterAssignment
  | statement
  /-- The start of a statement after a conditional without a second branch. -/
  | afterThen
  | operand
  deriving DecidableEq, Repr

namespace Spot

/-- The spot of an item after the given one. -/
def afterItem : Option Node → Spot
  | some (.assignment _ _ _) => afterAssignment
  | _ => item

/-- The spot of a statement after the given one. -/
def afterStatement : Option Node → Spot
  | some (.conditional _ _ _ none) => afterThen
  | _ => statement

end Spot

/-- The words that no name is spelled like. -/
abbrev Reserve := Spot → List Char → Prop

namespace Reserve

def nothing : Reserve := fun _ _ => False

/-- At each spot the keywords that are looked for there. An `if` is looked for after every
assignment, also among items, where no conditional can stand. -/
def keywords : Reserve
  | .item, _ => False
  | .afterAssignment, w => w = ['i', 'f']
  | .statement, w => w = ['i', 'f']
  | .afterThen, w => w = ['e', 'l', 's', 'e'] ∨ w = ['i', 'f']
  | .operand, w => w = ['F', 'A', 'L', 'S', 'E'] ∨ w = ['f', 'a', 'l', 's', 'e'] ∨
    w = ['T', 'R', 'U', 'E'] ∨ w = ['t', 'r', 'u', 'e']

end Reserve

namespace Grammar

/-- The words for a truth value. -/
def boolWords : Bool → List (List Char)
  | true => [['T', 'R', 'U', 'E'], ['t', 'r', 'u', 'e']]
  | false => [['F', 'A', 'L', 'S', 'E'], ['f', 'a', 'l', 's', 'e']]

inductive Atom (R : Reserve) : Node → List Char → Prop where
  | number {m : Measure} {ds : List Char} : IsDigits ds → ds.length ≤ digitLimit →
    Atom R (.literal {} (.number m (readDigits ds))) (ds ++ m.unit.toList)
  | color {w : List Char} : IsColor w → Atom R (.literal {} (.color (String.ofList w))) w
  | bool {b : Bool} {w : List Char} : w ∈ boolWords b → Atom R (.literal {} (.bool b)) w
  | reference {w : List Char} : IsVariable w → ¬ R .operand w →
    Atom R (.reference {} (String.ofList w)) w

inductive Product (R : Reserve) : Node → List (List Char) → Prop where
  | atom {n : Node} {w : List Char} : Atom R n w → Product R n [w]
  | times {l r : Node} {ws : List (List Char)} {w : List Char} : Product R l ws → Atom R r w →
    Product R (.operation {} .multiply l r) (ws ++ [['*'], w])

inductive Expression (R : Reserve) : Node → List (List Char) → Prop where
  | product {n : Node} {ws : List (List Char)} : Product R n ws → Expression R n ws
  | plus {l r : Node} {ws vs : List (List Char)} : Expression R l ws → Product R r vs →
    Expression R (.operation {} .add l r) (ws ++ ['+'] :: vs)
  | minus {l r : Node} {ws vs : List (List Char)} : Expression R l ws → Product R r vs →
    Expression R (.operation {} .subtract l r) (ws ++ ['-'] :: vs)

inductive Condition (R : Reserve) : Node → List (List Char) → Prop where
  | square {c : Node} {ws : List (List Char)} : Expression R c ws →
    Condition R c (['['] :: (ws ++ [[']']]))
  | round {c : Node} {ws : List (List Char)} : Expression R c ws →
    Condition R c (['('] :: (ws ++ [[')']]))

inductive Assignment (R : Reserve) (spot : Spot) : Node → List (List Char) → Prop where
  | mk {w : List Char} {e : Node} {ws : List (List Char)} : IsVariable w → ¬ R spot w →
    Expression R e ws →
    Assignment R spot (.assignment {} (String.ofList w) e) (w :: [':', '='] :: (ws ++ [[';']]))

mutual

inductive Statement (R : Reserve) : Spot → Node → List (List Char) → Prop where
  | assignment {spot : Spot} {n : Node} {ws : List (List Char)} : Assignment R spot n ws →
    Statement R spot n ws
  | declaration {spot : Spot} {w : List Char} {e : Node} {ws : List (List Char)} : IsName w →
    ¬ R spot w → Expression R e ws →
    Statement R spot (.declaration {} (String.ofList w) e) (w :: [':'] :: (ws ++ [[';']]))
  | conditional {spot : Spot} {c : Node} {b : List Node} {cs bs : List (List Char)} :
    Condition R c cs → Body R b bs →
    Statement R spot (.conditional {} c b none) (['i', 'f'] :: (cs ++ ['{'] :: (bs ++ [['}']])))
  | branching {spot : Spot} {c : Node} {b e : List Node} {cs bs es : List (List Char)} :
    Condition R c cs → Body R b bs → Body R e es →
    Statement R spot (.conditional {} c b (some e))
      (['i', 'f'] :: (cs ++ ['{'] :: (bs ++
        ['}'] :: ['e', 'l', 's', 'e'] :: ['{'] :: (es ++ [['}']]))))

inductive Body (R : Reserve) : List Node → List (List Char) → Prop where
  | nil : Body R [] []
  | snoc {ns : List Node} {n : Node} {ws vs : List (List Char)} : Body R ns ws →
    Statement R (Spot.afterStatement ns.getLast?) n vs → Body R (ns ++ [n]) (ws ++ vs)

end

inductive Selector : Node → List Char → Prop where
  | tag {w : List Char} : IsName w → Selector (.selector {} .tag (String.ofList w)) w
  | className {w : List Char} : IsName w →
    Selector (.selector {} .className (String.ofList w)) ('.' :: w)
  | id {w : List Char} : IsIdName w → Selector (.selector {} .id (String.ofList w)) ('#' :: w)

inductive Selectors : List Node → List (List Char) → Prop where
  | one {n : Node} {w : List Char} : Selector n w → Selectors [n] [w]
  | snoc {ns : List Node} {n : Node} {ws : List (List Char)} {w : List Char} : Selectors ns ws →
    Selector n w → Selectors (ns ++ [n]) (ws ++ [[','], w])

theorem Selectors.head?_append {ns : List Node} {ws : List (List Char)} (h : Selectors ns ws)
    (vs : List (List Char)) : (ws ++ vs).head? = ws.head? := by
  induction h generalizing vs with
  | one _ => rfl
  | snoc _ _ ih => rw [List.append_assoc, ih, ih]

theorem Selectors.exists_word {ns : List Node} {ws : List (List Char)} (h : Selectors ns ws)
    {n : Node} (hn : n ∈ ns) : ∃ w, Selector n w := by
  induction h with
  | one h =>
    rw [List.mem_singleton.1 hn]
    exact ⟨_, h⟩
  | snoc _ h ih =>
    rcases List.mem_append.1 hn with hn | hn
    · exact ih hn
    · rw [List.mem_singleton.1 hn]
      exact ⟨_, h⟩

theorem Selectors.isSelector {ns : List Node} {ws : List (List Char)} (h : Selectors ns ws)
    {n : Node} (hn : n ∈ ns) : ∃ kind name, n = .selector {} kind name := by
  obtain ⟨w, hw⟩ := h.exists_word hn
  cases hw <;> exact ⟨_, _, rfl⟩

inductive Item (R : Reserve) (spot : Spot) : Node → List (List Char) → Prop where
  | assignment {n : Node} {ws : List (List Char)} : Assignment R spot n ws → Item R spot n ws
  | rule {ss b : List Node} {ws bs : List (List Char)} : Selectors ss ws →
    (∀ w ∈ ws.head?, ¬ R spot w) → Body R b bs →
    Item R spot (.rule {} ss b) (ws ++ ['{'] :: (bs ++ [['}']]))

inductive Items (R : Reserve) : List Node → List (List Char) → Prop where
  | nil : Items R [] []
  | snoc {ns : List Node} {n : Node} {ws vs : List (List Char)} : Items R ns ws →
    Item R (Spot.afterItem ns.getLast?) n vs → Items R (ns ++ [n]) (ws ++ vs)

theorem Body.last {R : Reserve} {ns : List Node} {n : Node} {ws : List (List Char)}
    (h : Body R (ns ++ [n]) ws) : ∃ us vs, ws = us ++ vs ∧ Body R ns us ∧
      Statement R (Spot.afterStatement ns.getLast?) n vs := by
  generalize hl : ns ++ [n] = l at h
  cases h with
  | nil => exact absurd hl (by simp)
  | snoc hns hn =>
    obtain ⟨rfl, hlast⟩ := List.append_inj' hl rfl
    obtain rfl := (List.cons.inj hlast).1
    exact ⟨_, _, rfl, hns, hn⟩

theorem Statement.property_free {R : Reserve} {spot : Spot} {property : String} {e : Node}
    {ws : List (List Char)} (h : Statement R spot (.declaration {} property e) ws) :
    ¬ R spot property.toList := by
  generalize hn : Node.declaration {} property e = n at h
  cases h with
  | assignment ha =>
    cases ha
    cases hn
  | declaration _ hfree _ =>
    rw [(Node.declaration.inj hn).2.1, String.toList_ofList]
    exact hfree
  | _ => cases hn

theorem Items.last {R : Reserve} {ns : List Node} {n : Node} {ws : List (List Char)}
    (h : Items R (ns ++ [n]) ws) : ∃ us vs, ws = us ++ vs ∧ Items R ns us ∧
      Item R (Spot.afterItem ns.getLast?) n vs := by
  generalize hl : ns ++ [n] = l at h
  cases h with
  | nil => exact absurd hl (by simp)
  | snoc hns hn =>
    obtain ⟨rfl, hlast⟩ := List.append_inj' hl rfl
    obtain rfl := (List.cons.inj hlast).1
    exact ⟨_, _, rfl, hns, hn⟩

end Grammar

/-- The text spells the tree: it has the words of the tree in order, with gaps around them. -/
def Spells (R : Reserve) (text : String) (sheet : Stylesheet) : Prop :=
  ∃ ws body gap, Grammar.Items R (Node.bareAll sheet.items) ws ∧ Spaced ws body ∧ Gap gap ∧
    text.toList = body ++ gap

/-! ## Spots and places -/

/-- A reader that stands at the place looks for a name at the spot. -/
inductive Place.At : Place → Spot → Prop where
  | item : At .item .item
  | afterAssignment : At .afterAssignment .afterAssignment
  | statement : At .statement .statement
  | afterInnerAssignment : At .afterAssignment .statement
  | afterThen {pos : Position} {condition : Node} {body : List Node} :
    At (.afterThen pos condition body) .afterThen
  | operand {goal : Goal} {pending : Pending} : At (.operand goal pending) .operand

/-- Reserved are the words of the keywords that are looked for. -/
theorem Place.At.free_iff {place : Place} {spot : Spot} (h : place.At spot) (w : List Char) :
    (∀ k, (k, w) ∈ TokenKind.keywords → place.allows k = false) ↔ ¬ Reserve.keywords spot w := by
  have hall : (∀ k, (k, w) ∈ TokenKind.keywords → place.allows k = false) ↔
      ∀ p ∈ TokenKind.keywords, place.allows p.1 = true → w ≠ p.2 := by
    constructor
    · rintro hk ⟨k, w'⟩ hp ha rfl
      rw [hk k hp] at ha
      cases ha
    · intro hp k hk
      cases ha : place.allows k with
      | false => rfl
      | true => exact absurd rfl (hp _ hk ha)
  rw [hall]
  cases h <;> simp [TokenKind.keywords, allows, Reserve.keywords]

end StyleLang
