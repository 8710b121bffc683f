import StyleLang.Read.Error
import StyleLang.Read.Place
import StyleLang.Text.Digit

/-!
# Reading token by token

A reading is the state between two tokens: the finished items, the blocks that are open around the
place where the next token stands, and that place. `step` says what a token does.

A name or a number that the tree does not take is kept as a flaw. It is for the end of the text to
bring it up, and the first one counts.
-/

namespace StyleLang

structure Reading where
  /-- The finished items, the latest first. -/
  items : List Node := []
  /-- The open blocks, the innermost first. -/
  blocks : List OpenBlock := []
  place : Place := .item
  flaw : Option BuildError := none
  deriving Repr

namespace Token

/-- The selector that a token is. -/
def selector? (t : Token) : Option Node :=
  match t.kind with
  | .name => some (.selector t.position .tag t.text)
  | .classSelector => some (.selector t.position .className (String.ofList (t.chars.drop 1)))
  | .idSelector => some (.selector t.position .id (String.ofList (t.chars.drop 1)))
  | _ => none

/-- The measure of a number. -/
def measure? (t : Token) : Option Measure :=
  match t.kind with
  | .pixel => some .pixel
  | .percentage => some .percentage
  | .scalar => some .scalar
  | _ => none

def digits (t : Token) : List Char := t.chars.takeWhile isDigit

/-- The operand that a token is. -/
def operand? (t : Token) : Option Node :=
  match t.kind with
  | .pixel => some (.literal t.position (.number .pixel (readDigits t.digits)))
  | .percentage => some (.literal t.position (.number .percentage (readDigits t.digits)))
  | .scalar => some (.literal t.position (.number .scalar (readDigits t.digits)))
  | .color => some (.literal t.position (.color t.text))
  | .trueCapital | .trueSmall => some (.literal t.position (.bool true))
  | .falseCapital | .falseSmall => some (.literal t.position (.bool false))
  | .reference => some (.reference t.position t.text)
  | _ => none

/-- A number has a flaw if it has too many digits, zeros in front counted. -/
def numberFlaw (t : Token) : Option BuildError :=
  match t.measure? with
  | some m =>
    if digitLimit < t.digits.length then some (.numberTooLong m t.digits.length) else none
  | none => none

/-- An assigned name has a flaw if it has a hyphen. -/
def nameFlaw (t : Token) : Option BuildError :=
  if '-' ∈ t.chars then some (.hyphenatedName t.text t.start) else none

end Token

namespace Reading

/-- The reading with a flaw, unless it has an earlier one. -/
def noting (r : Reading) (flaw : Option BuildError) : Reading := { r with flaw := r.flaw.or flaw }

def goingTo (r : Reading) (place : Place) : Reading := { r with place }

/-- Finishes a node: it becomes the latest statement of the innermost block, or the latest item. -/
def finish (r : Reading) (node : Node) : Reading :=
  match r.blocks with
  | [] => { r with items := node :: r.items }
  | b :: bs => { r with blocks := { b with done := node :: b.done } :: bs }

/-- Opens a block. -/
def openBlock (r : Reading) (holder : Holder) : Reading :=
  { r with blocks := { holder } :: r.blocks, place := .statement }

/-- Closes the innermost block, if there is one. -/
def closeBlock (r : Reading) : Option Reading :=
  match r.blocks with
  | [] => none
  | ⟨holder, done⟩ :: blocks =>
    let r := { r with blocks }
    match holder with
    | .rule pos selectors => some ((r.finish (.rule pos selectors done.reverse)).goingTo .item)
    | .thenBranch pos condition => some (r.goingTo (.afterThen pos condition done.reverse))
    | .elseBranch pos condition body =>
      some ((r.finish (.conditional pos condition body (some done.reverse))).goingTo .statement)

/-- A token where an item is expected. -/
def stepItem (r : Reading) (t : Token) : Option Reading :=
  match t.kind with
  | .name => some (r.goingTo (.named t))
  | _ => t.selector?.map fun s => r.goingTo (.afterSelector [s])

/-- A token where a statement or the end of a block is expected. -/
def stepStatement (r : Reading) (t : Token) : Option Reading :=
  match t.kind with
  | .name => some (r.goingTo (.label t))
  | .ifWord => some (r.goingTo (.condition t.position))
  | .rightBrace => r.closeBlock
  | _ => none

/-- A token among selectors, of which there is one at least. -/
def stepAfterSelector (r : Reading) (selectors : List Node) (pos : Position) (t : Token) :
    Option Reading :=
  match t.kind with
  | .comma => some (r.goingTo (.selector selectors))
  | .leftBrace => some (r.openBlock (.rule pos selectors.reverse))
  | _ => none

/-- The end of an expression. -/
def endExpression (r : Reading) (goal : Goal) (expression : Node) : Reading :=
  match goal with
  | .assignment name =>
    ((r.noting name.nameFlaw).finish (.assignment name.position name.text expression)).goingTo
      .afterAssignment
  | .declaration property =>
    (r.finish (.declaration property.position property.text expression)).goingTo .statement
  | .condition pos _ => r.goingTo (.thenBlock pos expression)

/-- A token after an operand. -/
def stepOperator (r : Reading) (goal : Goal) (sum : Option (Node × Operator)) (product : Node)
    (t : Token) : Option Reading :=
  match t.kind with
  | .star => some (r.goingTo (.operand goal { sum, factor := some product }))
  | .plus => some (r.goingTo (.operand goal { sum := some (.addedTo sum product, .add) }))
  | .minus => some (r.goingTo (.operand goal { sum := some (.addedTo sum product, .subtract) }))
  | kind => if kind = goal.closer then some (r.endExpression goal (.addedTo sum product)) else none

/-- The position of the first of some selectors that stand with the latest first. -/
def firstPosition (selectors : List Node) : Position :=
  (selectors.getLast?.map Node.position).getD {}

/-- The reading after one more token, if the token can come next. -/
def step (r : Reading) (t : Token) : Option Reading :=
  match r.place with
  | .item => r.stepItem t
  | .afterAssignment => if r.blocks.isEmpty then r.stepItem t else r.stepStatement t
  | .named name =>
    match t.kind with
    | .becomes => some (r.goingTo (.operand (.assignment name) {}))
    | _ => r.stepAfterSelector [.selector name.position .tag name.text] name.position t
  | .selector selectors => t.selector?.map fun s => r.goingTo (.afterSelector (s :: selectors))
  | .afterSelector selectors => r.stepAfterSelector selectors (firstPosition selectors) t
  | .statement => r.stepStatement t
  | .label name =>
    match t.kind with
    | .becomes => some (r.goingTo (.operand (.assignment name) {}))
    | .colon => some (r.goingTo (.operand (.declaration name) {}))
    | _ => none
  | .condition pos =>
    match t.kind with
    | .leftBracket => some (r.goingTo (.operand (.condition pos .square) {}))
    | .leftParen => some (r.goingTo (.operand (.condition pos .round) {}))
    | _ => none
  | .operand goal pending =>
    t.operand?.map fun atom =>
      (r.noting t.numberFlaw).goingTo (.operator goal pending.sum (.timesAfter pending.factor atom))
  | .operator goal sum product => r.stepOperator goal sum product t
  | .thenBlock pos condition =>
    if t.kind = .leftBrace then some (r.openBlock (.thenBranch pos condition)) else none
  | .afterThen pos condition body =>
    match t.kind with
    | .elseWord => some (r.goingTo (.elseBlock pos condition body))
    | _ => (r.finish (.conditional pos condition body none)).stepStatement t
  | .elseBlock pos condition body =>
    if t.kind = .leftBrace then some (r.openBlock (.elseBranch pos condition body)) else none

/-- Whether the text may end here. -/
def isComplete (r : Reading) : Bool :=
  match r.place with
  | .item => r.blocks.isEmpty
  | .afterAssignment => r.blocks.isEmpty
  | _ => false

/-- The finished tree; it stands where its first item stands. -/
def sheet (r : Reading) : Stylesheet :=
  { pos := firstPosition r.items, items := r.items.reverse }

/-! ## What finishing and going leave alone -/

@[simp] theorem goingTo_goingTo (r : Reading) (p q : Place) :
    (r.goingTo p).goingTo q = r.goingTo q := rfl

@[simp] theorem finish_goingTo (r : Reading) (p : Place) (n : Node) :
    (r.goingTo p).finish n = (r.finish n).goingTo p := by
  obtain ⟨items, blocks, place, flaw⟩ := r
  cases blocks <;> rfl

theorem noting_none (r : Reading) : r.noting none = r := by
  unfold noting
  rw [Option.or_none]

theorem flaw_finish (r : Reading) (n : Node) : (r.finish n).flaw = r.flaw := by
  obtain ⟨items, blocks, place, flaw⟩ := r
  cases blocks <;> rfl

theorem blocks_finish_eq_nil_iff (r : Reading) (n : Node) :
    (r.finish n).blocks = [] ↔ r.blocks = [] := by
  obtain ⟨items, blocks, place, flaw⟩ := r
  cases blocks <;> simp [finish]

end Reading

end StyleLang
