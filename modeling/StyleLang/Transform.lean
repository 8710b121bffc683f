import StyleLang.Evaluate

/-!
# Transforms

A transform makes one tree from another, or fails. A tree is first evaluated, then goes through
further transforms one after the other.
-/

namespace StyleLang

abbrev Transform := Stylesheet → Except Fault Stylesheet

namespace Transform

/-- A new evaluator's result. -/
def evaluation : Transform := fun sheet => (({} : Evaluator).apply sheet).1

/-- The first item alone. -/
def first : Transform := fun sheet => .ok { items := sheet.items.take 1 }

/-- The items in the opposite order. -/
def reverse : Transform := fun sheet => .ok { items := sheet.items.reverse }

/-- The transforms one after the other. -/
def sequence : List Transform → Transform
  | [], sheet => .ok sheet
  | t :: ts, sheet =>
    match t sheet with
    | .ok sheet => sequence ts sheet
    | .error e => .error e

end Transform

/-- The tree evaluated, then transformed further. -/
def Stylesheet.transform (sheet : Stylesheet) (custom : List Transform) :
    Except Fault Stylesheet :=
  Transform.sequence (Transform.evaluation :: custom) sheet

end StyleLang
