import StyleLang.Text.Quoted

/-!
# Values and operators

A value is a whole number with a measure, a color or a truth value, and it has a type. Numbers are
unbounded, and their text is limited to `digitLimit` digits wherever it is read or printed.
-/

namespace StyleLang

/-- What a number counts. -/
inductive Measure where
  | pixel
  | percentage
  | scalar
  deriving DecidableEq, Repr

namespace Measure

def name : Measure → String
  | pixel => "pixel"
  | percentage => "percentage"
  | scalar => "scalar"

/-- What stands after the digits of a number. -/
def unit : Measure → String
  | pixel => "px"
  | percentage => "%"
  | scalar => ""

end Measure

/-- The type of a value. No type converts to another. -/
inductive ValueType where
  | color
  | number (measure : Measure)
  | bool
  deriving DecidableEq, Repr

namespace ValueType

/-- Every type, in the order in which a message lists them. -/
def all : List ValueType :=
  [color, number .pixel, number .percentage, number .scalar, bool]

def name : ValueType → String
  | color => "color"
  | number m => m.name
  | bool => "bool"

/-- The types of a set in words, each once, in the order of `all`. -/
def describe (types : List ValueType) : String :=
  " or ".intercalate ((all.filter fun t => decide (t ∈ types)).map name)

/-- A type in words, where there may be none. -/
def nameOrUnknown : Option ValueType → String
  | some t => t.name
  | none => "unknown"

end ValueType

inductive Value where
  | number (measure : Measure) (amount : Int)
  | color (code : String)
  | bool (truth : Bool)
  deriving DecidableEq, Repr

/-- The greatest number of decimal digits that a number is read or printed with. -/
def digitLimit : Nat := 4300

/-- How many decimal digits a number has, its sign left out. -/
def digitCount (n : Int) : Nat := (Nat.toDigits 10 n.natAbs).length

/-- The number has at most as many digits as the limit allows. -/
def withinLimit (n : Int) : Bool := decide (digitCount n ≤ digitLimit)

/-- What is said where a number that is to be written has too many digits. -/
def overLimit : String :=
  s!"Exceeds the limit ({digitLimit} digits) for integer string conversion; " ++
    "use sys.set_int_max_str_digits() to increase the limit"

namespace Value

def type : Value → ValueType
  | number m _ => .number m
  | color _ => .color
  | bool _ => .bool

/-- The bare number of a value, zero where there is none. -/
def amount : Value → Int
  | number _ n => n
  | color _ => 0
  | bool _ => 0

def text : Value → String
  | number m n => toString n ++ m.unit
  | color code => code
  | bool true => "true"
  | bool false => "false"

/-- The value in a record; a color is between quotes. -/
def description : Value → String
  | number _ n => toString n
  | color code => Quoted.text code
  | bool true => "True"
  | bool false => "False"

/-- The text of the value stays within the limit on digits. -/
def printable : Value → Bool
  | number _ n => withinLimit n
  | color _ => true
  | bool _ => true

@[simp] theorem type_number (m : Measure) (n : Int) : (number m n).type = .number m := rfl
@[simp] theorem type_color (code : String) : (color code).type = .color := rfl
@[simp] theorem type_bool (b : Bool) : (bool b).type = .bool := rfl

theorem type_eq_bool_iff {v : Value} : v.type = .bool ↔ ∃ b, v = bool b := by
  cases v <;> simp [type]

end Value

inductive Operator where
  | add
  | subtract
  | multiply
  deriving DecidableEq, Repr

namespace Operator

def symbol : Operator → String
  | add => "+"
  | subtract => "-"
  | multiply => "*"

/-- The operator on bare numbers. -/
def compute : Operator → Int → Int → Int
  | add, a, b => a + b
  | subtract, a, b => a - b
  | multiply, a, b => a * b

end Operator

end StyleLang
