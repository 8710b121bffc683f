import StyleLang.Syntax.Value

/-!
# Properties

The properties that a declaration may set, and the types of their values. A property is named in
any mixture of cases. Besides the ASCII capitals, one other character has a small form in ASCII:
the sign for kelvin is a capital `k`.
-/

namespace StyleLang

/-- The small form of a letter, where the small form is an ASCII letter. -/
def smallLetter (c : Char) : Char :=
  if c = '\u212A' then 'k' else c.toLower

namespace Property

/-- The name of a property as the table spells it. -/
def canonical (name : String) : String := String.ofList (name.toList.map smallLetter)

def sizeTypes : List ValueType := [.number .pixel, .number .percentage]

/-- The properties and the types that their values may have. -/
def table : List (String × List ValueType) :=
  [("color", [.color]), ("background-color", [.color]), ("width", sizeTypes),
    ("height", sizeTypes)]

/-- The types of a property's values, if it may be set. -/
def types? (name : String) : Option (List ValueType) := table.lookup (canonical name)

def isAllowed (name : String) : Bool := (types? name).isSome

/-- The types that a property expects, none for one that may not be set. -/
def expectedTypes (name : String) : List ValueType := (types? name).getD []

end Property

end StyleLang
