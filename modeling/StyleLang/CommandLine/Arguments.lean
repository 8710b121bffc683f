import StyleLang.Text.Resemblance

/-!
# Command line arguments

An argument that starts with a dash and has more to it gives options. A long option is one argument,
its value stands after an equals sign or is the next argument. Short options may be run together,
and a value is the rest of the argument or the next one. Two dashes end the options. The other
arguments are operands; whether options may stand after the first operand is up to the command. For
an unknown long option there are guesses at what was meant.
-/

namespace StyleLang

/-- What is wrong with the options on a command line. -/
inductive OptionError where
  | unknown (name : String) (guesses : List String)
  | valueMissing (name : String)
  | valueUnwanted (name : String)
  deriving DecidableEq, Repr

/-- The options of a command. -/
structure OptionTable (κ : Type) where
  long : List (String × κ) := []
  short : List (Char × κ) := []
  takesValue : κ → Bool

/-- Options in the order given, with a value where one is taken, and the operands. -/
structure Arguments (κ : Type) where
  given : List (κ × String) := []
  operands : List String := []
  deriving Repr

namespace OptionTable

variable {κ : Type}

/-- The options of one argument, and whether the next argument is a value of them. -/
abbrev Reading (κ : Type) := Except OptionError (List (κ × String) × Bool)

/-- The value that an option has from the next argument. -/
def fromNext (name : String) (key : κ) (next : Option String) : Reading κ :=
  match next with
  | none => .error (.valueMissing name)
  | some value => .ok ([(key, value)], true)

/-- The short options that are run together in an argument, after its dash. -/
def readShort (table : OptionTable κ) (next : Option String) : List Char → Reading κ
  | [] => .ok ([], false)
  | c :: cs =>
    let name := String.ofList ['-', c]
    match table.short.lookup c with
    | none => .error (.unknown name [])
    | some key =>
      if table.takesValue key then
        if cs.isEmpty then fromNext name key next
        else .ok ([(key, String.ofList cs)], false)
      else
        match table.readShort next cs with
        | .error e => .error e
        | .ok (given, used) => .ok ((key, "") :: given, used)

/-- The options of an argument that starts with a dash. -/
def readOption (table : OptionTable κ) (argument : List Char) (next : Option String) : Reading κ :=
  let name := String.ofList (argument.takeWhile fun c => c != '=')
  let value := argument.dropWhile fun c => c != '='
  match table.long.lookup name with
  | some key =>
    match table.takesValue key, value with
    | true, [] => fromNext name key next
    | true, _ :: value => .ok ([(key, String.ofList value)], false)
    | false, [] => .ok ([(key, "")], false)
    | false, _ :: _ => .error (.valueUnwanted name)
  | none =>
    match argument with
    | '-' :: '-' :: _ =>
      .error (.unknown name (Resemblance.guesses (table.long.map Prod.fst) name))
    | _ => table.readShort next (argument.drop 1)

/-- Sorts the arguments into options and operands. -/
def read (table : OptionTable κ) (interspersed : Bool) (arguments : List String) :
    Except OptionError (Arguments κ) :=
  match arguments with
  | [] => .ok {}
  | a :: rest =>
    match a.toList with
    | ['-', '-'] => .ok { operands := rest }
    | '-' :: c :: cs =>
      match table.readOption ('-' :: c :: cs) rest.head? with
      | .error e => .error e
      | .ok (given, used) =>
        match table.read interspersed (if used then rest.tail else rest) with
        | .error e => .error e
        | .ok more => .ok { more with given := given ++ more.given }
    | _ =>
      if interspersed then
        match table.read interspersed rest with
        | .error e => .error e
        | .ok more => .ok { more with operands := a :: more.operands }
      else .ok { operands := a :: rest }
termination_by arguments.length
decreasing_by
  · split
    · simp only [List.length_tail, List.length_cons]; omega
    · simp
  · simp

end OptionTable

end StyleLang
