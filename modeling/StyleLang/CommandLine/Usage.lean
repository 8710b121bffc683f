import StyleLang.CommandLine.Arguments
import StyleLang.CommandLine.Disk
import StyleLang.Compile
import StyleLang.Text.Line
import StyleLang.Text.Numeral
import StyleLang.Text.Quoted
import StyleLang.Text.Terminal

/-!
# Usage

What a command line asks for. Options are judged in the order given, then the source file, then what
is left over; so of several faults the first in this order is reported. A path that no file can have
ends the run where the source file is judged, and is not a wrong usage.
-/

namespace StyleLang

inductive UsageError where
  | option (reason : OptionError)
  | missingCommand
  | unknownCommand (name : String) (guesses : List String)
  | missingSource
  | sourceNotFound (path : String)
  | sourceIsDirectory (path : String)
  | indentNotNumber (text : String)
  | indentNegative (indent : Int)
  | extraArguments (arguments : List String)
  deriving DecidableEq, Repr

namespace UsageError

/-- What is said of the guesses at what was meant. -/
def hint : List String → String
  | [] => ""
  | [word] => " Did you mean " ++ Quoted.text word ++ "?"
  | words => " (Did you mean one of: " ++ ", ".intercalate (words.map Quoted.text) ++ "?)"

def message : UsageError → String
  | option (.unknown name guesses) =>
    "No such option " ++ Quoted.text name ++ "." ++ hint guesses
  | option (.valueMissing name) => "Option " ++ Quoted.text name ++ " requires an argument."
  | option (.valueUnwanted name) => "Option " ++ Quoted.text name ++ " does not take a value."
  | missingCommand => "Missing command."
  | unknownCommand name guesses =>
    "No such command " ++ Quoted.text name ++ "." ++ hint guesses
  | missingSource => "Missing argument 'ICSSFILE'."
  | sourceNotFound path =>
    "Invalid value for 'ICSSFILE': File " ++ Quoted.text path ++ " does not exist."
  | sourceIsDirectory path =>
    "Invalid value for 'ICSSFILE': File " ++ Quoted.text path ++ " is a directory."
  | indentNotNumber text =>
    "Invalid value for '--indent': " ++ Quoted.text text ++ " is not a valid integer range."
  | indentNegative indent =>
    s!"Invalid value for '--indent': {indent} is not in the range x>=0."
  | extraArguments arguments =>
    let noun := if arguments.length = 1 then "argument" else "arguments"
    "Got unexpected extra " ++ noun ++ " (" ++ " ".intercalate arguments ++ ")"

/-- What is shown of a wrong usage: one line, the last one if the message has several. -/
def line (e : UsageError) : String :=
  lastLine (String.ofList (Terminal.plain ("Error: " ++ e.message).toList))

end UsageError

/-- Why a command line is not acted on. -/
inductive Refusal where
  | usage (reason : UsageError)
  | path (reason : PathError)
  deriving DecidableEq, Repr

/-- A source file that exists. -/
structure SourceFile where
  path : String
  bytes : ByteArray

inductive Command where
  | check (source : SourceFile)
  | compile (source : SourceFile) (output : Option String) (indent : Nat) (strict : Bool)

/-- What is asked for: a text about the program, or a command, which may log what it does. -/
inductive Request where
  | version
  | help
  | checkHelp
  | compileHelp
  | run (verbose : Bool) (command : Command)

namespace Usage

inductive MainOption where
  | verbose
  | version
  | help
  deriving DecidableEq, Repr

inductive CheckOption where
  | help
  deriving DecidableEq, Repr

inductive CompileOption where
  | output
  | indent
  | strict
  | lenient
  | help
  deriving DecidableEq, Repr

def mainOptions : OptionTable MainOption where
  long := [("--version", .version), ("--verbose", .verbose), ("--help", .help)]
  short := [('v', .verbose)]
  takesValue _ := false

def checkOptions : OptionTable CheckOption where
  long := [("--help", .help)]
  takesValue _ := false

def compileOptions : OptionTable CompileOption where
  long := [("--output", .output), ("--indent", .indent), ("--strict", .strict),
    ("--no-strict", .lenient), ("--help", .help)]
  short := [('o', .output)]
  takesValue k := k = .output || k = .indent

/-- The value of the last option of a kind. -/
def lastValue {κ : Type} [DecidableEq κ] (key : κ) (given : List (κ × String)) : Option String :=
  given.reverse.lookup key

/-- The options, read by a table. -/
def readArguments {κ : Type} (table : OptionTable κ) (interspersed : Bool)
    (arguments : List String) : Except Refusal (Arguments κ) :=
  match table.read interspersed arguments with
  | .ok a => .ok a
  | .error e => .error (.usage (.option e))

/-- The one operand of a command: a file that exists. -/
def readSource (disk : Disk) (operands : List String) : Except Refusal SourceFile :=
  match operands with
  | [] => .error (.usage .missingSource)
  | path :: rest =>
    if hasNul path then .error (.path .nul)
    else
      match disk.locate path with
      | .missing | .pastFile | .longName => .error (.usage (.sourceNotFound path))
      | .directory _ => .error (.usage (.sourceIsDirectory path))
      | .file _ bytes =>
        if rest.isEmpty then .ok { path, bytes } else .error (.usage (.extraArguments rest))

/-- The width of an indent, which is two unless it is given. -/
def readIndent (given : Option String) : Except Refusal Nat :=
  match given with
  | none => .ok 2
  | some text =>
    match readNumeral? text with
    | none => .error (.usage (.indentNotNumber text))
    | some n => if n < 0 then .error (.usage (.indentNegative n)) else .ok n.toNat

/-- Whether the last word on strictness is for it. -/
def isStrict : List (CompileOption × String) → Bool
  | given => given.reverse.findSome? (fun g =>
      match g.1 with
      | .strict => some true
      | .lenient => some false
      | _ => none) != some false

def readCheck (disk : Disk) (verbose : Bool) (arguments : List String) :
    Except Refusal Request := do
  let a ← readArguments checkOptions true arguments
  if a.given.isEmpty then
    let source ← readSource disk a.operands
    pure (.run verbose (.check source))
  else pure .checkHelp

def readCompile (disk : Disk) (verbose : Bool) (arguments : List String) :
    Except Refusal Request := do
  let a ← readArguments compileOptions true arguments
  if a.given.any fun g => g.1 = .help then pure .compileHelp
  else
    let indent ← readIndent (lastValue .indent a.given)
    let source ← readSource disk a.operands
    let output := lastValue .output a.given
    pure (.run verbose (.compile source output indent (isStrict a.given)))

/-- The text about the program that is asked for first, if any is. -/
def textRequest? (given : List (MainOption × String)) : Option Request :=
  given.findSome? fun g =>
    match g.1 with
    | .version => some .version
    | .help => some .help
    | .verbose => none

def commands : List String := ["check", "compile"]

/-- A name that is no command. If it looks like options, those are judged. -/
def unknownCommand (name : String) (rest : List String) : Except Refusal Request := do
  let a ← readArguments mainOptions false (name :: rest)
  match textRequest? a.given with
  | some request => pure request
  | none => .error (.usage (.unknownCommand name (Resemblance.guesses commands name)))

/-- What a command line asks for. -/
def read (disk : Disk) (arguments : List String) : Except Refusal Request := do
  let a ← readArguments mainOptions false arguments
  match textRequest? a.given with
  | some request => pure request
  | none =>
    let verbose := !a.given.isEmpty
    match a.operands with
    | [] => if arguments.isEmpty then pure .help else .error (.usage .missingCommand)
    | "check" :: rest => readCheck disk verbose rest
    | "compile" :: rest => readCompile disk verbose rest
    | name :: rest => unknownCommand name rest

end Usage

end StyleLang
