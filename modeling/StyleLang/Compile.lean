import StyleLang.Check
import StyleLang.Css
import StyleLang.Evaluate
import StyleLang.Log
import StyleLang.Read.Parse

/-!
# Compilation

A source is read, checked, evaluated and written as CSS. A strict compilation refuses a tree with
findings before it evaluates it; any other goes on, and each defect becomes a warning in the log.
The log tells all that was done, also if the compilation fails. The caller gets a refusal in words,
which show positions, so that for a tree with a number over the limit in a position there are none.

Trees may be nested to any depth. The limit that an interpreter's stack sets to recursion, in the
reader as in the passes and the printer, depends on who calls and is left out.
-/

namespace StyleLang

structure Config where
  indent : String := "  "
  /-- Whether a tree with findings is refused. -/
  strict : Bool := true
  deriving DecidableEq, Repr

/-- Why there is no CSS. -/
inductive CompileError where
  | read (reason : ReadError)
  | rejected (findings : List Finding)
  | fault (reason : Fault)
  | css (reason : CssError)
  deriving Repr

/-- The words for a tree that was refused, if they can be written. -/
def rejection? (findings : List Finding) : Option String :=
  (Finding.summary? findings).map fun summary =>
    s!"Compilation failed with {findings.length} error(s): {summary}"

structure Compilation where
  log : List LogEvent := []
  result : Except CompileError String

/-- What the caller of a compilation gets. -/
inductive Reply where
  | css (text : String)
  /-- The findings of a tree that was refused, with the words for them. -/
  | refused (findings : List Finding) (words : String)
  /-- The words for a tree that was refused have a number over the limit on digits in them. -/
  | unwritable
  /-- Any other reason why there is no CSS. -/
  | failed (reason : CompileError)
  deriving Repr

namespace Compilation

def reply (c : Compilation) : Reply :=
  match c.result with
  | .ok css => .css css
  | .error (.rejected findings) =>
    match rejection? findings with
    | some words => .refused findings words
    | none => .unwritable
  | .error reason => .failed reason

/-- The events of an evaluation: a count, if there is something to count, and the defects. -/
def evaluationLog (defects : List Finding) : List LogEvent :=
  (if defects.isEmpty then [] else [.evaluated defects.length]) ++ defects.map .defect

/-- The way from a checked tree to its CSS, after the log so far. -/
def finish (config : Config) (log : List LogEvent) (sheet : Stylesheet) : Compilation :=
  match sheet.evaluate with
  | .error e => ⟨log, .error (.fault e)⟩
  | .ok e =>
    let log := log ++ evaluationLog e.defects
    match e.stylesheet.css config.indent with
    | .error reason => ⟨log, .error (.css reason)⟩
    | .ok css => ⟨log ++ [.generated e.stylesheet.items.length], .ok css⟩

end Compilation

def Stylesheet.compile (config : Config) (sheet : Stylesheet) : Compilation :=
  let log := [.checking sheet.items.length]
  match sheet.check with
  | .error e => ⟨log, .error (.fault e)⟩
  | .ok findings =>
    let log := log ++ .checked findings.length :: findings.map .diagnostic
    if config.strict && !findings.isEmpty then ⟨log, .error (.rejected findings)⟩
    else Compilation.finish config log sheet

/-- The CSS of a source. A source that cannot be read leaves no log. -/
def compile (config : Config) (source : String) : Compilation :=
  match Stylesheet.parse source with
  | .error e => ⟨[], .error (.read e)⟩
  | .ok sheet => sheet.compile config

end StyleLang
