import StyleLang.Finding

/-!
# Log

What a compilation does, as events. An event has a level, the part of the program that it comes
from, and a message; a log line shows the three. An event whose message cannot be written leaves no
line, and the compilation goes on.
-/

namespace StyleLang

inductive LogLevel where
  | debug
  | info
  | warning
  deriving DecidableEq, Repr

def LogLevel.name : LogLevel → String
  | debug => "DEBUG"
  | info => "INFO"
  | warning => "WARNING"

inductive LogEvent where
  | checking (items : Nat)
  | checked (diagnostics : Nat)
  | diagnostic (finding : Finding)
  | evaluated (defects : Nat)
  | defect (finding : Finding)
  | generated (rules : Nat)
  deriving DecidableEq, Repr

namespace LogEvent

def level : LogEvent → LogLevel
  | checking _ => .info
  | checked _ => .debug
  | diagnostic _ => .debug
  | evaluated _ => .debug
  | defect _ => .warning
  | generated _ => .info

/-- The part of the program that the event comes from. -/
def source : LogEvent → String
  | checked _ => "icss.validation.checker"
  | evaluated _ => "icss.transforms.evaluator"
  | _ => "icss.compiler"

def message : LogEvent → String
  | checking n => s!"Checking stylesheet with {n} top-level item(s)"
  | checked n => s!"Checked stylesheet: {n} diagnostic(s)"
  | diagnostic f => f.text
  | evaluated n => s!"Evaluated stylesheet with {n} defect(s)"
  | defect f => f.text
  | generated n => s!"Generated {n} rule(s)"

def line (e : LogEvent) : String := s!"{e.level.name} {e.source}: {e.message}"

/-- The message of the event can be written. -/
def printable : LogEvent → Bool
  | diagnostic f => f.printable
  | defect f => f.printable
  | _ => true

end LogEvent

end StyleLang
