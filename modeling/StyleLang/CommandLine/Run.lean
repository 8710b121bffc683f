import StyleLang.CommandLine.Help
import StyleLang.CommandLine.Indent
import StyleLang.CommandLine.Usage

/-!
# Runs

What a command line does: texts for the two streams, an exit status and at most one file to write. A
run may also break off, with what it said until then. The log goes to the error stream: all of it if
that is asked for, and otherwise the messages of warnings. Nothing is written before the CSS is
there as a whole.
-/

namespace StyleLang

/-- Why a run breaks off. -/
inductive Crash where
  | path (reason : PathError)
  | indent (reason : IndentError)
  /-- The source is not UTF-8. -/
  | encoding
  | build (reason : BuildError)
  | fault (reason : Fault)
  | css (reason : CssError)
  deriving DecidableEq, Repr

structure Outcome where
  exit : Nat := 0
  stdout : String := ""
  stderr : String := ""
  /-- The file that is written, by its key. -/
  written : Option (List String × String) := none
  crash : Option Crash := none

namespace Run

/-- The text of a file; every kind of line end is read as a line feed. -/
def decode (bytes : ByteArray) : Option String :=
  (String.fromUTF8? bytes).map fun s => String.ofList (unifyLineEnds s.toList)

def lines (ls : List String) : String := String.join (ls.map (· ++ "\n"))

/-- A line with a path in it, as a stream shows it that is no terminal. -/
def plainLine (line : String) : String := String.ofList (Terminal.plain line.toList) ++ "\n"

/-- What the error stream shows of a log. -/
def logText (verbose : Bool) (log : List LogEvent) : String :=
  if verbose then lines (log.map LogEvent.line)
  else lines ((log.filter fun e => e.level = .warning).map LogEvent.message)

/-- A run that breaks off after what the error stream shows. -/
def crashed (stderr : String) (reason : Crash) : Outcome :=
  { exit := 1, stderr, crash := some reason }

/-- A source that cannot be read. -/
def unreadable : ReadError → Outcome
  | .grammar e => { exit := 1, stderr := lines ["Parse error: " ++ e.notice.message] }
  | .build (.hyphenatedName name place) =>
    { exit := 1
      stderr := lines ["Parse error: " ++ (BuildError.hyphenatedName name place).message] }
  | .build (.numberTooLong m n) => crashed "" (.build (.numberTooLong m n))

/-- What is said about a source that was checked. -/
def checked (path : String) (findings : List Finding) : Outcome :=
  if findings.isEmpty then
    { stdout := plainLine ("OK: " ++ Disk.baseName path ++ " is valid (0 diagnostics)") }
  else
    { exit := 1
      stdout := lines (findings.map Finding.text ++
        ["", s!"Summary: {findings.length} error(s)"]) }

def check (verbose : Bool) (source : SourceFile) : Outcome :=
  match decode source.bytes with
  | none => crashed "" .encoding
  | some text =>
    match Stylesheet.parse text with
    | .error e => unreadable e
    | .ok sheet =>
      match sheet.check with
      | .error e => crashed "" (.fault e)
      | .ok findings =>
        { checked source.path findings with
          stderr := logText verbose [.checked findings.length] }

/-- Puts finished CSS where it belongs: into the output file, if one is named, or out. -/
def deliver (disk : Disk) (output : Option String) (log css : String) : Outcome :=
  match output with
  | none => { stdout := css, stderr := log }
  | some path =>
    if path = "" then { stdout := css, stderr := log }
    else
      match disk.writable path with
      | .error e => crashed log (.path e)
      | .ok key => { stderr := log ++ plainLine ("Wrote " ++ path), written := some (key, css) }

def compileWith (disk : Disk) (verbose : Bool) (source : SourceFile) (output : Option String)
    (config : Config) : Outcome :=
  match decode source.bytes with
  | none => crashed "" .encoding
  | some text =>
    let c := StyleLang.compile config text
    let log := logText verbose c.log
    match c.result with
    | .ok css => deliver disk output log css
    | .error (.read e) => unreadable e
    | .error (.rejected findings) =>
      { exit := 1
        stderr := log ++ lines (findings.map Finding.text ++
          [s!"Compilation failed: {findings.length} error(s)"]) }
    | .error (.fault e) => crashed log (.fault e)
    | .error (.css e) => crashed log (.css e)

/-- The indent is made before the source is read. -/
def compile (disk : Disk) (verbose : Bool) (source : SourceFile) (output : Option String)
    (width : Nat) (strict : Bool) : Outcome :=
  match Indent.ofWidth width with
  | .error e => crashed "" (.indent e)
  | .ok indent => compileWith disk verbose source output { indent, strict }

def request (disk : Disk) : Request → Outcome
  | .version => { stdout := Help.version }
  | .help => { stdout := Help.main }
  | .checkHelp => { stdout := Help.check }
  | .compileHelp => { stdout := Help.compile }
  | .run verbose (.check source) => check verbose source
  | .run verbose (.compile source output width strict) =>
    compile disk verbose source output width strict

end Run

/-- The outcome of a command line. Of a wrong usage, only the reason is shown. -/
def run (disk : Disk) (arguments : List String) : Outcome :=
  match Usage.read disk arguments with
  | .ok request => Run.request disk request
  | .error (.usage e) => { exit := 2, stderr := e.line }
  | .error (.path e) => Run.crashed "" (.path e)

namespace Outcome

/-- The files in the working directory that are new or have new contents: their keys joined by
slashes, and their texts. -/
def changes (o : Outcome) (disk : Disk) : List (String × String) :=
  match o.written with
  | none => []
  | some (key, text) =>
    let same := match disk.find key with
      | .file _ bytes => String.fromUTF8? bytes = some text
      | _ => false
    if Disk.isInner key && !same then [("/".intercalate key, text)] else []

end Outcome

end StyleLang
