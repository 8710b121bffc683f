import StyleLang.Proofs.CommandLine.Requests
import StyleLang.Proofs.Compile.Logging

/-!
# What the log adds to a run

A run that was asked for the log does what it does without, and the log stands before all else on
the error stream. A run that was not asked for it shows the bare messages of warnings in its place.
Main statement: two runs of a command, with the log and without, differ in nothing else.
-/

namespace StyleLang

/-! ## The log of a run -/

namespace Run

/-- A check logs how many findings there are, once it has them. -/
def checkLog (source : SourceFile) : List LogEvent :=
  match decode source.bytes with
  | none => []
  | some text =>
    match Stylesheet.parse text with
    | .error _ => []
    | .ok sheet =>
      match sheet.check with
      | .error _ => []
      | .ok findings => [.checked findings.length]

/-- A compilation logs what it logs of the text in the file. -/
def compileLog (source : SourceFile) (config : Config) : List LogEvent :=
  match decode source.bytes with
  | none => []
  | some text => (StyleLang.compile config text).log

end Run

/-- What is logged for a request. -/
def Request.log : Request → List LogEvent
  | .run _ (.check source) => Run.checkLog source
  | .run _ (.compile source _ width strict) =>
    match Indent.ofWidth width with
    | .error _ => []
    | .ok indent => Run.compileLog source { indent, strict }
  | .version | .help | .checkHelp | .compileHelp => []

/-- What is logged for a command line. -/
def Run.log (disk : Disk) (arguments : List String) : List LogEvent :=
  match Usage.read disk arguments with
  | .error _ => []
  | .ok request => request.log

/-! ## What the log does to an outcome -/

/-- The same outcome, with a text before what else is on the error stream. -/
def Outcome.after (o : Outcome) (text : String) : Outcome := { o with stderr := text ++ o.stderr }

/-- Runs with the log and without have one outcome, after what is shown of the log. -/
def Logs (events : List LogEvent) (runs : Bool → Outcome) : Prop :=
  ∃ o : Outcome, ∀ verbose, runs verbose = o.after (Run.logText verbose events)

namespace Run

/-- A run without a log is the same with it. -/
theorem logs_nil (o : Outcome) : Logs [] fun _ => o := by
  refine ⟨o, fun verbose => ?_⟩
  have hempty : logText verbose [] = "" := by cases verbose <;> rfl
  unfold Outcome.after
  rw [hempty, String.empty_append]

theorem logs_check (source : SourceFile) :
    Logs (checkLog source) fun verbose => check verbose source := by
  unfold checkLog check
  cases decode source.bytes with
  | none => exact logs_nil _
  | some text =>
    dsimp only
    cases Stylesheet.parse text with
    | error e => exact logs_nil _
    | ok sheet =>
      dsimp only
      cases sheet.check with
      | error e => exact logs_nil _
      | ok findings =>
        refine ⟨{ checked source.path findings with stderr := "" }, fun verbose => ?_⟩
        unfold Outcome.after
        rw [String.append_empty]

theorem crashed_eq_after (log : String) (reason : Crash) :
    crashed log reason = (crashed "" reason).after log := by
  unfold crashed Outcome.after
  rw [String.append_empty]

theorem deliver_eq_after (disk : Disk) (output : Option String) (log css : String) :
    deliver disk output log css = (deliver disk output "" css).after log := by
  have hout : ({ stdout := css, stderr := log } : Outcome) =
      Outcome.after { stdout := css } log := by
    unfold Outcome.after
    rw [String.append_empty]
  unfold deliver
  cases output with
  | none => exact hout
  | some path =>
    dsimp only
    split
    · exact hout
    · cases disk.writable path with
      | error e => exact crashed_eq_after log _
      | ok key =>
        unfold Outcome.after
        rw [String.empty_append]

theorem logs_compileWith (disk : Disk) (source : SourceFile) (output : Option String)
    (config : Config) :
    Logs (compileLog source config) fun verbose =>
      compileWith disk verbose source output config := by
  unfold compileLog compileWith
  cases decode source.bytes with
  | none => exact logs_nil _
  | some text =>
    dsimp only
    cases hresult : (StyleLang.compile config text).result with
    | ok css => exact ⟨deliver disk output "" css, fun verbose => deliver_eq_after ..⟩
    | error e =>
      cases e with
      | read e =>
        -- this message is not put after the log, but then there is no log
        rw [log_of_unread hresult]
        exact logs_nil _
      | rejected findings =>
        exact ⟨{ exit := 1
                 stderr := lines (findings.map Finding.text ++
                   [s!"Compilation failed: {findings.length} error(s)"]) }, fun verbose => rfl⟩
      | fault e => exact ⟨crashed "" (.fault e), fun verbose => crashed_eq_after ..⟩
      | css e => exact ⟨crashed "" (.css e), fun verbose => crashed_eq_after ..⟩

theorem logs_compile (disk : Disk) (source : SourceFile) (output : Option String) (width : Nat)
    (strict : Bool) (verbose : Bool) :
    Logs (Request.log (.run verbose (.compile source output width strict))) fun verbose =>
      compile disk verbose source output width strict := by
  unfold Request.log compile
  dsimp only
  cases Indent.ofWidth width with
  | error e => exact logs_nil _
  | ok indent => exact logs_compileWith disk source output { indent, strict }

/-- The log is the same for the same request, whether it is asked for or not. -/
theorem logs_answer (disk : Disk) {arguments : List String} {r : Except Refusal Request}
    {loud : Bool} (h : Usage.read disk arguments = r.map (Request.logging loud)) :
    Logs (log disk arguments) fun verbose => answer disk (r.map (Request.logging verbose)) := by
  unfold log
  rw [h]
  cases r with
  | error e => exact logs_nil (answer disk (.error e))
  | ok request =>
    cases request with
    | run v command =>
      cases command with
      | check source => exact logs_check source
      | compile source output width strict =>
        exact logs_compile disk source output width strict v
    | _ => exact logs_nil _

end Run

open LogEvent

/-! ## Runs without warnings -/

/-- The command checks, or its arguments do not say that it is to compile in spite of findings. -/
def Usage.IsStrict (command : String) (rest : List String) : Prop :=
  command = "check" ∨ ∀ given operands, compileOptions.Writes true rest given operands →
    (Settings.of given).strict = true

section Calls

variable {disk : Disk} {command : String} {rest quiet loud : List String}

/-- A command line that calls a command is read as one request, with the log or without. -/
theorem exists_request (disk : Disk) (hcommand : command ∈ Usage.commands) (rest : List String) :
    ∃ r : Except Refusal Request, ∀ verbose arguments,
      Usage.Calls command rest verbose arguments →
        Usage.read disk arguments = r.map (Request.logging verbose) := by
  simp only [Usage.commands, List.mem_cons, List.not_mem_nil, or_false] at hcommand
  rcases hcommand with rfl | rfl
  · refine ⟨Usage.readCheck disk false rest, fun verbose arguments h => ?_⟩
    rw [h.read_check, Usage.readCheck_logging]
  · refine ⟨Usage.readCompile disk false rest, fun verbose arguments h => ?_⟩
    rw [h.read_compile, Usage.readCompile_logging]

theorem exists_outcome (disk : Disk) (hcommand : command ∈ Usage.commands)
    (hquiet : Usage.Calls command rest false quiet) (hloud : Usage.Calls command rest true loud) :
    ∃ o : Outcome, run disk quiet = o.after (Run.logText false (Run.log disk loud)) ∧
      run disk loud = o.after (Run.logText true (Run.log disk loud)) := by
  obtain ⟨r, hr⟩ := exists_request disk hcommand rest
  obtain ⟨o, ho⟩ := Run.logs_answer disk (hr true loud hloud)
  refine ⟨o, ?_, ?_⟩
  · rw [run_eq_answer, hr false quiet hquiet]
    exact ho false
  · rw [run_eq_answer, hr true loud hloud]
    exact ho true

theorem warnings_runCheckLog (source : SourceFile) :
    (Run.checkLog source).filter isWarning = [] := by
  unfold Run.checkLog
  repeat' split
  all_goals rfl

theorem warnings_compileLog (source : SourceFile) {config : Config}
    (hstrict : config.strict = true) : (Run.compileLog source config).filter isWarning = [] := by
  unfold Run.compileLog
  split
  · rfl
  · exact warnings_of_strict hstrict _

/-- A compilation that is asked for strictly is strict. -/
theorem strict_of_read {verbose strict : Bool} {source : SourceFile} {output : Option String}
    {width : Nat} (hcommand : command ∈ Usage.commands)
    (hloud : Usage.Calls command rest true loud) (hstrict : Usage.IsStrict command rest)
    (hread : Usage.read disk loud = .ok (.run verbose (.compile source output width strict))) :
    strict = true := by
  simp only [Usage.commands, List.mem_cons, List.not_mem_nil, or_false] at hcommand
  rcases hcommand with rfl | rfl
  · rw [hloud.read_check] at hread
    rcases Usage.readCheck_eq_ok hread with h | ⟨source', h⟩ <;> cases h
  · rw [hloud.read_compile] at hread
    rcases Usage.readCompile_eq_ok hread with ⟨h, -⟩ | ⟨settings, source', width', hcompiles, h⟩
    · cases h
    · cases h
      obtain ⟨given, hwrites, -, rfl⟩ := hcompiles.written
      exact hstrict.elim (fun h => absurd h (by decide)) fun h => h given _ hwrites

theorem warnings_of_isStrict (disk : Disk) (hcommand : command ∈ Usage.commands)
    (hloud : Usage.Calls command rest true loud) (hstrict : Usage.IsStrict command rest) :
    (Run.log disk loud).filter isWarning = [] := by
  unfold Run.log
  split
  · rfl
  · next request hread =>
    unfold Request.log
    split
    · exact warnings_runCheckLog _
    · split
      · rfl
      · exact warnings_compileLog _ (strict_of_read hcommand hloud hstrict hread)
    all_goals rfl

end Calls

/-- **The log is all that is added.** With the log and without it, a command comes to the same exit
status, the same standard output and the same file to write. With it the error stream shows the
lines of the log in order, then what the command says; without it, the bare messages of the
warnings in the log, then the same. So if there are no warnings, and there are none in a check or a
strict compilation, then the log stands before the whole error stream of the run without it. -/
theorem verbose_adds_log {disk : Disk} {command : String} {rest quiet loud : List String}
    (hcommand : command ∈ Usage.commands) (hquiet : Usage.Calls command rest false quiet)
    (hloud : Usage.Calls command rest true loud) :
    let q := run disk quiet
    let l := run disk loud
    let events := Run.log disk loud
    (l.exit = q.exit ∧ l.stdout = q.stdout ∧ l.written = q.written ∧ l.crash = q.crash) ∧
    (∃ said,
      l.stderr = Run.lines (events.map LogEvent.line) ++ said ∧
      q.stderr = Run.lines ((events.filter isWarning).map LogEvent.message) ++ said) ∧
    (Usage.IsStrict command rest → events.filter isWarning = []) ∧
    (events.filter isWarning = [] →
      l.stderr = Run.lines (events.map LogEvent.line) ++ q.stderr) := by
  intro q l events
  obtain ⟨o, hq, hl⟩ := exists_outcome disk hcommand hquiet hloud
  have hquiet' : q.stderr = Run.lines ((events.filter isWarning).map LogEvent.message) ++
      o.stderr := congrArg Outcome.stderr hq
  have hloud' : l.stderr = Run.lines (events.map LogEvent.line) ++ o.stderr :=
    congrArg Outcome.stderr hl
  refine ⟨?_, ⟨o.stderr, hloud', hquiet'⟩, warnings_of_isStrict disk hcommand hloud,
    fun hnone => ?_⟩
  · rw [show q = _ from hq, show l = _ from hl]
    exact ⟨rfl, rfl, rfl, rfl⟩
  · rw [hnone] at hquiet'
    rw [hloud', hquiet']
    exact congrArg _ (String.empty_append).symm

/-- A check of a file that does not pass. -/
theorem verbose_adds_log_check :
    let disk : Disk := { entries := [(["a.icss"], .file "p \x7b width: y; \x7d".toUTF8)] }
    (run disk ["-v", "check", "a.icss"]).stderr =
      "DEBUG icss.validation.checker: Checked stylesheet: 1 diagnostic(s)\n" ++
        (run disk ["check", "a.icss"]).stderr := by
  intro disk
  have hquiet : Usage.Calls "check" ["a.icss"] false ["check", "a.icss"] :=
    Usage.calls_quiet (by simp [IsOperand]) _
  have hloud : Usage.Calls "check" ["a.icss"] true ["-v", "check", "a.icss"] :=
    Usage.calls_loud (by simp [IsOperand]) _
  have hwrites : Usage.checkOptions.Writes true ["a.icss"] [] ["a.icss"] :=
    .operand rfl (by simp [IsOperand]) .nil
  have hread : Usage.readCheck disk true ["a.icss"] =
      .ok (.run true (.check ⟨"a.icss", "p \x7b width: y; \x7d".toUTF8⟩)) := by
    unfold Usage.readCheck Usage.readArguments
    rw [hwrites.read Usage.checkOptions_proper]
    rfl
  have hlog : Run.log disk ["-v", "check", "a.icss"] = [.checked 1] := by
    unfold Run.log
    rw [hloud.read_check, hread]
    decide +kernel
  have hcommand : "check" ∈ Usage.commands := List.mem_cons_self
  obtain ⟨-, -, hstrict, hstderr⟩ := verbose_adds_log hcommand hquiet hloud
  rw [hstderr (hstrict (.inl rfl)), hlog]
  rfl

/-- Without the log a warning is shown bare, and with it only as a line of the log. -/
theorem warnings_shown_bare :
    let disk : Disk := { entries := [(["a.icss"], .file "p \x7b width: y; \x7d".toUTF8)] }
    let quiet := ["compile", "--no-strict", "a.icss"]
    let loud := ["-v", "compile", "--no-strict", "a.icss"]
    (run disk loud).stderr ≠
      Run.lines ((Run.log disk loud).map LogEvent.line) ++ (run disk quiet).stderr := by
  intro disk quiet loud
  have hquiet : Usage.Calls "compile" ["--no-strict", "a.icss"] false quiet :=
    Usage.calls_quiet (by simp [IsOperand]) _
  have hloud : Usage.Calls "compile" ["--no-strict", "a.icss"] true loud :=
    Usage.calls_loud (by simp [IsOperand]) _
  have hwrites : Usage.compileOptions.Writes true ["--no-strict", "a.icss"] [(.lenient, "")]
      ["a.icss"] :=
    .option (.flag rfl rfl) (.operand rfl (by simp [IsOperand]) .nil)
  have hread : ∀ verbose, Usage.readCompile disk verbose ["--no-strict", "a.icss"] =
      .ok (.run verbose
        (.compile ⟨"a.icss", "p \x7b width: y; \x7d".toUTF8⟩ none 2 false)) := by
    intro verbose
    unfold Usage.readCompile Usage.readArguments
    rw [hwrites.read Usage.compileOptions_proper]
    rfl
  unfold Run.log
  rw [run_eq_answer, run_eq_answer, hquiet.read_compile, hloud.read_compile, hread, hread]
  decide +kernel

end StyleLang
