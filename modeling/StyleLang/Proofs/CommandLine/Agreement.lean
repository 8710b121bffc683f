import StyleLang.Proofs.CommandLine.Requests
import StyleLang.Proofs.Compile.Endings
import StyleLang.Proofs.Compile.Logging
import StyleLang.Proofs.Compile.Messages

/-!
# What the two commands agree on

One command checks a file and the other one compiles it. Main statement: on a file of text both come
to the same verdict, with the same words for the same reasons.
-/

namespace StyleLang

/-! ## Files on a command line -/

/-- At the path there is a file, and its bytes are the text. -/
structure Disk.HasText (disk : Disk) (path text : String) : Prop where
  plain : hasNul path = false
  file : ∃ key bytes, disk.locate path = .file key bytes ∧ Run.decode bytes = some text

/-- The arguments of a command that name a file and give no options. -/
inductive Arguments.Name (path : String) : List String → Prop where
  | operand (h : ∀ c cs, path.toList ≠ '-' :: c :: cs) : Name path [path]
  | afterDashes : Name path ["--", path]

namespace OptionTable

variable {κ : Type} {table : OptionTable κ} {arguments : List String}

theorem read_of_name {path : String} (h : Arguments.Name path arguments) :
    table.read true arguments = .ok { operands := [path] } := by
  cases h with
  | operand h =>
    rw [read_operand h, if_pos rfl, read]
    rfl
  | afterDashes =>
    rw [read]
    rfl

end OptionTable

namespace Usage

variable {disk : Disk} {path text : String} {arguments : List String}

theorem readSource_of_hasText (h : disk.HasText path text) :
    ∃ bytes, readSource disk [path] = .ok { path, bytes } ∧ Run.decode bytes = some text := by
  obtain ⟨hnul, key, bytes, hlocate, hdecode⟩ := h
  refine ⟨bytes, ?_, hdecode⟩
  unfold readSource
  simp [hnul, hlocate]

end Usage

/-! ## The two commands on a file -/

section Commands

variable {disk : Disk} {path text : String} {arguments : List String} {sheet : Stylesheet}
  {findings : List Finding}

theorem run_check (hfile : disk.HasText path text) (hname : Arguments.Name path arguments) :
    ∃ bytes, Run.decode bytes = some text ∧
      run disk ("check" :: arguments) = Run.check false { path, bytes } := by
  obtain ⟨bytes, hsource, hdecode⟩ := Usage.readSource_of_hasText hfile
  refine ⟨bytes, hdecode, ?_⟩
  rw [run_eq_answer, (Usage.calls_quiet (by simp [IsOperand]) arguments).read_check]
  unfold Usage.readCheck Usage.readArguments
  rw [OptionTable.read_of_name hname]
  simp only [bind, Except.bind, List.isEmpty_nil, if_true, hsource]
  rfl

theorem run_compile (hfile : disk.HasText path text) (hname : Arguments.Name path arguments) :
    ∃ bytes, Run.decode bytes = some text ∧
      run disk ("compile" :: arguments) = Run.compileWith disk false { path, bytes } none {} := by
  obtain ⟨bytes, hsource, hdecode⟩ := Usage.readSource_of_hasText hfile
  refine ⟨bytes, hdecode, ?_⟩
  rw [run_eq_answer, (Usage.calls_quiet (by simp [IsOperand]) arguments).read_compile]
  unfold Usage.readCompile Usage.readArguments
  rw [OptionTable.read_of_name hname]
  simp only [bind, Except.bind, hsource]
  rfl

theorem check_of_unread (hfile : disk.HasText path text) (hname : Arguments.Name path arguments)
    {reason : ReadError} (h : Stylesheet.parse text = .error reason) :
    run disk ("check" :: arguments) = Run.unreadable reason := by
  obtain ⟨bytes, hdecode, hrun⟩ := run_check hfile hname
  rw [hrun, Run.check, hdecode]
  simp only [h]

theorem check_of_read (hfile : disk.HasText path text) (hname : Arguments.Name path arguments)
    (h : Stylesheet.parse text = .ok sheet) (hcheck : sheet.check = .ok findings) :
    run disk ("check" :: arguments) = Run.checked path findings := by
  obtain ⟨bytes, hdecode, hrun⟩ := run_check hfile hname
  rw [hrun, Run.check, hdecode]
  simp only [h, hcheck]
  unfold Run.checked
  split <;> rfl

theorem build_of_unread (hfile : disk.HasText path text)
    (hname : Arguments.Name path arguments) {reason : ReadError}
    (h : Stylesheet.parse text = .error reason) :
    run disk ("compile" :: arguments) = Run.unreadable reason := by
  obtain ⟨bytes, hdecode, hrun⟩ := run_compile hfile hname
  rw [hrun, Run.compileWith, hdecode]
  simp only [compile_of_unread h]

/-- Without warnings there is nothing of the log to see. -/
theorem logText_of_no_warning {log : List LogEvent} (h : log.filter LogEvent.isWarning = []) :
    Run.logText false log = "" := by
  have hmessages : (log.filter fun e => decide (e.level = .warning)) = [] := h
  unfold Run.logText
  rw [if_neg Bool.false_ne_true, hmessages]
  rfl

theorem build_of_rejected (hfile : disk.HasText path text)
    (hname : Arguments.Name path arguments) (h : Stylesheet.parse text = .ok sheet)
    (hcheck : sheet.check = .ok findings) (hfound : findings ≠ []) :
    run disk ("compile" :: arguments) =
      { exit := 1
        stderr := Run.lines (findings.map Finding.text ++
          [s!"Compilation failed: {findings.length} error(s)"]) } := by
  obtain ⟨bytes, hdecode, hrun⟩ := run_compile hfile hname
  have hlog := logText_of_no_warning (warnings_checkLog sheet findings)
  have hrejected : StyleLang.compile {} text =
      ⟨sheet.checkLog findings, .error (.rejected findings)⟩ :=
    (compile_of_parse h).trans (Stylesheet.compile_of_rejected hcheck rfl hfound)
  rw [hrun, Run.compileWith, hdecode]
  simp only [hrejected, hlog, String.empty_append]

/-- A file without findings is compiled, or a number has become too long to be printed. -/
theorem build_of_accepted (hfile : disk.HasText path text)
    (hname : Arguments.Name path arguments) (h : Stylesheet.parse text = .ok sheet)
    (hcheck : sheet.check = .ok []) :
    (∃ css, run disk ("compile" :: arguments) = { stdout := css }) ∨
      ∃ reason, run disk ("compile" :: arguments) = Run.crashed "" (.css reason) := by
  obtain ⟨bytes, hdecode, hrun⟩ := run_compile hfile hname
  obtain ⟨e, heval, -⟩ := Stylesheet.evaluate_of_parse h
  have hwarnings : (StyleLang.compile {} text).log.filter LogEvent.isWarning = [] :=
    warnings_of_strict rfl text
  have hpasses : Passes {} text sheet := ⟨h, [], hcheck, fun _ => rfl⟩
  rw [hrun, Run.compileWith, hdecode]
  simp only [logText_of_no_warning hwarnings, hpasses.result heval]
  cases e.stylesheet.css ({} : Config).indent with
  | error reason => exact .inr ⟨reason, rfl⟩
  | ok css => exact .inl ⟨css, rfl⟩

end Commands

/-! ## Verdicts -/

/-- The reason is in the grammar of the source, and not in a number that is too long. -/
def ReadError.IsParseError : ReadError → Prop
  | .build (.numberTooLong _ _) => False
  | _ => True

namespace Outcome

/-- The run fails with the message of a parse error and says nothing else. -/
def IsParseError (o : Outcome) : Prop :=
  ∃ message, o = { exit := 1, stderr := Run.lines ["Parse error: " ++ message] }

/-- The run breaks off at a number that is too long to be read. -/
def IsOverlongNumber (o : Outcome) : Prop :=
  ∃ m n, o = Run.crashed "" (.build (.numberTooLong m n))

/-- The run refuses a source with errors, after some lines about them. -/
def IsRejection (o : Outcome) : Prop :=
  ∃ (shown : List String) (n : Nat), o =
    { exit := 1, stderr := Run.lines (shown ++ [s!"Compilation failed: {n} error(s)"]) }

/-- The run fails at the source. -/
def Fails (o : Outcome) : Prop := o.IsParseError ∨ o.IsOverlongNumber ∨ o.IsRejection

theorem Fails.inv {o : Outcome} (h : o.Fails) :
    o.exit = 1 ∧ ∀ reason, o.crash ≠ some (.css reason) := by
  rcases h with ⟨message, rfl⟩ | ⟨m, n, rfl⟩ | ⟨shown, n, rfl⟩
  · exact ⟨rfl, fun reason => by simp⟩
  · exact ⟨rfl, fun reason => by simp [Run.crashed]⟩
  · exact ⟨rfl, fun reason => by simp⟩

end Outcome

namespace Run

theorem isParseError_unreadable {reason : ReadError} (h : reason.IsParseError) :
    (unreadable reason).IsParseError := by
  cases reason with
  | grammar e => exact ⟨_, rfl⟩
  | build e =>
    cases e with
    | hyphenatedName name place => exact ⟨_, rfl⟩
    | numberTooLong m n => exact h.elim

theorem fails_unreadable (reason : ReadError) : (unreadable reason).Fails := by
  cases reason with
  | grammar e => exact .inl (isParseError_unreadable trivial)
  | build e =>
    cases e with
    | hyphenatedName name place => exact .inl (isParseError_unreadable trivial)
    | numberTooLong m n => exact .inr (.inl ⟨m, n, rfl⟩)

theorem checked_of_found {findings : List Finding} (path : String) (h : findings ≠ []) :
    checked path findings =
      { exit := 1
        stdout := lines (findings.map Finding.text ++
          ["", s!"Summary: {findings.length} error(s)"]) } := by
  cases findings with
  | nil => exact absurd rfl h
  | cons f fs => rfl

end Run

section Verdicts

variable {disk : Disk} {path text : String} {arguments : List String}

theorem not_fails_of_accepted {sheet : Stylesheet} (hfile : disk.HasText path text)
    (hname : Arguments.Name path arguments) (h : Stylesheet.parse text = .ok sheet)
    (hcheck : sheet.check = .ok []) : ¬ (run disk ("compile" :: arguments)).Fails := by
  intro hfails
  obtain ⟨hexit, hcrash⟩ := hfails.inv
  rcases build_of_accepted hfile hname h hcheck with ⟨css, hcompiled⟩ | ⟨reason, hcompiled⟩
  · exact absurd ((congrArg Outcome.exit hcompiled).symm.trans hexit) Nat.zero_ne_one
  · exact hcrash reason (congrArg Outcome.crash hcompiled)

/-- The check succeeds exactly if the compilation does not fail at the source. -/
theorem check_succeeds_iff (hfile : disk.HasText path text)
    (hname : Arguments.Name path arguments) :
    (run disk ("check" :: arguments)).exit = 0 ↔ ¬ (run disk ("compile" :: arguments)).Fails := by
  cases h : Stylesheet.parse text with
  | error reason =>
    have hfails := Run.fails_unreadable reason
    rw [check_of_unread hfile hname h, build_of_unread hfile hname h, hfails.inv.1]
    exact iff_of_false Nat.one_ne_zero (not_not_intro hfails)
  | ok sheet =>
    obtain ⟨findings, hcheck⟩ := Stylesheet.check_of_parse h
    rw [check_of_read hfile hname h hcheck]
    by_cases hfound : findings = []
    · subst hfound
      exact iff_of_true rfl (not_fails_of_accepted hfile hname h hcheck)
    · have hfails : (run disk ("compile" :: arguments)).Fails :=
        .inr (.inr ⟨_, _, build_of_rejected hfile hname h hcheck hfound⟩)
      rw [Run.checked_of_found path hfound]
      exact iff_of_false Nat.one_ne_zero (not_not_intro hfails)

end Verdicts

/-- **The two commands agree.** On a file of text the check succeeds exactly if the compilation
fails neither at the grammar, nor at a number that is too long to be read, nor for what the check
finds. At the grammar both fail with the same message. If the check finds something, both fail; the
check says it in lines before a blank one and a summary, and the compilation says it in the same
lines, in the same order, before a last one with the same count. -/
theorem commands_agree {disk : Disk} {path text : String} {arguments : List String}
    (hfile : disk.HasText path text) (hname : Arguments.Name path arguments) :
    let checked := run disk ("check" :: arguments)
    let compiled := run disk ("compile" :: arguments)
    (checked.exit = 0 ↔ ¬ compiled.Fails) ∧
    (∀ reason, Stylesheet.parse text = .error reason → reason.IsParseError →
      checked.IsParseError ∧ compiled = checked) ∧
    ∀ sheet findings, Stylesheet.parse text = .ok sheet → sheet.check = .ok findings →
      findings ≠ [] →
      (∀ line ∈ findings.map Finding.text, line ≠ "" ∧ IsOneLine line) ∧
      checked =
        { exit := 1
          stdout := Run.lines (findings.map Finding.text ++
            ["", s!"Summary: {findings.length} error(s)"]) } ∧
      compiled =
        { exit := 1
          stderr := Run.lines (findings.map Finding.text ++
            [s!"Compilation failed: {findings.length} error(s)"]) } := by
  intro checked compiled
  refine ⟨check_succeeds_iff hfile hname, fun reason h hreason => ?_,
    fun sheet findings h hcheck hfound => ?_⟩
  · have hchecked : checked = Run.unreadable reason := check_of_unread hfile hname h
    have hcompiled : compiled = Run.unreadable reason := build_of_unread hfile hname h
    rw [hchecked, hcompiled]
    exact ⟨Run.isParseError_unreadable hreason, rfl⟩
  · refine ⟨fun line hline => ?_, ?_, build_of_rejected hfile hname h hcheck hfound⟩
    · obtain ⟨f, hf, rfl⟩ := List.mem_map.1 hline
      exact ⟨f.text_ne_empty, Stylesheet.isOneLine_of_check h hcheck f hf⟩
    · exact (check_of_read hfile hname h hcheck).trans (Run.checked_of_found path hfound)

/-- A name that stands for nothing, in a file with another kind of line end. -/
theorem commands_agree_unknown :
    let text := "p \x7b width: B; \x7d\n"
    let disk : Disk :=
      { entries := [(["a.icss"], .file "p \x7b width: B; \x7d\r\n".toUTF8)] }
    disk.HasText "a.icss" text ∧ Arguments.Name "a.icss" ["a.icss"] ∧
      run disk ["check", "a.icss"] =
        { exit := 1
          stdout := "ERROR [line 1:12]: unknown variable: B\n\nSummary: 1 error(s)\n" } ∧
      run disk ["compile", "a.icss"] =
        { exit := 1
          stderr :=
            "ERROR [line 1:12]: unknown variable: B\nCompilation failed: 1 error(s)\n" } := by
  intro text disk
  have hfile : disk.HasText "a.icss" text := ⟨by decide, _, _, rfl, by decide +kernel⟩
  have hname : Arguments.Name "a.icss" ["a.icss"] := .operand (by simp)
  have hfound : (match Stylesheet.parse text with
      | .ok sheet =>
        match sheet.check with
        | .ok findings => decide
          (findings.map Finding.text = ["ERROR [line 1:12]: unknown variable: B"])
        | .error _ => false
      | .error _ => false) = true := by decide +kernel
  split at hfound
  · next sheet hsheet =>
    split at hfound
    · next findings hcheck =>
      have htexts := of_decide_eq_true hfound
      have hlength : findings.length = 1 := by
        rw [← List.length_map Finding.text, htexts]
        rfl
      have hne : findings ≠ [] := by
        rintro rfl
        cases hlength
      obtain ⟨-, -, hcommands⟩ := commands_agree hfile hname
      obtain ⟨-, hchecked, hcompiled⟩ := hcommands sheet findings hsheet hcheck hne
      rw [htexts, hlength] at hchecked hcompiled
      exact ⟨hfile, hname, hchecked, hcompiled⟩
    · cases hfound
  · cases hfound

end StyleLang
