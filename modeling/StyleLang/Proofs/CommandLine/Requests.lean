import StyleLang.CommandLine.Run
import StyleLang.Proofs.CommandLine.Options

/-!
# What a command is asked for

A command line calls a command if before the name of the command there are only options for the log.
The arguments of a compilation give settings, of which the last word counts, and name the source.
Main statements: a command line that calls a command is read as the same request with the log and
without it, and one that calls the compilation is refused, asks for help or compiles what its
arguments say.
-/

namespace StyleLang

/-- The file is on the disk, at its path. -/
def Disk.Holds (disk : Disk) (source : SourceFile) : Prop :=
  hasNul source.path = false ∧ ∃ key, disk.locate source.path = .file key source.bytes

/-- The same request, but the log is asked for or not. -/
def Request.logging (verbose : Bool) : Request → Request
  | .run _ command => .run verbose command
  | request => request

/-- What a run does once the command line is read. -/
def Run.answer (disk : Disk) : Except Refusal Request → Outcome
  | .ok request => Run.request disk request
  | .error (.usage e) => { exit := 2, stderr := e.line }
  | .error (.path e) => Run.crashed "" (.path e)

theorem run_eq_answer (disk : Disk) (arguments : List String) :
    run disk arguments = Run.answer disk (Usage.read disk arguments) := rfl

namespace Usage

/-! ## Settings of a compilation -/

/-- What the options of a compilation say, if they do not ask for help. -/
structure Settings where
  output : Option String := none
  indent : Option String := none
  strict : Bool := true

namespace Settings

/-- One more option is given. -/
def take (s : Settings) : CompileOption × String → Settings
  | (.output, value) => { s with output := some value }
  | (.indent, value) => { s with indent := some value }
  | (.strict, _) => { s with strict := true }
  | (.lenient, _) => { s with strict := false }
  | (.help, _) => s

/-- The options are given one after the other. -/
def of (given : List (CompileOption × String)) : Settings := given.foldl take {}

theorem of_eq (given : List (CompileOption × String)) :
    of given =
      { output := lastValue .output given
        indent := lastValue .indent given
        strict := isStrict given } := by
  unfold of lastValue isStrict
  dsimp only
  rw [List.foldl_eq_foldr_reverse]
  induction given.reverse with
  | nil => rfl
  | cons option before ih =>
    rw [List.foldr_cons, ih]
    obtain ⟨key, value⟩ := option
    cases key <;> rfl

end Settings

/-! ## The tables of options -/

theorem mainOptions_proper : mainOptions.Proper := by
  refine OptionTable.proper_of_mem fun option hoption => ?_
  simp only [mainOptions, List.mem_cons, List.not_mem_nil, or_false] at hoption
  rcases hoption with rfl | rfl | rfl <;> exact ⟨_, _, rfl, by decide⟩

theorem checkOptions_proper : checkOptions.Proper := by
  refine OptionTable.proper_of_mem fun option hoption => ?_
  rw [List.mem_singleton.1 hoption]
  exact ⟨_, _, rfl, by decide⟩

theorem compileOptions_proper : compileOptions.Proper := by
  refine OptionTable.proper_of_mem fun option hoption => ?_
  simp only [compileOptions, List.mem_cons, List.not_mem_nil, or_false] at hoption
  rcases hoption with rfl | rfl | rfl | rfl | rfl <;> exact ⟨_, _, rfl, by decide⟩

/-! ## Calls -/

/-- The command line calls a command with arguments, after options for the log or none. -/
def Calls (command : String) (rest : List String) (verbose : Bool) (arguments : List String) :
    Prop :=
  ∃ given, mainOptions.Writes false arguments given (command :: rest) ∧
    (∀ option ∈ given, option.1 = .verbose) ∧ verbose = !given.isEmpty

section Calls

variable {disk : Disk} {command : String} {rest arguments : List String} {verbose : Bool}

theorem calls_quiet (h : IsOperand command) (rest : List String) :
    Calls command rest false (command :: rest) :=
  ⟨[], .operands rfl h, by simp, rfl⟩

theorem calls_loud (h : IsOperand command) (rest : List String) :
    Calls command rest true ("-v" :: command :: rest) :=
  ⟨[(.verbose, "")], .option (.short (by decide) (.flag rfl rfl (.nil _))) (.operands rfl h),
    by simp, rfl⟩

theorem Calls.readArguments (h : Calls command rest verbose arguments) :
    ∃ given, Usage.readArguments mainOptions false arguments =
        .ok { given, operands := command :: rest } ∧
      textRequest? given = none ∧ verbose = !given.isEmpty := by
  obtain ⟨given, hwrites, hverbose, hgiven⟩ := h
  refine ⟨given, ?_, List.findSome?_eq_none_iff.2 fun option hoption => ?_, hgiven⟩
  · unfold Usage.readArguments
    rw [hwrites.read mainOptions_proper]
  · rw [hverbose option hoption]

theorem Calls.read_check (h : Calls "check" rest verbose arguments) :
    Usage.read disk arguments = readCheck disk verbose rest := by
  obtain ⟨given, hread, htext, rfl⟩ := h.readArguments
  unfold Usage.read
  simp only [hread, htext, bind, Except.bind]

theorem Calls.read_compile (h : Calls "compile" rest verbose arguments) :
    Usage.read disk arguments = readCompile disk verbose rest := by
  obtain ⟨given, hread, htext, rfl⟩ := h.readArguments
  unfold Usage.read
  simp only [hread, htext, bind, Except.bind]

end Calls

/-! ## Requests -/

variable {disk : Disk} {rest : List String}

theorem readCheck_logging (disk : Disk) (rest : List String) (verbose : Bool) :
    readCheck disk verbose rest = (readCheck disk false rest).map (Request.logging verbose) := by
  unfold readCheck
  simp only [bind, Except.bind]
  split
  · rfl
  · split
    · split <;> rfl
    · rfl

theorem readCompile_logging (disk : Disk) (rest : List String) (verbose : Bool) :
    readCompile disk verbose rest =
      (readCompile disk false rest).map (Request.logging verbose) := by
  unfold readCompile
  simp only [bind, Except.bind]
  split
  · rfl
  · split
    · rfl
    · split
      · rfl
      · split <;> rfl

theorem readCheck_eq_ok {verbose : Bool} {request : Request}
    (h : readCheck disk verbose rest = .ok request) :
    request = .checkHelp ∨ ∃ source, request = .run verbose (.check source) := by
  unfold readCheck at h
  simp only [bind, Except.bind] at h
  split at h
  · cases h
  · split at h
    · split at h
      · cases h
      · next source _ => exact .inr ⟨source, (Except.ok.inj h).symm⟩
    · exact .inl (Except.ok.inj h).symm

/-- The arguments of a compilation ask for help. -/
def AsksForHelp (rest : List String) : Prop :=
  ∃ given operands, compileOptions.Writes true rest given operands ∧
    ∃ option ∈ given, option.1 = .help

/-- There is no asking for help without the word. -/
theorem AsksForHelp.word (h : AsksForHelp rest) : "--help" ∈ rest := by
  obtain ⟨given, operands, hwrites, hgiven⟩ := h
  have hshort : ∀ c, compileOptions.short.lookup c ≠ some .help := fun c hc => by
    simpa [compileOptions] using mem_of_lookup hc
  obtain ⟨name, hname, hlong⟩ := hwrites.name_mem hshort rfl hgiven
  have hmem := mem_of_lookup hlong
  simp only [compileOptions, List.mem_cons, List.not_mem_nil, or_false, Prod.mk.injEq,
    reduceCtorEq, and_false, and_true, false_or] at hmem
  rwa [← hmem]

/-- The arguments of a compilation give settings and name one source. -/
structure Compiles (disk : Disk) (rest : List String) (settings : Settings) (source : SourceFile)
    (width : Nat) : Prop where
  written : ∃ given, compileOptions.Writes true rest given [source.path] ∧
    (∀ option ∈ given, option.1 ≠ .help) ∧ settings = .of given
  holds : disk.Holds source
  width : readIndent settings.indent = .ok width

theorem holds_of_readSource {operands : List String} {source : SourceFile}
    (h : readSource disk operands = .ok source) :
    operands = [source.path] ∧ disk.Holds source := by
  unfold readSource at h
  split at h
  · cases h
  · next path more =>
    split at h
    · cases h
    · next hnul =>
      split at h
      · cases h
      · cases h
      · cases h
      · cases h
      · next key bytes hlocate =>
        split at h
        · next hmore =>
          obtain rfl := List.isEmpty_iff.1 hmore
          cases h
          exact ⟨rfl, Bool.eq_false_iff.2 hnul, key, hlocate⟩
        · cases h

theorem readCompile_eq_ok {verbose : Bool} {request : Request}
    (h : readCompile disk verbose rest = .ok request) :
    (request = .compileHelp ∧ AsksForHelp rest) ∨
      ∃ settings source width, Compiles disk rest settings source width ∧
        request = .run verbose (.compile source settings.output width settings.strict) := by
  unfold readCompile Usage.readArguments at h
  simp only [bind, Except.bind] at h
  cases hread : compileOptions.read true rest with
  | error e =>
    rw [hread] at h
    cases h
  | ok a =>
    rw [hread] at h
    have hwrites := (OptionTable.read_eq_ok_iff compileOptions_proper).1 hread
    dsimp only at h
    split at h
    · next hhelp =>
      cases h
      obtain ⟨option, hoption, hkey⟩ := List.any_eq_true.1 hhelp
      exact .inl ⟨rfl, a.given, a.operands, hwrites, option, hoption, of_decide_eq_true hkey⟩
    · next hhelp =>
      split at h
      · cases h
      · next width hwidth =>
        split at h
        · cases h
        · next source hsource =>
          cases h
          obtain ⟨hoperands, hholds⟩ := holds_of_readSource hsource
          have hof := Settings.of_eq a.given
          refine .inr ⟨.of a.given, source, width, ⟨⟨a.given, ?_, ?_, rfl⟩, hholds, ?_⟩, ?_⟩
          · rw [← hoperands]
            exact hwrites
          · intro option hoption hkey
            exact hhelp (List.any_eq_true.2 ⟨option, hoption, decide_eq_true hkey⟩)
          · rw [hof]
            exact hwidth
          · rw [hof]

end Usage

end StyleLang
