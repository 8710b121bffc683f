import StyleLang.Proofs.CommandLine.Requests
import StyleLang.Proofs.CommandLine.Storing
import StyleLang.Proofs.Compile.Endings
import StyleLang.Proofs.Css.Characters

/-!
# All of the CSS or nothing

A compilation has its CSS as a whole before it writes any of it, and CSS has no characters that
could not be written. Main statement: a run that fails changes no file, and a run that succeeds has
put all of the CSS either out or into one file.
-/

namespace StyleLang

/-! ## The characters of CSS -/

theorem Indent.isAscii {width : Nat} {indent : String} (h : Indent.ofWidth width = .ok indent) :
    IsAscii indent := by
  intro c hc
  rw [(Indent.ofWidth_eq_ok_iff.1 h).2] at hc
  rw [List.eq_of_mem_replicate hc]
  decide

/-- The CSS of any source is in ASCII, if the indent is. -/
theorem isAscii_of_compile {config : Config} {text css : String} (hindent : IsAscii config.indent)
    (h : (compile config text).result = .ok css) : IsAscii css := by
  obtain ⟨ending, hof, hends⟩ := exists_ending config text
  rw [h] at hof
  obtain rfl := Option.some.inj hof
  cases hends with
  | css hpasses heval _ hcss =>
    obtain ⟨e, heval', hflat⟩ := Stylesheet.evaluate_of_parse hpasses.parse
    obtain rfl := Except.ok.inj (heval.symm.trans heval')
    exact Css.isAscii_css hflat hindent hcss

/-! ## What becomes of the CSS -/

/-- All of the CSS is delivered: to the standard output if no file is named or the name is empty,
and else to the file, beside which nothing changes. It is the file that the path led to, if there
was one. -/
inductive Delivered (disk : Disk) (css : String) (o : Outcome) : Option String → Prop where
  | out {output : Option String} : output = none ∨ output = some "" →
    o.stdout = css → o.leaves disk = disk → Delivered disk css o output
  | file {path : String} {key : List String} : path ≠ "" → disk.writable path = .ok key →
    o.stdout = "" → (o.leaves disk).find key = .file key css.toUTF8 →
    (∀ other, other ≠ key → (o.leaves disk).find other = disk.find other) →
    (disk.Orderly → ∀ found bytes, disk.locate path = .file found bytes → found = key) →
    Delivered disk css o (some path)

/-- The run fails and leaves the disk as it is, or it succeeds with what is said of it. -/
def AllOrNothing (disk : Disk) (o : Outcome) (success : Prop) : Prop :=
  (o.exit ≠ 0 ∧ o.leaves disk = disk) ∨ (o.exit = 0 ∧ success)

theorem AllOrNothing.mono {disk : Disk} {o : Outcome} {P Q : Prop} (h : AllOrNothing disk o P)
    (hmono : P → Q) : AllOrNothing disk o Q :=
  h.imp_right fun hsuccess => ⟨hsuccess.1, hmono hsuccess.2⟩

namespace Run

theorem allOrNothing_crashed (disk : Disk) (stderr : String) (reason : Crash) (success : Prop) :
    AllOrNothing disk (crashed stderr reason) success :=
  .inl ⟨Nat.one_ne_zero, rfl⟩

theorem allOrNothing_unreadable (disk : Disk) (reason : ReadError) (success : Prop) :
    AllOrNothing disk (unreadable reason) success := by
  cases reason with
  | grammar e => exact .inl ⟨Nat.one_ne_zero, rfl⟩
  | build e =>
    cases e with
    | hyphenatedName name place => exact .inl ⟨Nat.one_ne_zero, rfl⟩
    | numberTooLong m n => exact allOrNothing_crashed disk _ _ success

theorem allOrNothing_deliver (disk : Disk) (output : Option String) (log css : String) :
    AllOrNothing disk (deliver disk output log css)
      (Delivered disk css (deliver disk output log css) output) := by
  cases output with
  | none => exact .inr ⟨rfl, .out (.inl rfl) rfl rfl⟩
  | some path =>
    unfold deliver
    dsimp only
    by_cases hpath : path = ""
    · rw [if_pos hpath]
      exact .inr ⟨rfl, .out (.inr (congrArg some hpath)) rfl rfl⟩
    · rw [if_neg hpath]
      cases hkey : disk.writable path with
      | error e => exact allOrNothing_crashed disk _ _ _
      | ok key =>
        exact .inr ⟨rfl, .file hpath hkey rfl (disk.find_put_self key css)
          (fun other hother => Disk.find_put_of_ne hkey hother)
          fun hdisk found bytes hfile => Disk.key_of_writable hdisk hfile hkey⟩

theorem allOrNothing_compileWith (disk : Disk) (verbose : Bool) (source : SourceFile)
    (output : Option String) (config : Config) :
    AllOrNothing disk (compileWith disk verbose source output config)
      (∃ text css, decode source.bytes = some text ∧
        (StyleLang.compile config text).result = .ok css ∧
        Delivered disk css (compileWith disk verbose source output config) output) := by
  unfold compileWith
  split
  · exact allOrNothing_crashed disk _ _ _
  · next text htext =>
    dsimp only
    split
    · next css hcss =>
      exact (allOrNothing_deliver disk output _ css).mono fun h => ⟨text, css, htext, hcss, h⟩
    · exact allOrNothing_unreadable disk _ _
    · exact .inl ⟨Nat.one_ne_zero, rfl⟩
    · exact allOrNothing_crashed disk _ _ _
    · exact allOrNothing_crashed disk _ _ _

theorem allOrNothing_compile (disk : Disk) (verbose : Bool) (source : SourceFile)
    (output : Option String) (width : Nat) (strict : Bool) :
    AllOrNothing disk (compile disk verbose source output width strict)
      (∃ indent text css, indent.toList = List.replicate width ' ' ∧
        decode source.bytes = some text ∧
        (StyleLang.compile { indent, strict } text).result = .ok css ∧ IsAscii css ∧
        Delivered disk css (compile disk verbose source output width strict) output) := by
  unfold compile
  split
  · exact allOrNothing_crashed disk _ _ _
  · next indent hindent =>
    refine (allOrNothing_compileWith disk verbose source output { indent, strict }).mono ?_
    rintro ⟨text, css, htext, hcss, hdelivered⟩
    exact ⟨indent, text, css, (Indent.ofWidth_eq_ok_iff.1 hindent).2, htext, hcss,
      isAscii_of_compile (Indent.isAscii hindent) hcss, hdelivered⟩

end Run

/-- **A compilation writes all or nothing.** The command line calls the compilation and does not ask
for help. If the run fails, it leaves the disk as it is. If it succeeds, the arguments name a source
file, and the CSS of its text, with the indent and the strictness of the arguments, is in ASCII and
delivered as a whole. -/
theorem compile_all_or_nothing {disk : Disk} {rest arguments : List String} {verbose : Bool}
    (hcalls : Usage.Calls "compile" rest verbose arguments) (hhelp : ¬ Usage.AsksForHelp rest) :
    AllOrNothing disk (run disk arguments)
      (∃ settings source width, Usage.Compiles disk rest settings source width ∧
        ∃ indent text css, indent.toList = List.replicate width ' ' ∧
          Run.decode source.bytes = some text ∧
          (compile { indent, strict := settings.strict } text).result = .ok css ∧ IsAscii css ∧
          Delivered disk css (run disk arguments) settings.output) := by
  rw [run_eq_answer, hcalls.read_compile]
  cases hread : Usage.readCompile disk verbose rest with
  | error e =>
    cases e with
    | usage e => exact .inl ⟨Nat.succ_ne_zero 1, rfl⟩
    | path e => exact Run.allOrNothing_crashed disk _ _ _
  | ok request =>
    rcases Usage.readCompile_eq_ok hread with
      ⟨-, hasks⟩ | ⟨settings, source, width, hcompiles, rfl⟩
    · exact absurd hasks hhelp
    · exact (Run.allOrNothing_compile disk verbose source settings.output width
        settings.strict).mono fun h => ⟨settings, source, width, hcompiles, h⟩

/-- The CSS of a file is put in its place. -/
theorem compile_all_or_nothing_onto_itself :
    let disk : Disk :=
      { entries := [(["a.icss"], .file "p \x7b width: 2px; \x7d".toUTF8)] }
    let o := run disk ["compile", "a.icss", "-o", "a.icss"]
    disk.Orderly ∧ o.exit = 0 ∧ o.stdout = "" ∧
      ∃ css, IsAscii css ∧ (o.leaves disk).find ["a.icss"] = .file ["a.icss"] css.toUTF8 := by
  intro disk o
  have hdisk : disk.Orderly := Disk.orderly_of_files fun e he =>
    ⟨"a.icss", _, List.mem_singleton.1 he, by decide⟩
  have hcalls : Usage.Calls "compile" ["a.icss", "-o", "a.icss"] false
      ["compile", "a.icss", "-o", "a.icss"] :=
    Usage.calls_quiet (by simp [IsOperand]) _
  have hwrites : Usage.compileOptions.Writes true ["a.icss", "-o", "a.icss"]
      [(.output, "a.icss")] ["a.icss"] :=
    .operand rfl (by simp [IsOperand]) (.option (.short (by decide) (.apart rfl rfl)) .nil)
  have hread : Usage.readCompile disk false ["a.icss", "-o", "a.icss"] =
      .ok (.run false (.compile ⟨"a.icss", "p \x7b width: 2px; \x7d".toUTF8⟩ (some "a.icss") 2
        true)) := by
    unfold Usage.readCompile Usage.readArguments
    rw [hwrites.read Usage.compileOptions_proper]
    rfl
  have hexit : o.exit = 0 := by
    have ho : o = Run.answer disk (Usage.read disk ["compile", "a.icss", "-o", "a.icss"]) := rfl
    rw [ho, hcalls.read_compile, hread]
    decide +kernel
  have hhelp : ¬ Usage.AsksForHelp ["a.icss", "-o", "a.icss"] := fun h => by
    simpa using h.word
  rcases compile_all_or_nothing hcalls hhelp with
    ⟨hfails, -⟩ | ⟨-, settings, source, width, hcompiles, indent, text, css, -, -, -, hascii,
      hdelivered⟩
  · exact absurd hexit hfails
  · obtain ⟨given, hgiven, -, hsettings⟩ := hcompiles.written
    have hsame := Except.ok.inj ((hgiven.read Usage.compileOptions_proper).symm.trans
      (hwrites.read Usage.compileOptions_proper))
    have houtput : settings.output = some "a.icss" := by
      rw [hsettings, (Arguments.mk.inj hsame).1]
      rfl
    rw [houtput] at hdelivered
    cases hdelivered with
    | out hnone _ _ => simp at hnone
    | file _ hkey hstdout hfile _ _ =>
      have hkey' : disk.writable "a.icss" = .ok ["a.icss"] := by decide
      obtain rfl := Except.ok.inj (hkey.symm.trans hkey')
      exact ⟨hdisk, hexit, hstdout, css, hascii, hfile⟩

end StyleLang
