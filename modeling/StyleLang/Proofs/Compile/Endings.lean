import StyleLang.Proofs.Compile.Stages

/-!
# How a compilation ends

A compilation gives a CSS text, or it is stopped by the source: by its grammar, by a number that is
too long to be read, by findings if they count, or by a number that has become too long to be
printed. No fault and no unevaluated node ever stops it. Main statement: every compilation ends in
one of these ways, and in each just when what belongs to it holds.
-/

namespace StyleLang

/-- The ways in which a compilation can end. -/
inductive Ending where
  | css (text : String)
  | unreadable
  | overlongToken (measure : Measure) (digits : Nat)
  | rejected (findings : List Finding)
  | overlongResult
  deriving DecidableEq, Repr

namespace Ending

/-- The ending that a result tells of. A result that no source leads to tells of none. -/
def of? : Except CompileError String → Option Ending
  | .ok text => some (.css text)
  | .error (.read (.grammar _)) => some .unreadable
  | .error (.read (.build (.hyphenatedName _ _))) => some .unreadable
  | .error (.read (.build (.numberTooLong m digits))) => some (.overlongToken m digits)
  | .error (.rejected findings) => some (.rejected findings)
  | .error (.css .numberTooLong) => some .overlongResult
  | .error (.css _) => none
  | .error (.fault _) => none

end Ending

/-- The source gets past the check: it is read, and the findings in it count for nothing. -/
structure Passes (config : Config) (source : String) (sheet : Stylesheet) : Prop where
  parse : Stylesheet.parse source = .ok sheet
  check : ∃ findings, sheet.check = .ok findings ∧ (config.strict = true → findings = [])

/-- How a compilation ends, by what is in the source. -/
inductive Ends (config : Config) (source : String) : Ending → Prop where
  | grammar {reason : SyntaxError} (h : Stylesheet.parse source = .error (.grammar reason)) :
    Ends config source .unreadable
  | hyphen {name : String} {place : Cursor}
    (h : Stylesheet.parse source = .error (.build (.hyphenatedName name place))) :
    Ends config source .unreadable
  | overlongToken {m : Measure} {digits : Nat} {ts : List Token} {t : Token}
    (h : Stylesheet.parse source = .error (.build (.numberTooLong m digits)))
    (hts : Stylesheet.HasTokens source ts) (ht : t ∈ ts) (hlong : t.Overlong m digits) :
    Ends config source (.overlongToken m digits)
  | rejected {sheet : Stylesheet} {findings : List Finding}
    (h : Stylesheet.parse source = .ok sheet) (hcheck : sheet.check = .ok findings)
    (hstrict : config.strict = true) (hfound : findings ≠ []) :
    Ends config source (.rejected findings)
  | overlongResult {sheet : Stylesheet} {e : Evaluation} (h : Passes config source sheet)
    (heval : sheet.evaluate = .ok e) (hlong : e.stylesheet.HoldsLongNumber) :
    Ends config source .overlongResult
  | css {sheet : Stylesheet} {e : Evaluation} {text : String} (h : Passes config source sheet)
    (heval : sheet.evaluate = .ok e) (hshort : ¬ e.stylesheet.HoldsLongNumber)
    (htext : e.stylesheet.css config.indent = .ok text) : Ends config source (.css text)

variable {config : Config} {source : String} {sheet : Stylesheet} {ending : Ending}

/-- Past the check the printer has the last word. -/
theorem Passes.result {e : Evaluation} (h : Passes config source sheet)
    (heval : sheet.evaluate = .ok e) :
    (compile config source).result = (e.stylesheet.css config.indent).mapError .css := by
  obtain ⟨hparse, findings, hcheck, hpassed⟩ := h
  rw [compile_of_parse hparse, Stylesheet.compile_of_evaluated hcheck hpassed heval]
  cases e.stylesheet.css config.indent <;> rfl

/-! ## Every compilation ends -/

theorem Passes.ends (h : Passes config source sheet) :
    ∃ ending, Ending.of? (compile config source).result = some ending ∧
      Ends config source ending := by
  obtain ⟨e, heval, hflat⟩ := Stylesheet.evaluate_of_parse h.parse
  rw [h.result heval]
  rcases Stylesheet.css_of_flat hflat config.indent with ⟨hshort, text, htext⟩ | ⟨hlong, herror⟩
  · rw [htext]
    exact ⟨.css text, rfl, .css h heval hshort htext⟩
  · rw [herror]
    exact ⟨.overlongResult, rfl, .overlongResult h heval hlong⟩

theorem ends_of_unread {reason : ReadError} (h : Stylesheet.parse source = .error reason) :
    ∃ ending, Ending.of? (compile config source).result = some ending ∧
      Ends config source ending := by
  rw [compile_of_unread h]
  cases reason with
  | grammar reason => exact ⟨.unreadable, rfl, .grammar h⟩
  | build reason =>
    cases reason with
    | hyphenatedName name place => exact ⟨.unreadable, rfl, .hyphen h⟩
    | numberTooLong m digits =>
      obtain ⟨ts, hts, t, ht, hlong⟩ := Stylesheet.overlong_of_parse h
      exact ⟨.overlongToken m digits, rfl, .overlongToken h hts ht hlong⟩

theorem exists_ending (config : Config) (source : String) :
    ∃ ending, Ending.of? (compile config source).result = some ending ∧
      Ends config source ending := by
  cases hparse : Stylesheet.parse source with
  | error reason => exact ends_of_unread hparse
  | ok sheet =>
    obtain ⟨findings, hcheck⟩ := Stylesheet.check_of_parse hparse
    by_cases hrefused : config.strict = true ∧ findings ≠ []
    · obtain ⟨hstrict, hfound⟩ := hrefused
      rw [compile_of_parse hparse, Stylesheet.compile_of_rejected hcheck hstrict hfound]
      exact ⟨.rejected findings, rfl, .rejected hparse hcheck hstrict hfound⟩
    · have hpassed : config.strict = true → findings = [] := fun hstrict =>
        Decidable.not_not.1 fun hfound => hrefused ⟨hstrict, hfound⟩
      exact Passes.ends ⟨hparse, findings, hcheck, hpassed⟩

/-! ## Each ending has its causes -/

/-- What is in the source leads to the ending that belongs to it. -/
theorem Ends.of?_result (h : Ends config source ending) :
    Ending.of? (compile config source).result = some ending := by
  cases h with
  | grammar h | hyphen h | overlongToken h _ _ _ =>
    rw [compile_of_unread h]
    rfl
  | rejected h hcheck hstrict hfound =>
    rw [compile_of_parse h, Stylesheet.compile_of_rejected hcheck hstrict hfound]
    rfl
  | @overlongResult sheet e h heval hlong =>
    obtain ⟨e', heval', hflat⟩ := Stylesheet.evaluate_of_parse h.parse
    obtain rfl := Except.ok.inj (heval.symm.trans heval')
    have herror := ((Stylesheet.css_of_flat hflat config.indent).resolve_left fun hcss =>
      hcss.1 hlong).2
    rw [h.result heval, herror]
    rfl
  | css h heval _ htext =>
    rw [h.result heval, htext]
    rfl

/-- **How compilations end.** Every compilation of a source ends in one of the ways, and in each of
them if and only if what belongs to it is in the source. -/
theorem compile_ends_iff (config : Config) (source : String) :
    (∃ ending, Ending.of? (compile config source).result = some ending) ∧
      ∀ ending, Ending.of? (compile config source).result = some ending ↔
        Ends config source ending := by
  obtain ⟨ending, hof, hends⟩ := exists_ending config source
  refine ⟨⟨ending, hof⟩, fun other => ⟨fun hother => ?_, Ends.of?_result⟩⟩
  obtain rfl := Option.some.inj (hof.symm.trans hother)
  exact hends

end StyleLang
