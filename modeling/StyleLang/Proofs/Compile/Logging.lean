import StyleLang.Proofs.Compile.Endings
import StyleLang.Proofs.Pass.Headings

/-!
# What the log tells

The log of a compilation holds the findings of the check, the defects of the evaluation and a count
of rules, each as what it is. Main statement: a strict compilation of a tree with findings stops
after them, and of a tree without findings does the same as any other, without a warning; any other
compilation warns of the defects, and counts the rules of the source.
-/

namespace StyleLang

namespace LogEvent

def isWarning (event : LogEvent) : Bool := event.level = .warning

def isInfo (event : LogEvent) : Bool := event.level = .info

/-- An event for debugging, from the compiler itself and not from one of the passes. -/
def isDetail (event : LogEvent) : Bool := event.level = .debug ∧ event.source = "icss.compiler"

end LogEvent

open LogEvent

/-- The messages of the events of a kind, in order. -/
def Compilation.messages (c : Compilation) (kind : LogEvent → Bool) : List String :=
  (c.log.filter kind).map LogEvent.message

/-! ## The parts of a log -/

section Parts

variable (sheet : Stylesheet) (findings defects : List Finding)

theorem warnings_checkLog : (sheet.checkLog findings).filter isWarning = [] := by
  simp [Stylesheet.checkLog, isWarning, level]

theorem details_checkLog :
    (sheet.checkLog findings).filter isDetail = findings.map .diagnostic := by
  simp [Stylesheet.checkLog, isDetail, level, LogEvent.source]

theorem infos_checkLog :
    (sheet.checkLog findings).filter isInfo = [.checking sheet.items.length] := by
  simp [Stylesheet.checkLog, isInfo, level]

/-- Besides its count an evaluation logs the defects, as warnings. -/
theorem filter_evaluationLog {kind : LogEvent → Bool} (h : ∀ n, kind (.evaluated n) = false) :
    (Compilation.evaluationLog defects).filter kind = (defects.map .defect).filter kind := by
  unfold Compilation.evaluationLog
  rw [List.filter_append]
  cases defects with
  | nil => rfl
  | cons f fs => simp [h]

theorem warnings_evaluationLog :
    (Compilation.evaluationLog defects).filter isWarning = defects.map .defect := by
  rw [filter_evaluationLog defects fun _ => rfl]
  simp [isWarning, level]

theorem details_evaluationLog : (Compilation.evaluationLog defects).filter isDetail = [] := by
  rw [filter_evaluationLog defects fun _ => rfl]
  simp [isDetail, level]

theorem infos_evaluationLog : (Compilation.evaluationLog defects).filter isInfo = [] := by
  rw [filter_evaluationLog defects fun _ => rfl]
  simp [isInfo, level]

end Parts

/-! ## Whole logs -/

namespace Stylesheet

variable {sheet : Stylesheet} {config : Config} {findings : List Finding} {e : Evaluation}

/-- The log past the check: of the check, of the evaluation, and a count if there is a text. -/
theorem log_of_evaluated (hcheck : sheet.check = .ok findings)
    (hpassed : config.strict = true → findings = []) (heval : sheet.evaluate = .ok e) :
    ∃ rest, (sheet.compile config).log =
        sheet.checkLog findings ++ Compilation.evaluationLog e.defects ++ rest ∧
      (rest = [.generated e.stylesheet.items.length] ∨
        rest = [] ∧ ∀ css, (sheet.compile config).result ≠ .ok css) := by
  rw [compile_of_evaluated hcheck hpassed heval]
  cases e.stylesheet.css config.indent with
  | ok css => exact ⟨_, rfl, .inl rfl⟩
  | error reason =>
    refine ⟨[], (List.append_nil _).symm, .inr ⟨rfl, fun css hcss => ?_⟩⟩
    cases hcss

/-- Events of a kind that counts no rules come from the check and from the evaluation. -/
theorem filter_of_evaluated {kind : LogEvent → Bool} (hkind : ∀ n, kind (.generated n) = false)
    (hcheck : sheet.check = .ok findings) (hpassed : config.strict = true → findings = [])
    (heval : sheet.evaluate = .ok e) :
    (sheet.compile config).log.filter kind =
      (sheet.checkLog findings).filter kind ++
        (Compilation.evaluationLog e.defects).filter kind := by
  obtain ⟨rest, hlog, hrest⟩ := log_of_evaluated hcheck hpassed heval
  have hnone : rest.filter kind = [] := by
    rcases hrest with rfl | ⟨rfl, -⟩
    · simp [hkind]
    · rfl
  rw [hlog, List.filter_append, List.filter_append, hnone, List.append_nil]

theorem warnings_of_evaluated (hcheck : sheet.check = .ok findings)
    (hpassed : config.strict = true → findings = []) (heval : sheet.evaluate = .ok e) :
    (sheet.compile config).log.filter isWarning = e.defects.map .defect := by
  rw [filter_of_evaluated (fun _ => rfl) hcheck hpassed heval, warnings_checkLog,
    warnings_evaluationLog, List.nil_append]

theorem details_of_evaluated (hcheck : sheet.check = .ok findings)
    (hpassed : config.strict = true → findings = []) (heval : sheet.evaluate = .ok e) :
    (sheet.compile config).log.filter isDetail = findings.map .diagnostic := by
  rw [filter_of_evaluated (fun _ => rfl) hcheck hpassed heval, details_checkLog,
    details_evaluationLog, List.append_nil]

theorem infos_of_evaluated (hcheck : sheet.check = .ok findings)
    (hpassed : config.strict = true → findings = []) (heval : sheet.evaluate = .ok e) {css : String}
    (hcss : (sheet.compile config).result = .ok css) :
    (sheet.compile config).log.filter isInfo =
      [.checking sheet.items.length, .generated e.stylesheet.items.length] := by
  obtain ⟨rest, hlog, hrest⟩ := log_of_evaluated hcheck hpassed heval
  obtain rfl := hrest.resolve_right fun hnone => hnone.2 css hcss
  rw [hlog, List.filter_append, List.filter_append, infos_checkLog, infos_evaluationLog]
  rfl

end Stylesheet

/-- A strict compilation warns of nothing. -/
theorem warnings_of_strict {config : Config} (hstrict : config.strict = true) (text : String) :
    (compile config text).log.filter isWarning = [] := by
  cases hparse : Stylesheet.parse text with
  | error reason =>
    rw [compile_of_unread hparse]
    rfl
  | ok sheet =>
    obtain ⟨findings, hcheck⟩ := Stylesheet.check_of_parse hparse
    rw [compile_of_parse hparse]
    by_cases hfound : findings = []
    · subst hfound
      obtain ⟨e, heval, -⟩ := Stylesheet.evaluate_of_parse hparse
      rw [Stylesheet.warnings_of_evaluated hcheck (fun _ => rfl) heval,
        (Stylesheet.evaluate_of_check_nil hcheck heval).1]
      rfl
    · rw [Stylesheet.compile_of_rejected hcheck hstrict hfound]
      exact warnings_checkLog sheet findings

theorem Node.IsItem.isTopLevel {n : Node} (h : n.IsItem) : n.IsTopLevel := by
  cases n with
  | assignment pos name e => trivial
  | rule pos selectors body => trivial
  | _ => exact h.elim

/-- **The log tells the truth.** A tree that was read is checked and evaluated. If there are
findings, a strict compilation is refused with them and logs nothing after them; if there are none,
it does the same as any other, and warns of nothing. A compilation that is not strict warns of the
defects of the evaluation, shows the findings of the check, and counts the rules of the source. -/
theorem Stylesheet.compile_log_faithful {source : String} {sheet : Stylesheet}
    (h : Stylesheet.parse source = .ok sheet) :
    ∃ findings e, sheet.check = .ok findings ∧ sheet.evaluate = .ok e ∧ ∀ indent,
      let strict := sheet.compile { indent, strict := true }
      let lax := sheet.compile { indent, strict := false }
      (findings ≠ [] → strict.result = .error (.rejected findings) ∧
        strict.log = .checking sheet.items.length :: .checked findings.length ::
          findings.map .diagnostic) ∧
      (findings = [] → strict = lax ∧ (∀ event ∈ strict.log, event.level ≠ .warning) ∧
        ((∃ css, strict.result = .ok css) ∨ strict.result = .error (.css .numberTooLong))) ∧
      lax.messages isWarning = e.defects.map Finding.text ∧
      lax.messages isDetail = findings.map Finding.text ∧
      ∀ css, lax.result = .ok css → lax.log.filter isInfo =
        [.checking sheet.items.length, .generated sheet.rules.length] := by
  obtain ⟨findings, hcheck⟩ := check_of_parse h
  obtain ⟨e, heval, hflat⟩ := evaluate_of_parse h
  refine ⟨findings, e, hcheck, heval, fun indent => ?_⟩
  let strict : Config := { indent, strict := true }
  let lax : Config := { indent, strict := false }
  have hlax : lax.strict = true → findings = [] := fun hfalse => by cases hfalse
  refine ⟨fun hfound => ?_, fun hnil => ⟨?_, ?_, ?_⟩, ?_, ?_, fun css hcss => ?_⟩
  · rw [compile_of_rejected hcheck rfl hfound]
    exact ⟨rfl, rfl⟩
  · have hstrict : strict.strict = true → findings = [] := fun _ => hnil
    rw [compile_of_evaluated hcheck hstrict heval, compile_of_evaluated hcheck hlax heval]
  · have hnone : (sheet.compile strict).log.filter isWarning = [] := by
      rw [warnings_of_evaluated hcheck (fun _ => hnil) heval,
        (evaluate_of_check_nil (hnil ▸ hcheck) heval).1]
      rfl
    intro event hevent hlevel
    exact List.filter_eq_nil_iff.1 hnone event hevent (decide_eq_true hlevel)
  · rw [compile_of_evaluated hcheck (fun _ => hnil) heval]
    rcases css_of_flat hflat indent with ⟨-, css, hcss⟩ | ⟨-, herror⟩
    · rw [hcss]
      exact .inl ⟨css, rfl⟩
    · rw [herror]
      exact .inr rfl
  · unfold Compilation.messages
    rw [warnings_of_evaluated hcheck hlax heval, List.map_map]
    rfl
  · unfold Compilation.messages
    rw [details_of_evaluated hcheck hlax heval, List.map_map]
    rfl
  · rw [infos_of_evaluated hcheck hlax heval hcss,
      length_of_evaluate (fun n hn => (isItem_of_parse h n hn).isTopLevel) heval]

/-- A name that stands for nothing, between an assignment and a rule without a problem. -/
theorem Stylesheet.compile_log_faithful_unknown :
    let source := "A := 2px; p \x7b width: B; \x7d q \x7b width: A; \x7d"
    ∃ sheet, Stylesheet.parse source = .ok sheet ∧
      (sheet.compile { strict := true }).log.length = 3 ∧
      (sheet.compile { strict := false }).messages isDetail =
        ["ERROR [line 1:22]: unknown variable: B"] ∧
      (sheet.compile { strict := false }).messages isWarning =
        ["DEFECT [line 1:22]: unknown variable: B"] ∧
      (sheet.compile { strict := false }).log.filter isInfo = [.checking 3, .generated 2] := by
  intro source
  have hsource : (match Stylesheet.parse source with
      | .ok sheet =>
        match sheet.check, sheet.evaluate, (sheet.compile { strict := false }).result with
        | .ok findings, .ok e, .ok _ =>
          decide (findings.map Finding.text = ["ERROR [line 1:22]: unknown variable: B"] ∧
            e.defects.map Finding.text = ["DEFECT [line 1:22]: unknown variable: B"] ∧
            sheet.items.length = 3 ∧ sheet.rules.length = 2)
        | _, _, _ => false
      | .error _ => false) = true := by decide +kernel
  split at hsource
  · next sheet hsheet =>
    split at hsource
    · next findings e css hcheck heval hcss =>
      obtain ⟨hfindings, hdefects, hitems, hrules⟩ := of_decide_eq_true hsource
      obtain ⟨findings', e', hcheck', heval', hlog⟩ := compile_log_faithful hsheet
      obtain rfl := Except.ok.inj (hcheck.symm.trans hcheck')
      obtain rfl := Except.ok.inj (heval.symm.trans heval')
      obtain ⟨hrefused, -, hwarnings, hdetails, hinfos⟩ := hlog "  "
      have hlength : findings.length = 1 := by
        have := congrArg List.length hfindings
        rwa [List.length_map] at this
      have hfound : findings ≠ [] := fun hnil => by rw [hnil] at hlength; cases hlength
      refine ⟨sheet, hsheet, ?_, hdetails.trans hfindings, hwarnings.trans hdefects, ?_⟩
      · rw [(hrefused hfound).2, List.length_cons, List.length_cons, List.length_map, hlength]
      · rw [hinfos css hcss, hitems, hrules]
    · cases hsource
  · cases hsource

end StyleLang
