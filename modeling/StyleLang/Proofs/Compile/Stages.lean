import StyleLang.Compile
import StyleLang.Proofs.Css.Evaluated
import StyleLang.Proofs.Css.Numbers
import StyleLang.Proofs.Pass.Faults

/-!
# Stages of a compilation

A tree that was read has its nodes where they belong, so neither pass is stopped and the printer
meets rules of declarations of literals only. Main statements: a tree that was read gets to its
findings and to an evaluated tree, and what a compilation makes of the two.
-/

namespace StyleLang

namespace Node

theorem IsExpression.placed : ∀ {n : Node}, n.IsExpression → n.PlacedExpression
  | .literal _ _, _ => trivial
  | .reference _ _, _ => trivial
  | .operation _ _ _ _, ⟨hl, hr⟩ => ⟨hl.placed, hr.placed⟩

mutual

theorem IsStatement.placed : ∀ {n : Node}, n.IsStatement → n.PlacedStatement
  | .assignment _ _ _, h => IsExpression.placed h
  | .declaration _ _ _, ⟨_, _, he⟩ => he.placed
  | .conditional _ _ _ none, ⟨hc, hb, _⟩ => ⟨hc.placed, AreStatements.placed hb, trivial⟩
  | .conditional _ _ _ (some _), ⟨hc, hb, he⟩ =>
    ⟨hc.placed, AreStatements.placed hb, AreStatements.placed he⟩

theorem AreStatements.placed : ∀ {ns : List Node}, AreStatements ns → PlacedBlock ns
  | [], _ => trivial
  | _ :: _, ⟨hn, hns⟩ => ⟨IsStatement.placed hn, AreStatements.placed hns⟩

end

theorem IsItem.placed {n : Node} (h : n.IsItem) : n.PlacedStatement := by
  cases n with
  | assignment pos name e => exact IsExpression.placed h
  | rule pos selectors body => exact AreStatements.placed h.2
  | _ => exact h.elim

end Node

section Reading

variable {config : Config} {source : String}

theorem compile_of_parse {sheet : Stylesheet} (h : Stylesheet.parse source = .ok sheet) :
    compile config source = sheet.compile config := by
  unfold compile
  rw [h]

theorem compile_of_unread {reason : ReadError} (h : Stylesheet.parse source = .error reason) :
    compile config source = ⟨[], .error (.read reason)⟩ := by
  unfold compile
  rw [h]

/-- A source that cannot be read leaves no log. -/
theorem log_of_unread {reason : ReadError}
    (h : (compile config source).result = .error (.read reason)) :
    (compile config source).log = [] := by
  cases hparse : Stylesheet.parse source with
  | error e => rw [compile_of_unread hparse]
  | ok sheet =>
    rw [compile_of_parse hparse] at h
    unfold Stylesheet.compile Compilation.finish at h
    dsimp only at h
    repeat' split at h
    all_goals cases h

end Reading

namespace Stylesheet

variable {source : String} {sheet : Stylesheet}

theorem placed_of_parse (h : Stylesheet.parse source = .ok sheet) : sheet.Placed :=
  Node.placedBlock_iff.2 fun n hn => (isItem_of_parse h n hn).placed

/-- No fault stops the checker on a tree that was read. -/
theorem check_of_parse (h : Stylesheet.parse source = .ok sheet) :
    ∃ findings, sheet.check = .ok findings := exists_check_iff.2 (placed_of_parse h)

/-- A tree without findings is evaluated without a defect, to a settled one. -/
theorem evaluate_of_check_nil {e : Evaluation} (hcheck : sheet.check = .ok [])
    (heval : sheet.evaluate = .ok e) :
    e.defects = [] ∧ ∀ n ∈ e.stylesheet.items, n.Settled := by
  obtain ⟨Γ, hy⟩ := sheet.check_eq_nil_iff_silent.1 hcheck
  obtain ⟨items, heval', hsettled⟩ := evaluate_of_yields (fun _ _ hn => hn) hy
  obtain rfl := Except.ok.inj (heval.symm.trans heval')
  exact ⟨rfl, hsettled fun _ hn => hn⟩

/-! ## What a compilation makes of findings and an evaluated tree -/

variable {config : Config} {findings : List Finding} {e : Evaluation}

/-- The events of a check. -/
def checkLog (sheet : Stylesheet) (findings : List Finding) : List LogEvent :=
  .checking sheet.items.length :: .checked findings.length :: findings.map .diagnostic

theorem compile_of_check (hcheck : sheet.check = .ok findings) :
    sheet.compile config =
      if config.strict && !findings.isEmpty then
        ⟨sheet.checkLog findings, .error (.rejected findings)⟩
      else Compilation.finish config (sheet.checkLog findings) sheet := by
  unfold compile
  rw [hcheck]
  rfl

theorem compile_of_rejected (hcheck : sheet.check = .ok findings) (hstrict : config.strict = true)
    (hfound : findings ≠ []) :
    sheet.compile config = ⟨sheet.checkLog findings, .error (.rejected findings)⟩ := by
  have hrefused : (config.strict && !findings.isEmpty) = true := by
    rw [hstrict, Bool.true_and, Bool.not_eq_true', List.isEmpty_eq_false_iff]
    exact hfound
  rw [compile_of_check hcheck, if_pos hrefused]

theorem compile_of_evaluated (hcheck : sheet.check = .ok findings)
    (hpassed : config.strict = true → findings = []) (heval : sheet.evaluate = .ok e) :
    sheet.compile config =
      match e.stylesheet.css config.indent with
      | .error reason =>
        ⟨sheet.checkLog findings ++ Compilation.evaluationLog e.defects, .error (.css reason)⟩
      | .ok css =>
        ⟨sheet.checkLog findings ++ Compilation.evaluationLog e.defects ++
          [.generated e.stylesheet.items.length], .ok css⟩ := by
  have hkept : ¬ (config.strict && !findings.isEmpty) = true := by
    intro hrefused
    obtain ⟨hstrict, hfound⟩ := Bool.and_eq_true_iff.1 hrefused
    rw [hpassed hstrict] at hfound
    cases hfound
  rw [compile_of_check hcheck, if_neg hkept]
  cases hcss : e.stylesheet.css config.indent with
  | error reason => simp only [Compilation.finish, heval, hcss]
  | ok css => simp only [Compilation.finish, heval, hcss]

end Stylesheet

end StyleLang
