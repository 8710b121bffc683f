import StyleLang.Proofs.Pass.Lexical

/-!
# Sessions

A checker and an evaluator that are kept and called again and again. Between two calls they hold the
scopes and the findings of the call before, which may have been stopped at any depth. Main
statement: every call answers what a new checker or a new evaluator answers, whatever was called
before, and nothing of a call is left on either stack of scopes.
-/

namespace StyleLang

structure Session where
  checker : Checker := {}
  evaluator : Evaluator := {}

inductive Call where
  | check (sheet : Stylesheet)
  | evaluate (sheet : Stylesheet)

/-- What a caller sees of a call: what it returns or the fault that stopped it, and the findings
that are kept after it, up to that fault. -/
inductive Answer where
  | checked (result : Except Fault (List Finding)) (findings : List Finding)
  | evaluated (result : Except Fault Stylesheet) (defects : List Finding)

namespace Session

def call (s : Session) : Call → Answer × Session
  | .check sheet =>
    let (result, checker) := s.checker.check sheet
    (.checked result checker.findings, { s with checker })
  | .evaluate sheet =>
    let (result, evaluator) := s.evaluator.apply sheet
    (.evaluated result evaluator.defects, { s with evaluator })

/-- Calls one after the other, with their answers. -/
def run (s : Session) : List Call → List Answer × Session
  | [] => ([], s)
  | c :: cs =>
    let (answer, s') := s.call c
    let (answers, s'') := s'.run cs
    (answer :: answers, s'')

end Session

/-- The answer of a new checker or a new evaluator. -/
def Call.fresh (c : Call) : Answer := (({} : Session).call c).1

/-! ## One call -/

/-- What a checker kept is not seen by its next run, and that run leaves no scope. -/
theorem Checker.check_eq (c : Checker) (sheet : Stylesheet) :
    c.check sheet = (sheet.check, ⟨{}, sheet.checkReport.findings⟩) := by
  have h := (Check.follows_block .item 0 sheet.items).fresh c.scopes
  rw [Stylesheet.check_eq]
  unfold check
  simp only [h]
  unfold Stylesheet.checkReport
  cases (Check.Lexical.block .item 0 sheet.items .empty).result <;> rfl

theorem Evaluator.apply_eq (e : Evaluator) (sheet : Stylesheet) :
    e.apply sheet =
      (sheet.evaluate.map Evaluation.stylesheet, ⟨{}, sheet.evaluateReport.findings⟩) := by
  have h := (Evaluate.follows_block .item 0 sheet.items).fresh e.scopes
  rw [Stylesheet.evaluate_eq]
  unfold apply
  simp only [h]
  unfold Stylesheet.evaluateReport
  cases (Evaluate.Lexical.block .item 0 sheet.items .empty).result <;> rfl

namespace Session

/-- Neither object has a scope on its stack. -/
structure Idle (s : Session) : Prop where
  checker : s.checker.scopes.isEmpty = true
  evaluator : s.evaluator.scopes.isEmpty = true

/-- A call is answered as by a new object. -/
theorem call_fresh (s : Session) (c : Call) : (s.call c).1 = c.fresh := by
  unfold Call.fresh
  cases c with
  | check sheet => simp only [call, Checker.check_eq]
  | evaluate sheet => simp only [call, Evaluator.apply_eq]

/-- A call leaves no scope on the stack that it used, also where a fault stopped it. -/
theorem Idle.call {s : Session} (h : s.Idle) (c : Call) : (s.call c).2.Idle := by
  cases c with
  | check sheet =>
    simp only [Session.call, Checker.check_eq]
    exact ⟨rfl, h.evaluator⟩
  | evaluate sheet =>
    simp only [Session.call, Evaluator.apply_eq]
    exact ⟨h.checker, rfl⟩

/-! ## Many calls -/

theorem Idle.run {s : Session} (h : s.Idle) (calls : List Call) : (s.run calls).2.Idle := by
  induction calls generalizing s with
  | nil => exact h
  | cons c cs ih => exact ih (h.call c)

theorem run_fresh (s : Session) (calls : List Call) : (s.run calls).1 = calls.map Call.fresh := by
  induction calls generalizing s with
  | nil => rfl
  | cons c cs ih =>
    rw [List.map_cons, ← s.call_fresh c, ← ih (s.call c).2]
    rfl

/-- Each call is answered as by a new object, however the two objects were used before and whatever
they still hold; and calls on new objects leave both stacks without scopes. -/
theorem reuse_leaves_no_trace (s : Session) (calls : List Call) :
    (s.run calls).1 = calls.map Call.fresh ∧ (({} : Session).run calls).2.Idle :=
  ⟨s.run_fresh calls, Idle.run ⟨rfl, rfl⟩ calls⟩

end Session

end StyleLang
