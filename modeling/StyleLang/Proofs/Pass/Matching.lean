import StyleLang.Proofs.Pass.Environment

/-!
# Passes that match

Two runs of a pass on different trees, side by side. Reports match if they have the same findings up
to a change that is made finding by finding, and either related results or related faults; passings
match if they give matching reports and related environments wherever they start on related ones.
What is composed of matching parts matches, so two runs are compared construct by construct.
-/

namespace StyleLang

variable {τ τ' α α' β β' : Type} {F : Finding → Finding} {Q : Fault → Fault → Prop}
  {R : α → α' → Prop} {S : β → β' → Prop}

namespace Report

/-- The second report has the findings of the first one under `F`, and a related result or a
related fault. -/
inductive Matches (F : Finding → Finding) (Q : Fault → Fault → Prop) (R : α → α' → Prop) :
    Report α → Report α' → Prop where
  | ok {findings : List Finding} {a : α} {a' : α'} (h : R a a') :
    Matches F Q R ⟨findings, .ok a⟩ ⟨findings.map F, .ok a'⟩
  | fault {findings : List Finding} {reason reason' : Fault} (h : Q reason reason') :
    Matches F Q R ⟨findings, .error reason⟩ ⟨findings.map F, .error reason'⟩

theorem matches_ok {a : α} {a' : α'} (h : R a a') : (ok a).Matches F Q R (ok a') := .ok h

theorem matches_fault {reason reason' : Fault} (h : Q reason reason') :
    (fault reason).Matches F Q R (fault reason') := .fault h

theorem matches_note {severity : Severity} {pos pos' : Position} {problem problem' : Problem}
    (h : F { severity, problem, pos } = { severity, problem := problem', pos := pos' }) :
    (note severity pos problem).Matches F Q Eq (note severity pos' problem') := by
  unfold note
  rw [← h]
  exact @Matches.ok _ _ F Q Eq [{ severity, problem, pos }] _ _ rfl

theorem matches_refl (hQ : ∀ reason, Q reason reason) (r : Report α) : r.Matches id Q Eq r := by
  obtain ⟨findings, result⟩ := r
  have hmap : findings.map id = findings := List.map_id findings
  cases result with
  | error e => simpa only [hmap] using @Matches.fault α α id Q Eq findings e e (hQ e)
  | ok a => simpa only [hmap] using @Matches.ok α α id Q Eq findings a a rfl

theorem Matches.findings_eq {r : Report α} {r' : Report α'} (h : r.Matches id Q R r') :
    r'.findings = r.findings := by
  cases h <;> exact List.map_id _

/-- What is related is what the first report returns. -/
theorem Matches.returned {r : Report α} {r' : Report α'} (h : r.Matches F Q R r') :
    r.Matches F Q (fun a a' => r.result = .ok a ∧ R a a') r' := by
  cases h with
  | ok h => exact .ok ⟨rfl, h⟩
  | fault h => exact .fault h

theorem Matches.andThen {r : Report α} {r' : Report α'} {next : α → Report β}
    {next' : α' → Report β'} (h : r.Matches F Q R r')
    (hn : ∀ a a', R a a' → (next a).Matches F Q S (next' a')) :
    (r.andThen next).Matches F Q S (r'.andThen next') := by
  cases h with
  | fault h => exact .fault h
  | @ok findings a a' ha =>
    have hrest := hn a a' ha
    dsimp only [Report.andThen]
    generalize next a = s, next' a' = s' at hrest
    cases hrest with
    | ok hb =>
      rw [← List.map_append]
      exact .ok hb
    | fault hreason =>
      rw [← List.map_append]
      exact .fault hreason

theorem Matches.under (hF : ∀ step f, F (Finding.under step f) = (F f).under step) {r : Report α}
    {r' : Report α'} (h : r.Matches F Q R r') (step : Step) :
    (r.under step).Matches F Q R (r'.under step) := by
  have hmap : ∀ findings : List Finding,
      (findings.map F).map (Finding.under step) = (findings.map (Finding.under step)).map F := by
    intro findings
    rw [List.map_map, List.map_map]
    exact List.map_congr_left fun f _ => (hF step f).symm
  cases h with
  | ok h =>
    unfold Report.under
    dsimp only
    rw [hmap]
    exact .ok h
  | fault h =>
    unfold Report.under
    dsimp only
    rw [hmap]
    exact .fault h

end Report

namespace Passing

/-- From related environments on, the passings give matching reports and related environments. -/
def Matches (F : Finding → Finding) (Q : Fault → Fault → Prop) (E : Env τ → Env τ' → Prop)
    (R : α → α' → Prop) (p : Passing τ α) (p' : Passing τ' α') : Prop :=
  ∀ env env', E env env' →
    (p env).Matches F Q (fun r r' => R r.1 r'.1 ∧ E r.2 r'.2) (p' env')

variable {E : Env τ → Env τ' → Prop}

theorem matches_ok {a : α} {a' : α'} (h : R a a') : (ok a).Matches F Q E R (ok a') :=
  fun _ _ henv => .ok ⟨h, henv⟩

theorem matches_reading {report : Env τ → Report α} {report' : Env τ' → Report α'}
    (h : ∀ env env', E env env' → (report env).Matches F Q R (report' env')) :
    (reading report).Matches F Q E R (reading report') :=
  fun env env' henv => (h env env' henv).andThen fun _ _ ha => .ok ⟨ha, henv⟩

theorem matches_note {severity : Severity} {pos pos' : Position} {problem problem' : Problem}
    (h : F { severity, problem, pos } = { severity, problem := problem', pos := pos' }) :
    (note severity pos problem).Matches F Q E Eq (note severity pos' problem') :=
  matches_reading fun _ _ _ => Report.matches_note h

theorem matches_assign {name name' : String} {value : τ} {value' : τ'}
    (h : ∀ env env', E env env' → E (env.set name value) (env'.set name' value')) :
    (assign name value).Matches F Q E Eq (assign name' value') :=
  fun env env' henv => .ok ⟨rfl, h env env' henv⟩

variable {p : Passing τ α} {p' : Passing τ' α'}

theorem Matches.andThen {next : α → Passing τ β} {next' : α' → Passing τ' β'}
    (h : p.Matches F Q E R p') (hn : ∀ a a', R a a' → (next a).Matches F Q E S (next' a')) :
    (p.andThen next).Matches F Q E S (p'.andThen next') :=
  fun env env' henv => (h env env' henv).andThen fun r r' hr => hn r.1 r'.1 hr.1 r.2 r'.2 hr.2

/-- What is bound inside is dropped on both sides. -/
theorem Matches.child (h : p.Matches F Q E R p') : p.child.Matches F Q E R p'.child :=
  fun env env' henv => (h env env' henv).andThen fun _ _ hr => .ok ⟨hr.1, henv⟩

theorem Matches.under (hF : ∀ step f, F (Finding.under step f) = (F f).under step)
    (h : p.Matches F Q E R p') (step : Step) : (p.under step).Matches F Q E R (p'.under step) :=
  fun env env' henv => (h env env' henv).under hF step

end Passing

end StyleLang
