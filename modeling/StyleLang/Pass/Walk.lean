import StyleLang.Pass.Report

/-!
# Walks

A pass over statements: a report that depends on the scopes and changes them. A child scope is left
whether the walk inside it succeeds or not.
-/

namespace StyleLang

abbrev Scopes (τ : Type) := ScopeStack (Bindings τ)

/-- From the scopes at its start, a walk gives its report and the scopes at its end. -/
def Walk (τ α : Type) := Scopes τ → Report α × Scopes τ

namespace Walk

variable {τ α β : Type}

def ok (a : α) : Walk τ α := fun s => (.ok a, s)

def fault (reason : Fault) : Walk τ α := fun s => (.fault reason, s)

def note (severity : Severity) (pos : Position) (problem : Problem) : Walk τ Unit :=
  fun s => (.note severity pos problem, s)

/-- Goes on with the result in the scopes that were left. -/
def andThen (w : Walk τ α) (next : α → Walk τ β) : Walk τ β := fun s =>
  match w s with
  | (⟨findings, .error e⟩, s') => (⟨findings, .error e⟩, s')
  | (⟨findings, .ok a⟩, s') =>
    let (report, s'') := next a s'
    (⟨findings ++ report.findings, report.result⟩, s'')

instance : Monad (Walk τ) where
  pure := ok
  bind := andThen

/-- The walk as seen from one edge further up. -/
def under (step : Step) (w : Walk τ α) : Walk τ α := fun s =>
  let (report, s') := w s
  (report.under step, s')

/-- A report on an expression, whose names are looked up in the scopes. -/
def reading (report : (String → Option τ) → Report α) : Walk τ α := fun s => (report s.lookup, s)

/-- Binds the name in the innermost scope. -/
def assign (name : String) (value : τ) : Walk τ Unit := fun s =>
  match s.bind name value with
  | .ok s' => (.ok (), s')
  | .error e => (.fault (.scope e), s)

/-- Leaves the innermost scope after a walk inside it. -/
def leave : Report α × Scopes τ → Report α × Scopes τ
  | (report, s) =>
    match s.pop with
    | .ok (_, rest) => (report, rest)
    | .error e => (⟨report.findings, .error (.scope e)⟩, s)

/-- Walks inside a child of the innermost scope. -/
def child (w : Walk τ α) : Walk τ α := fun s =>
  match s.enter with
  | .error e => (.fault (.scope e), s)
  | .ok s' => leave (w s')

/-! ## Laws -/

theorem bind_def (w : Walk τ α) (next : α → Walk τ β) : (w >>= next) = w.andThen next := rfl

/-- The rest of a walk is met only if its beginning succeeds. -/
theorem andThen_apply (w : Walk τ α) (next : α → Walk τ β) (s : Scopes τ) :
    w.andThen next s =
      match (w s).1.result with
      | .error e => (⟨(w s).1.findings, .error e⟩, (w s).2)
      | .ok a =>
        (⟨(w s).1.findings ++ (next a (w s).2).1.findings, (next a (w s).2).1.result⟩,
          (next a (w s).2).2) := by
  unfold andThen
  rcases w s with ⟨⟨findings, result⟩, s'⟩
  cases result <;> rfl

@[simp] theorem ok_andThen (a : α) (next : α → Walk τ β) : (ok a).andThen next = next a := rfl

@[simp] theorem fault_andThen (reason : Fault) (next : α → Walk τ β) :
    (fault reason : Walk τ α).andThen next = fault reason := rfl

@[simp] theorem andThen_ok (w : Walk τ α) : w.andThen ok = w := by
  funext s
  rw [andThen_apply]
  rcases w s with ⟨⟨findings, result⟩, s'⟩
  cases result <;> simp [ok, Report.ok]

theorem andThen_assoc {γ : Type} (w : Walk τ α) (f : α → Walk τ β) (g : β → Walk τ γ) :
    (w.andThen f).andThen g = w.andThen fun a => (f a).andThen g := by
  funext s
  simp only [andThen_apply]
  rcases w s with ⟨⟨findings, result⟩, s'⟩
  cases result with
  | error e => rfl
  | ok a =>
    simp only
    rcases f a s' with ⟨⟨findings', result'⟩, s''⟩
    cases result' <;> simp

instance : LawfulMonad (Walk τ) := LawfulMonad.mk' (Walk τ) andThen_ok ok_andThen andThen_assoc

end Walk

end StyleLang
