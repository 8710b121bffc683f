import StyleLang.Pass.Walk

/-!
# Lexical environments

An environment says what each name stands for. Nothing writes into one: an assignment hands a larger
one to the statements after it, and what follows a nested block goes on with the one from before it.
A `Passing` is a pass in these terms. `Walk.Follows` ties a walk to a passing: on any stack that is
not empty they report the same, and the walk leaves all but the innermost scope as they were.
-/

namespace StyleLang

/-- What each name stands for, where it stands for anything. -/
abbrev Env (τ : Type) := String → Option τ

namespace Env

variable {τ : Type}

def empty : Env τ := fun _ => none

/-- The environment with one name given a meaning. -/
def set (env : Env τ) (name : String) (value : τ) : Env τ := fun other =>
  if other = name then some value else env other

end Env

/-- From the environment at its start, a passing gives its report, and with the result the
environment for what comes after it. -/
def Passing (τ α : Type) := Env τ → Report (α × Env τ)

namespace Passing

variable {τ α β : Type}

def ok (a : α) : Passing τ α := fun env => .ok (a, env)

def fault (reason : Fault) : Passing τ α := fun _ => .fault reason

def andThen (p : Passing τ α) (next : α → Passing τ β) : Passing τ β := fun env =>
  (p env).andThen fun r => next r.1 r.2

instance : Monad (Passing τ) where
  pure := ok
  bind := andThen

/-- A report on an expression, whose names mean what the environment says. -/
def reading (report : Env τ → Report α) : Passing τ α := fun env =>
  (report env).andThen fun a => .ok (a, env)

def note (severity : Severity) (pos : Position) (problem : Problem) : Passing τ Unit :=
  reading fun _ => .note severity pos problem

def assign (name : String) (value : τ) : Passing τ Unit := fun env => .ok ((), env.set name value)

/-- Drops what was bound inside. -/
def child (p : Passing τ α) : Passing τ α := fun env => (p env).andThen fun r => .ok (r.1, env)

def under (step : Step) (p : Passing τ α) : Passing τ α := fun env => (p env).under step

theorem pure_def (a : α) : (pure a : Passing τ α) = ok a := rfl

theorem bind_def (p : Passing τ α) (next : α → Passing τ β) : (p >>= next) = p.andThen next := rfl

end Passing

/-! ## What a stack shows -/

namespace ScopeStack

variable {τ : Type}

theorem lookup_cons (scope : Bindings τ) (outer : List (Bindings τ)) (name : String) :
    lookup ⟨scope :: outer⟩ name = (scope.get? name).or (lookup ⟨outer⟩ name) := by
  unfold lookup lookupBy
  rw [List.findSome?_cons]
  cases scope.get? name <;> rfl

theorem lookup_fresh : lookup ⟨[⟨[]⟩]⟩ = (Env.empty : Env τ) := by
  funext name
  rw [lookup_cons]
  rfl

/-- A copy of the innermost scope shows nothing new. -/
theorem lookup_copy (scope : Bindings τ) (outer : List (Bindings τ)) :
    lookup ⟨scope :: scope :: outer⟩ = lookup ⟨scope :: outer⟩ := by
  funext name
  simp only [lookup_cons]
  cases scope.get? name <;> rfl

theorem lookup_set (scope : Bindings τ) (outer : List (Bindings τ)) (name : String) (value : τ) :
    lookup ⟨scope.set name value :: outer⟩ = Env.set (lookup ⟨scope :: outer⟩) name value := by
  funext other
  unfold Env.set
  by_cases h : other = name
  · subst h
    rw [if_pos rfl, lookup_cons, Bindings.get?_set_self]
    rfl
  · rw [if_neg h, lookup_cons, lookup_cons, Bindings.get?_set_of_ne _ h]

end ScopeStack

/-! ## Walks that follow a passing -/

namespace Walk

variable {τ α β : Type}

/-- The walk reports what the passing reports, changes the innermost scope only, and leaves a stack
that shows the environment that the passing hands on. -/
def Follows (w : Walk τ α) (p : Passing τ α) : Prop :=
  ∀ (scope : Bindings τ) (outer : List (Bindings τ)), ∃ scope',
    let r := p (ScopeStack.lookup ⟨scope :: outer⟩)
    w ⟨scope :: outer⟩ = (⟨r.findings, r.result.map Prod.fst⟩, ⟨scope' :: outer⟩) ∧
      ∀ a env, r.result = .ok (a, env) → ScopeStack.lookup ⟨scope' :: outer⟩ = env

theorem follows_ok (a : α) : (ok a : Walk τ α).Follows (.ok a) := by
  intro scope outer
  refine ⟨scope, rfl, ?_⟩
  intro b env h
  cases h
  rfl

theorem follows_fault (reason : Fault) : (fault reason : Walk τ α).Follows (.fault reason) := by
  intro scope outer
  refine ⟨scope, rfl, ?_⟩
  intro b env h
  cases h

theorem follows_reading (report : Env τ → Report α) :
    (reading report : Walk τ α).Follows (.reading report) := by
  intro scope outer
  refine ⟨scope, ?_⟩
  unfold reading Passing.reading Report.andThen
  generalize report (ScopeStack.lookup ⟨scope :: outer⟩) = r
  obtain ⟨findings, result⟩ := r
  cases result with
  | error e => exact ⟨rfl, fun a env h => by cases h⟩
  | ok b =>
    refine ⟨by simp [Report.ok, Except.map], ?_⟩
    intro a env h
    cases h
    rfl

theorem follows_note (severity : Severity) (pos : Position) (problem : Problem) :
    (note severity pos problem : Walk τ Unit).Follows (.note severity pos problem) :=
  follows_reading fun _ => .note severity pos problem

theorem follows_assign (name : String) (value : τ) :
    (assign name value).Follows (.assign name value) := by
  intro scope outer
  refine ⟨scope.set name value, rfl, ?_⟩
  intro a env h
  cases h
  exact ScopeStack.lookup_set scope outer name value

variable {w : Walk τ α} {p : Passing τ α}

theorem Follows.andThen {next : α → Walk τ β} {next' : α → Passing τ β} (h : w.Follows p)
    (hn : ∀ a, (next a).Follows (next' a)) : (w.andThen next).Follows (p.andThen next') := by
  intro scope outer
  obtain ⟨scope', hw, henv⟩ := h scope outer
  simp only [andThen_apply, hw, Passing.andThen, Report.andThen]
  generalize p (ScopeStack.lookup ⟨scope :: outer⟩) = r at henv
  obtain ⟨findings, result⟩ := r
  cases result with
  | error e => exact ⟨scope', rfl, fun a env h => by cases h⟩
  | ok r =>
    obtain ⟨a, env⟩ := r
    obtain ⟨scope'', hw', henv'⟩ := hn a scope' outer
    rw [henv a env rfl] at hw' henv'
    refine ⟨scope'', ?_, henv'⟩
    simp only [Except.map, hw']

theorem Follows.under (h : w.Follows p) (step : Step) : (w.under step).Follows (p.under step) := by
  intro scope outer
  obtain ⟨scope', hw, henv⟩ := h scope outer
  refine ⟨scope', ?_, henv⟩
  simp only [Walk.under, hw, Report.under, Passing.under]

theorem Follows.child (h : w.Follows p) : w.child.Follows p.child := by
  intro scope outer
  obtain ⟨scope', hw, -⟩ := h scope (scope :: outer)
  rw [ScopeStack.lookup_copy] at hw
  have hc : w.child ⟨scope :: outer⟩ = leave (w ⟨scope :: scope :: outer⟩) := rfl
  refine ⟨scope, ?_⟩
  rw [hc, hw]
  unfold Passing.child Report.andThen
  generalize p (ScopeStack.lookup ⟨scope :: outer⟩) = r
  obtain ⟨findings, result⟩ := r
  cases result with
  | error e => exact ⟨rfl, fun a env h => by cases h⟩
  | ok r =>
    refine ⟨by simp [leave, ScopeStack.pop, Report.ok, Except.map], ?_⟩
    intro a env h
    cases h
    rfl

/-- On a stack with one empty scope, the walk reports what the passing reports on the empty
environment. -/
theorem Follows.fresh (h : w.Follows p) (s : Scopes τ) :
    (w (s.clear.push {})).1 = ⟨(p .empty).findings, (p .empty).result.map Prod.fst⟩ := by
  obtain ⟨scope', hw, -⟩ := h {} []
  rw [ScopeStack.lookup_fresh] at hw
  exact congrArg Prod.fst hw

end Walk

end StyleLang
