import StyleLang.Finding
import StyleLang.Scope.Stack

/-!
# Reports

What a pass over an expression says: the findings in the order in which they were met, and a result
or the fault that stopped the pass. The findings before a fault are kept. Paths in a report start at
the node that it is about; `under` moves them up by an edge.
-/

namespace StyleLang

/-- Why a pass cannot go on. -/
inductive Fault where
  /-- A node stands at a place where nodes of its kind do not belong. -/
  | misplaced
  /-- The same, but the node cannot be shown: a number in it is over the limit on digits. -/
  | unprintable
  | scope (reason : ScopeError)
  deriving DecidableEq, Repr

/-- The fault of a node that stands where it does not belong. The complaint shows the node, with
all that is in it. -/
def Fault.ofNode (node : Node) : Fault := if node.printable then .misplaced else .unprintable

namespace Fault

theorem ofNode_ne_scope (node : Node) (reason : ScopeError) : ofNode node ≠ scope reason := by
  unfold ofNode
  split <;> nofun

end Fault

structure Report (α : Type) where
  findings : List Finding := []
  result : Except Fault α

namespace Report

variable {α β : Type}

def ok (a : α) : Report α := ⟨[], .ok a⟩

def fault (reason : Fault) : Report α := ⟨[], .error reason⟩

/-- Reports one finding, about the node that the report is about. -/
def note (severity : Severity) (pos : Position) (problem : Problem) : Report Unit :=
  ⟨[{ severity, problem, pos }], .ok ()⟩

/-- Goes on with the result, after the findings so far. -/
def andThen (r : Report α) (next : α → Report β) : Report β :=
  match r.result with
  | .error e => ⟨r.findings, .error e⟩
  | .ok a =>
    let rest := next a
    ⟨r.findings ++ rest.findings, rest.result⟩

instance : Monad Report where
  pure := ok
  bind := andThen

/-- The report as seen from one edge further up. -/
def under (step : Step) (r : Report α) : Report α :=
  { r with findings := r.findings.map (Finding.under step) }

/-! ## Laws -/

theorem bind_def (r : Report α) (next : α → Report β) : (r >>= next) = r.andThen next := rfl

@[simp] theorem ok_andThen (a : α) (next : α → Report β) : (ok a).andThen next = next a := rfl

@[simp] theorem fault_andThen (reason : Fault) (next : α → Report β) :
    (fault reason : Report α).andThen next = fault reason := rfl

@[simp] theorem andThen_ok (r : Report α) : r.andThen ok = r := by
  obtain ⟨findings, result⟩ := r
  cases result <;> simp [andThen, ok]

/-- A report that goes on and returns has returned before. -/
theorem exists_of_andThen {r : Report α} {next : α → Report β} {b : β}
    (h : (r.andThen next).result = .ok b) :
    ∃ a, r.result = .ok a ∧ (next a).result = .ok b := by
  obtain ⟨findings, _ | a⟩ := r
  · cases h
  · exact ⟨a, rfl, h⟩

theorem result_andThen {r : Report α} {a : α} (h : r.result = .ok a) (next : α → Report β) :
    (r.andThen next).result = (next a).result := by
  unfold andThen
  rw [h]

theorem findings_andThen {r : Report α} {a : α} (h : r.result = .ok a) (next : α → Report β) :
    (r.andThen next).findings = r.findings ++ (next a).findings := by
  unfold andThen
  rw [h]

theorem andThen_congr {r : Report α} {next next' : α → Report β}
    (h : ∀ a, r.result = .ok a → next a = next' a) : r.andThen next = r.andThen next' := by
  obtain ⟨findings, _ | a⟩ := r
  · rfl
  · simp only [andThen, h a rfl]

theorem andThen_assoc {γ : Type} (r : Report α) (f : α → Report β) (g : β → Report γ) :
    (r.andThen f).andThen g = r.andThen fun a => (f a).andThen g := by
  obtain ⟨findings, result⟩ := r
  cases result with
  | error e => rfl
  | ok a =>
    simp only [andThen]
    cases (f a).result <;> simp

instance : LawfulMonad Report := LawfulMonad.mk' Report andThen_ok ok_andThen andThen_assoc

@[simp] theorem under_ok (step : Step) (a : α) : (ok a).under step = ok a := rfl

@[simp] theorem under_fault (step : Step) (reason : Fault) :
    (fault reason : Report α).under step = fault reason := rfl

end Report

end StyleLang
