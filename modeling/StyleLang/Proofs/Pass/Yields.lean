import StyleLang.Proofs.Pass.Environment

/-!
# What a pass yields

A report yields a result if no fault stopped it and every problem that it holds is admitted. What a
composed pass yields comes apart into what its parts yield, so a proof about a pass never looks at
lists of findings. With no problem admitted a report yields a result if it is nothing but that.
-/

namespace StyleLang

variable {τ α β : Type} {admits : Problem → Prop}

namespace Report

def Yields (admits : Problem → Prop) (r : Report α) (a : α) : Prop :=
  r.result = .ok a ∧ ∀ f ∈ r.findings, admits f.problem

theorem yields_none_iff {r : Report α} {a : α} :
    r.Yields (fun _ => False) a ↔ r = .ok a := by
  obtain ⟨findings, result⟩ := r
  simp only [Yields, ok, Report.mk.injEq]
  constructor
  · rintro ⟨hr, hf⟩
    exact ⟨List.eq_nil_iff_forall_not_mem.2 hf, hr⟩
  · rintro ⟨rfl, hr⟩
    exact ⟨hr, fun f hf => by cases hf⟩

theorem Yields.mono {r : Report α} {a : α} {admits' : Problem → Prop} (h : r.Yields admits a)
    (hp : ∀ problem, admits problem → admits' problem) : r.Yields admits' a :=
  ⟨h.1, fun f hf => hp _ (h.2 f hf)⟩

theorem yields_ok {a b : α} : (ok a).Yields admits b ↔ b = a := by
  unfold Yields ok
  constructor
  · rintro ⟨h, -⟩
    exact (Except.ok.inj h).symm
  · rintro rfl
    exact ⟨rfl, fun f hf => by cases hf⟩

theorem not_yields_fault {reason : Fault} {a : α} :
    ¬ (fault reason : Report α).Yields admits a := by
  rintro ⟨h, -⟩
  cases h

theorem yields_note {severity : Severity} {pos : Position} {problem : Problem} {a : Unit} :
    (note severity pos problem).Yields admits a ↔ admits problem := by
  unfold Yields note
  constructor
  · rintro ⟨-, h⟩
    exact h _ (List.mem_singleton_self _)
  · intro h
    refine ⟨rfl, fun f hf => ?_⟩
    rw [List.mem_singleton.1 hf]
    exact h

theorem yields_andThen {r : Report α} {next : α → Report β} {b : β} :
    (r.andThen next).Yields admits b ↔
      ∃ a, r.Yields admits a ∧ (next a).Yields admits b := by
  obtain ⟨findings, result⟩ := r
  unfold Yields andThen
  cases result with
  | error e =>
    constructor
    · rintro ⟨h, -⟩
      cases h
    · rintro ⟨a, ⟨h, -⟩, -⟩
      cases h
  | ok a =>
    simp only [List.mem_append]
    constructor
    · rintro ⟨h, hf⟩
      exact ⟨a, ⟨rfl, fun f hm => hf f (.inl hm)⟩, h, fun f hm => hf f (.inr hm)⟩
    · rintro ⟨a', ⟨ha, hf⟩, h, hf'⟩
      cases ha
      exact ⟨h, fun f hm => hm.elim (hf f) (hf' f)⟩

theorem yields_under {step : Step} {r : Report α} {a : α} :
    (r.under step).Yields admits a ↔ r.Yields admits a := by
  unfold Yields under
  simp only [List.forall_mem_map, Finding.under_problem]

end Report

open Report

namespace Passing

theorem yields_ok {a b : α} {env env' : Env τ} :
    (ok a env).Yields admits (b, env') ↔ b = a ∧ env' = env := by
  unfold ok
  rw [Report.yields_ok, Prod.mk.injEq]

theorem yields_andThen {p : Passing τ α} {next : α → Passing τ β} {b : β} {env env' : Env τ} :
    (p.andThen next env).Yields admits (b, env') ↔
      ∃ a mid, (p env).Yields admits (a, mid) ∧ (next a mid).Yields admits (b, env') := by
  unfold andThen
  rw [Report.yields_andThen, Prod.exists]

theorem yields_reading {report : Env τ → Report α} {a : α} {env env' : Env τ} :
    (reading report env).Yields admits (a, env') ↔
      (report env).Yields admits a ∧ env' = env := by
  unfold reading
  rw [Report.yields_andThen]
  constructor
  · rintro ⟨b, hb, h⟩
    obtain ⟨rfl, rfl⟩ := Prod.mk.inj (Report.yields_ok.1 h)
    exact ⟨hb, rfl⟩
  · rintro ⟨h, rfl⟩
    exact ⟨a, h, Report.yields_ok.2 rfl⟩

theorem yields_note {severity : Severity} {pos : Position} {problem : Problem} {a : Unit}
    {env env' : Env τ} :
    (note severity pos problem env).Yields admits (a, env') ↔ admits problem ∧ env' = env := by
  unfold note
  rw [yields_reading, Report.yields_note]

theorem yields_assign {name : String} {value : τ} {a : Unit} {env env' : Env τ} :
    (assign name value env).Yields admits (a, env') ↔ env' = env.set name value := by
  unfold assign
  rw [Report.yields_ok, Prod.mk.injEq]
  exact ⟨And.right, fun h => ⟨rfl, h⟩⟩

theorem yields_child {p : Passing τ α} {a : α} {env env' : Env τ} :
    (p.child env).Yields admits (a, env') ↔
      (∃ inner, (p env).Yields admits (a, inner)) ∧ env' = env := by
  unfold child
  rw [Report.yields_andThen]
  constructor
  · rintro ⟨⟨b, inner⟩, hb, h⟩
    obtain ⟨rfl, rfl⟩ := Prod.mk.inj (Report.yields_ok.1 h)
    exact ⟨⟨inner, hb⟩, rfl⟩
  · rintro ⟨⟨inner, h⟩, rfl⟩
    exact ⟨(a, inner), h, Report.yields_ok.2 rfl⟩

theorem yields_under {step : Step} {p : Passing τ α} {a : α × Env τ} {env : Env τ} :
    (p.under step env).Yields admits a ↔ (p env).Yields admits a := Report.yields_under

end Passing

end StyleLang
