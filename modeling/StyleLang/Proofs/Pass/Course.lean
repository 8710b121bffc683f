import StyleLang.Pass.Walk

/-!
# Courses

A course is a walk written out, so that what happens in it can be told: `walk` is the walk that it
stands for, and `moments` are the stacks of scopes that the walk passes through, each with the place
in the tree where the pass then stands. Main statements: the moments lead from the first stack to
the last by single operations on the stack, and at each of them every scope has the names of the
scopes around it.
-/

namespace StyleLang

variable {τ α β : Type}

inductive Course (τ : Type) : Type → Type 1 where
  | ok {α : Type} (a : α) : Course τ α
  | fault {α : Type} (reason : Fault) : Course τ α
  | reading {α : Type} (report : (String → Option τ) → Report α) : Course τ α
  | assign (name : String) (value : τ) : Course τ Unit
  | child {α : Type} (inside : Course τ α) : Course τ α
  | under {α : Type} (step : Step) (c : Course τ α) : Course τ α
  | andThen {α β : Type} (c : Course τ α) (next : α → Course τ β) : Course τ β

/-- A stack of scopes, and the place in the tree where the pass stands when it has that stack. The
place after the last statement of a block has the index that one more statement would have. -/
structure Moment (τ : Type) where
  path : Path := []
  scopes : Scopes τ

def Moment.under (step : Step) (m : Moment τ) : Moment τ := { m with path := step :: m.path }

@[simp] theorem Moment.under_scopes (step : Step) (m : Moment τ) :
    (m.under step).scopes = m.scopes := rfl

@[simp] theorem Moment.under_path (step : Step) (m : Moment τ) :
    (m.under step).path = step :: m.path := rfl

namespace Course

instance : Monad (Course τ) where
  pure := ok
  bind := andThen

theorem bind_def (c : Course τ α) (next : α → Course τ β) : (c >>= next) = c.andThen next := rfl

def walk {α : Type} : Course τ α → Walk τ α
  | ok a => .ok a
  | fault reason => .fault reason
  | reading report => .reading report
  | assign name value => .assign name value
  | child inside => .child inside.walk
  | under step c => .under step c.walk
  | andThen c next => .andThen c.walk fun a => (next a).walk

/-- The moments of the walk from the given scopes, in order. Nothing is left out: the stack is
looked at before and after whatever changes it. -/
def moments {α : Type} : Course τ α → Scopes τ → List (Moment τ)
  | ok _, s => [{ scopes := s }]
  | fault _, s => [{ scopes := s }]
  | reading _, s => [{ scopes := s }]
  | assign name value, s => [{ scopes := s }, { scopes := (Walk.assign name value s).2 }]
  | child inside, s =>
    match s.enter with
    | .error _ => [{ scopes := s }]
    | .ok s' =>
      { scopes := s } :: (inside.moments s' ++ [{ scopes := (Walk.leave (inside.walk s')).2 }])
  | under step c, s => (c.moments s).map (Moment.under step)
  | andThen c next, s =>
    c.moments s ++
      match (c.walk s).1.result with
      | .error _ => []
      | .ok a => (next a).moments (c.walk s).2

end Course

/-! ## From one moment to the next -/

namespace ScopeStack

/-- One operation on the stack, or none, leads from the one to the other. -/
inductive Moves (s : Scopes τ) : Scopes τ → Prop where
  | stay : Moves s s
  | bind {name : String} {value : τ} {t : Scopes τ} (h : s.bind name value = .ok t) : Moves s t
  | enter {t : Scopes τ} (h : s.enter = .ok t) : Moves s t
  | pop {scope : Bindings τ} {t : Scopes τ} (h : s.pop = .ok (scope, t)) : Moves s t

end ScopeStack

/-- The moments lead from the first stack to the second one. -/
inductive Trail : Scopes τ → List (Moment τ) → Scopes τ → Prop where
  | one (path : Path) (s : Scopes τ) : Trail s [⟨path, s⟩] s
  | cons {path : Path} {s t u : Scopes τ} {ms : List (Moment τ)} (h : s.Moves t)
      (rest : Trail t ms u) : Trail s (⟨path, s⟩ :: ms) u

namespace Trail

theorem append {s t u v : Scopes τ} {ms ms' : List (Moment τ)} (h : Trail s ms t)
    (hm : t.Moves u) (h' : Trail u ms' v) : Trail s (ms ++ ms') v := by
  induction h with
  | one path s => exact .cons hm h'
  | cons hs _ ih => exact .cons hs (ih hm)

theorem under {s t : Scopes τ} {ms : List (Moment τ)} (h : Trail s ms t) (step : Step) :
    Trail s (ms.map (Moment.under step)) t := by
  induction h with
  | one path s => exact .one _ s
  | cons hs _ ih => exact .cons hs ih

end Trail

theorem Walk.moves_assign (name : String) (value : τ) (s : Scopes τ) :
    s.Moves (assign name value s).2 := by
  unfold assign
  split
  · next t h => exact .bind h
  · exact .stay

theorem Walk.leave_scopes {r : Report α × Scopes τ} {scope : Bindings τ}
    {outer : List (Bindings τ)} (h : r.2 = ⟨scope :: outer⟩) : (leave r).2 = ⟨outer⟩ := by
  obtain ⟨report, s⟩ := r
  obtain rfl := h
  rfl

theorem Walk.moves_leave (r : Report α × Scopes τ) : r.2.Moves (leave r).2 := by
  obtain ⟨report, s⟩ := r
  unfold leave
  dsimp only
  split
  · next scope t h => exact .pop h
  · exact .stay

namespace Course

theorem walk_child (inside : Course τ α) {s s' : Scopes τ} (h : s.enter = .ok s') :
    (child inside).walk s = Walk.leave (inside.walk s') := by
  rw [walk, Walk.child, h]

theorem moments_child (inside : Course τ α) {s s' : Scopes τ} (h : s.enter = .ok s') :
    (child inside).moments s =
      { scopes := s } ::
        (inside.moments s' ++ [{ scopes := (Walk.leave (inside.walk s')).2 }]) := by
  rw [moments, h]

/-- The moments of a walk lead from the stack that it is given to the one that it leaves. -/
theorem trail {α : Type} : ∀ (c : Course τ α) (s : Scopes τ),
    Trail s (c.moments s) (c.walk s).2
  | ok _, s => .one _ s
  | fault _, s => .one _ s
  | reading _, s => .one _ s
  | assign name value, s => .cons (Walk.moves_assign name value s) (.one _ _)
  | child inside, s => by
    cases he : s.enter with
    | error e =>
      rw [moments, walk, Walk.child, he]
      exact .one _ s
    | ok s' =>
      rw [moments_child inside he, walk_child inside he]
      exact .cons (.enter he) ((inside.trail s').append (Walk.moves_leave _) (.one _ _))
  | under step c, s => (c.trail s).under step
  | andThen c next, s => by
    rw [moments, walk, Walk.andThen_apply]
    cases hr : (c.walk s).1.result with
    | error e =>
      simp only [List.append_nil]
      exact c.trail s
    | ok a => exact (c.trail s).append .stay ((next a).trail _)

end Course

/-! ## Scopes inside scopes -/

namespace Bindings

/-- The names of the first are names of the second. -/
def Within (outer inner : Bindings τ) : Prop :=
  ∀ name, (outer.get? name).isSome = true → (inner.get? name).isSome = true

theorem Within.refl (scope : Bindings τ) : scope.Within scope := fun _ h => h

theorem Within.trans {a b c : Bindings τ} (h : a.Within b) (h' : b.Within c) : a.Within c :=
  fun name ha => h' name (h name ha)

theorem within_set (scope : Bindings τ) (name : String) (value : τ) :
    scope.Within (scope.set name value) := by
  intro other h
  by_cases hn : other = name
  · rw [hn, get?_set_self, Option.isSome_some]
  · rwa [get?_set_of_ne _ hn]

end Bindings

namespace ScopeStack

/-- There is a scope, and each scope has the names of all scopes around it. -/
structure Nested (s : Scopes τ) : Prop where
  nonempty : s.scopes ≠ []
  within : s.scopes.Pairwise fun inner outer => outer.Within inner

theorem nested_fresh : (push {} {} : Scopes τ).Nested :=
  ⟨List.cons_ne_nil _ _, List.pairwise_singleton _ _⟩

/-- The innermost scope may gain names. -/
theorem Nested.grow {scope scope' : Bindings τ} {outer : List (Bindings τ)}
    (h : Nested ⟨scope :: outer⟩) (hs : scope.Within scope') : Nested ⟨scope' :: outer⟩ := by
  obtain ⟨hscope, houter⟩ := List.pairwise_cons.1 h.within
  exact ⟨List.cons_ne_nil _ _, List.pairwise_cons.2 ⟨fun o ho => (hscope o ho).trans hs, houter⟩⟩

/-- A copy of the innermost scope may be entered. -/
theorem Nested.copy {scope : Bindings τ} {outer : List (Bindings τ)}
    (h : Nested ⟨scope :: outer⟩) : Nested ⟨scope :: scope :: outer⟩ := by
  refine ⟨List.cons_ne_nil _ _, List.pairwise_cons.2 ⟨fun o ho => ?_, h.within⟩⟩
  rcases List.mem_cons.1 ho with rfl | ho
  · exact .refl _
  · exact (List.pairwise_cons.1 h.within).1 o ho

/-- The innermost scope alone shows what the whole stack shows. -/
theorem Nested.lookup {scope : Bindings τ} {outer : List (Bindings τ)}
    (h : Nested ⟨scope :: outer⟩) (name : String) :
    ScopeStack.lookup ⟨scope :: outer⟩ name = scope.get? name := by
  cases hn : scope.get? name with
  | some value =>
    unfold ScopeStack.lookup lookupBy
    rw [List.findSome?_cons, hn]
  | none =>
    refine List.findSome?_eq_none_iff.2 fun o ho => ?_
    rcases List.mem_cons.1 ho with rfl | ho
    · exact hn
    · have hwithin := (List.pairwise_cons.1 h.within).1 o ho name
      rw [hn] at hwithin
      cases ho : o.get? name with
      | none => rfl
      | some value =>
        rw [ho] at hwithin
        cases hwithin rfl

end ScopeStack

namespace Course

open ScopeStack (Nested)

/-- A walk on nested scopes changes the innermost one only, which keeps its names; and the scopes
are nested at each of its moments. -/
theorem nested_moments {α : Type} : ∀ (c : Course τ α) {scope : Bindings τ}
    {outer : List (Bindings τ)}, Nested ⟨scope :: outer⟩ →
      (∀ m ∈ c.moments ⟨scope :: outer⟩, m.scopes.Nested) ∧
        ∃ scope', (c.walk ⟨scope :: outer⟩).2 = ⟨scope' :: outer⟩ ∧ scope.Within scope'
  | ok _, scope, _, h | fault _, scope, _, h | reading _, scope, _, h => by
    refine ⟨fun m hm => ?_, scope, rfl, .refl _⟩
    rw [List.mem_singleton.1 hm]
    exact h
  | assign name value, scope, outer, h => by
    have hset := scope.within_set name value
    refine ⟨fun m hm => ?_, scope.set name value, rfl, hset⟩
    rcases List.mem_cons.1 hm with rfl | hm
    · exact h
    · rw [List.mem_singleton.1 hm]
      exact h.grow hset
  | child inside, scope, outer, h => by
    obtain ⟨hinside, scope', hwalk, -⟩ := inside.nested_moments h.copy
    have hleave := Walk.leave_scopes hwalk
    have henter : ScopeStack.enter ⟨scope :: outer⟩ = .ok ⟨scope :: scope :: outer⟩ := rfl
    refine ⟨fun m hm => ?_, scope, hleave, .refl _⟩
    rw [moments_child inside henter] at hm
    rcases List.mem_cons.1 hm with rfl | hm
    · exact h
    rcases List.mem_append.1 hm with hm | hm
    · exact hinside m hm
    · rw [List.mem_singleton.1 hm, hleave]
      exact h
  | under step c, scope, outer, h => by
    obtain ⟨hmoments, hwalk⟩ := c.nested_moments h
    refine ⟨fun m hm => ?_, hwalk⟩
    obtain ⟨m', hm', rfl⟩ := List.mem_map.1 hm
    exact hmoments m' hm'
  | andThen c next, scope, outer, h => by
    obtain ⟨hmoments, scope', hwalk, hwithin⟩ := c.nested_moments h
    rw [moments, walk, Walk.andThen_apply]
    cases hr : (c.walk ⟨scope :: outer⟩).1.result with
    | error e =>
      refine ⟨fun m hm => hmoments m ?_, scope', hwalk, hwithin⟩
      rwa [List.append_nil] at hm
    | ok a =>
      obtain ⟨hnext, scope'', hwalk', hwithin'⟩ := (next a).nested_moments (h.grow hwithin)
      simp only [hwalk]
      refine ⟨fun m hm => ?_, scope'', hwalk', hwithin.trans hwithin'⟩
      exact (List.mem_append.1 hm).elim (hmoments m) (hnext m)

end Course

end StyleLang
