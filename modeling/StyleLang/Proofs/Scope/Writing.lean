import StyleLang.Proofs.Scope.Restoration
import StyleLang.Proofs.Scope.Snapshot

/-!
# Writing to shared scopes

A scope that is held by reference may stand on the stack several times and under several handles,
and a write shows wherever the scope is found. But no other scope changes, and in this one no other
name changes its meaning. Main statements: what one action does to what the scopes say of names, and
from it what a run does: a scope says of a name what was written there last. So a name that is bound
is looked up as it was bound, and all other names as before.
-/

namespace StyleLang

namespace SharedScopes

variable {α : Type} {s : SharedScopes α} {action : ScopeAction α} {ref : ScopeRef} {name : String}
  {value : α}

/-! ## One action -/

theorem get?_write {other : ScopeRef} (hother : other < s.cells.length) (ref : ScopeRef)
    (name other' : String) (value : α) :
    ((s.write ref name value).contents other).get? other' =
      if ref = other ∧ name = other' then some value else (s.contents other).get? other' := by
  by_cases href : ref = other
  · subst href
    rw [contents_write_self hother]
    by_cases hname : name = other'
    · rw [if_pos ⟨rfl, hname⟩, hname, Bindings.get?_set_self]
    · rw [if_neg fun h => hname h.2, Bindings.get?_set_of_ne _ (Ne.symm hname)]
  · rw [if_neg fun h => href h.1, contents_write_of_ne (Ne.symm href)]

theorem act_bind (h : s.stack.peek = .ok ref) (name : String) (value : α) :
    s.act (.bind name value) = (.ok .done, s.write ref name value) := by
  simp only [act, h]

/-- An action that writes nothing leaves all scopes that were made as they are. -/
theorem spares_of_not_written (h : ∀ ref name, s.written? ref name action = none) :
    Spares s.cells.length s (s.act action).2 := by
  have htouch := touches_act s action
  generalize hcells : (s.act action).2.cells = cells at htouch
  cases htouch with
  | nothing => exact spares_of_cells_eq hcells
  | make scope => exact spares_of_append (Nat.le_refl _) hcells
  | write hwritten => cases (h _ _).symm.trans hwritten

/-- An action writes to one place of one scope and does nothing else, or it writes nothing. -/
theorem writes_once_or_not (hlinked : s.Linked) (action : ScopeAction α) :
    (∃ ref name value, ref < s.cells.length ∧ (s.act action).2 = s.write ref name value ∧
      ∀ other other', s.written? other other' action =
        if ref = other ∧ name = other' then some value else none) ∨
      ∀ ref name, s.written? ref name action = none := by
  cases action with
  | bind name value =>
    cases hpeek : s.stack.peek with
    | error e =>
      refine .inr fun ref other => if_neg fun h => ?_
      unfold ScopeStack.peek at hpeek
      rw [(List.head?_eq_some_iff.1 h.1).choose_spec] at hpeek
      cases hpeek
    | ok ref =>
      have hhead := head?_of_peek hpeek
      refine .inl ⟨ref, name, value, hlinked.stack ref (mem_of_peek hpeek), ?_, fun r n => ?_⟩
      · rw [act_bind hpeek]
      · simp only [written?, hhead, Option.some.injEq]
  | set handle name value =>
    cases hhandle : s.handles.get? handle with
    | none =>
      refine .inr fun ref other => if_neg fun h => ?_
      cases hhandle.symm.trans h.1
    | some ref =>
      refine .inl ⟨ref, name, value, hlinked.handles handle ref hhandle, act_set hhandle name value,
        fun r n => ?_⟩
      simp only [written?, hhandle, Option.some.injEq]
  | _ => exact .inr fun _ _ => rfl

/-- A scope that nothing is written to is as before, whatever else the action does. -/
theorem contents_act_of_not_written (hlinked : s.Linked) (href : ref < s.cells.length)
    (h : ∀ name, s.written? ref name action = none) :
    (s.act action).2.contents ref = s.contents ref := by
  rcases writes_once_or_not hlinked action with ⟨other, name, value, -, hact, hwritten⟩ | hnone
  · have hother : other ≠ ref := by
      rintro rfl
      have hnone := h name
      rw [hwritten, if_pos ⟨rfl, rfl⟩] at hnone
      cases hnone
    rw [hact, contents_write_of_ne (Ne.symm hother)]
  · exact (spares_of_not_written hnone).contents ref href

/-- A scope says of a name what the action writes, or else what it said before. -/
theorem get?_act (hlinked : s.Linked) (href : ref < s.cells.length) (name : String)
    (action : ScopeAction α) : ((s.act action).2.contents ref).get? name =
      (s.written? ref name action).or ((s.contents ref).get? name) := by
  rcases writes_once_or_not hlinked action with ⟨other, name', value, -, hact, hwritten⟩ | hnone
  · rw [hact, get?_write href, hwritten]
    split <;> rfl
  · rw [(spares_of_not_written hnone).contents ref href, hnone, Option.none_or]

/-! ## Runs -/

/-- What the actions write last under the name into the scope of the reference. -/
def lastWritten? (s : SharedScopes α) (ref : ScopeRef) (name : String) :
    List (ScopeAction α) → Option α
  | [] => none
  | action :: actions =>
    ((s.act action).2.lastWritten? ref name actions).or (s.written? ref name action)

/-- A scope says of a name what a run wrote there last, or else what it said before. -/
theorem get?_after (hlinked : s.Linked) (href : ref < s.cells.length) (name : String)
    (actions : List (ScopeAction α)) : ((s.after actions).contents ref).get? name =
      (s.lastWritten? ref name actions).or ((s.contents ref).get? name) := by
  induction actions generalizing s with
  | nil => rfl
  | cons action actions ih =>
    have hlength := (touches_act s action).length_le
    rw [after_cons, ih (hlinked.act action) (Nat.lt_of_lt_of_le href hlength),
      get?_act hlinked href, lastWritten?, Option.or_assoc]

/-! ## Bindings and children -/

/-- A name that is bound is looked up as it was bound, and all other names as before. -/
theorem lookup_act_bind (hlinked : s.Linked) (h : s.stack.isEmpty = false) (name : String)
    (value : α) : (s.act (.bind name value)).1 = .ok .done ∧
      (s.act (.bind name value)).2.lookup name = some value ∧
      ∀ other, other ≠ name → (s.act (.bind name value)).2.lookup other = s.lookup other := by
  obtain ⟨top, stack, hstack⟩ := exists_push_of_isEmpty h
  have hpeek : s.stack.peek = .ok top := by rw [hstack, ScopeStack.peek_push]
  have htop := hlinked.stack top (mem_of_peek hpeek)
  -- the lookup starts at the innermost scope, so nothing stands before it
  have hexposed : s.Exposed s.stack.scopes top name :=
    ⟨[], stack.scopes, by rw [hstack]; rfl, fun _ hr => absurd hr List.not_mem_nil⟩
  rw [act_bind hpeek]
  exact ⟨rfl, lookup_write_of_exposed htop hexposed value,
    fun other hother => lookup_write_of_ne htop hother value⟩

/-- A child is a new scope with the contents of the innermost one. -/
theorem child_of_enter {top : ScopeRef} (h : s.stack.peek = .ok top) (handle : Option String) :
    let inside := (s.act (.enter handle)).2
    inside.stack = s.stack.push s.cells.length ∧
      inside.contents s.cells.length = s.contents top := by
  have hcells := enter_of_peek h handle
  refine ⟨?_, ?_⟩
  · simp only [act, h, stack_remember]
    rfl
  · rw [contents, hcells]
    simp [List.getD_eq_getElem?_getD]

/-- **Writes touch one scope only.** In every history an action that binds a name changes only the
innermost scope, an action that sets a name only the scope under its handle, both only at that name,
and no other action changes a scope. So after any further actions a scope says of a name what was
written there last. A child is none of the scopes that were made before, and starts with the
contents of the innermost one. After a name is bound it is looked up as it was bound, and all other
names as before. -/
theorem writes_touch_one_scope (history : List (ScopeAction α)) (action : ScopeAction α) :
    let s := ({} : SharedScopes α).after history
    let later := (s.act action).2
    (∀ ref < s.cells.length,
      (∀ name, (later.contents ref).get? name =
        (s.written? ref name action).or ((s.contents ref).get? name)) ∧
      ((∀ name, s.written? ref name action = none) → later.contents ref = s.contents ref) ∧
      ∀ actions name, ((s.after actions).contents ref).get? name =
        (s.lastWritten? ref name actions).or ((s.contents ref).get? name)) ∧
    (∀ handle top, action = .enter handle → s.stack.peek = .ok top → ∃ child,
      later.stack = s.stack.push child ∧ later.contents child = s.contents top ∧
      s.cells.length ≤ child ∧ (∀ ref ∈ s.stack.scopes, ref ≠ child) ∧
      ∀ name ref, s.handles.get? name = some ref → ref ≠ child) ∧
    ∀ name value, action = .bind name value → s.stack.isEmpty = false →
      (s.act action).1 = .ok .done ∧ later.lookup name = some value ∧
      ∀ other, other ≠ name → later.lookup other = s.lookup other := by
  intro s later
  have hlinked : s.Linked := linked_empty.after history
  refine ⟨fun ref href => ⟨fun name => get?_act hlinked href name action,
    contents_act_of_not_written hlinked href,
    fun actions name => get?_after hlinked href name actions⟩, ?_, ?_⟩
  · rintro handle top rfl hpeek
    obtain ⟨hstack, hcontents⟩ := child_of_enter hpeek handle
    exact ⟨s.cells.length, hstack, hcontents, Nat.le_refl _,
      fun ref href => Nat.ne_of_lt (hlinked.stack ref href),
      fun name ref href => Nat.ne_of_lt (hlinked.handles name ref href)⟩
  · rintro name value rfl hnonempty
    exact lookup_act_bind hlinked hnonempty name value

/-- A scope stands on the stack twice, around another one. A value that stands for nothing is bound
in it, and hides the one that was there. -/
theorem writes_touch_one_scope_twice :
    let history : List (ScopeAction (Option Nat)) := [.push [("x", some 1)] (some "shared"),
      .push [("x", some 2), ("y", some 3)] none, .repush "shared"]
    let s := ({} : SharedScopes (Option Nat)).after history
    let later := (s.act (.bind "x" none)).2
    s.lookup "x" = some (some 1) ∧ later.lookup "x" = some none ∧ later.lookup "y" = s.lookup "y" ∧
      later.contents 1 = s.contents 1 := by
  intro history s later
  obtain ⟨hcontents, -, hbind⟩ := writes_touch_one_scope history (.bind "x" none)
  obtain ⟨-, hx, hy⟩ := hbind "x" none rfl rfl
  obtain ⟨-, hother, -⟩ := hcontents 1 (by decide)
  have hhead : s.stack.scopes.head? = some 0 := by decide
  have hunwritten : ∀ name, s.written? 1 name (.bind "x" none) = none := fun name => by
    simp [written?, hhead]
  exact ⟨by decide, hx, hy "y" (by decide), hother hunwritten⟩

end SharedScopes

end StyleLang
