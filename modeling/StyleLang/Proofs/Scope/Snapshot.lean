import StyleLang.Proofs.Scope.History

/-!
# Children as snapshots

A child is entered with a copy of the scope that is innermost then. A later write into a scope below
the child cannot show in the child for a name that the copy has. But a lookup goes on through the
scopes below for a name that none of the inner ones has, so for such a name the write shows. Main
statements: exactly which names a write below a child shows for, and that children are no snapshots
for lookups of all names.
-/

namespace StyleLang

namespace SharedScopes

variable {α : Type} {s : SharedScopes α} {ref : ScopeRef} {name : String}

/-! ## Lookups after a write -/

/-- Looking the name up in the scopes, the innermost first, gets as far as the referenced one. -/
def Exposed (s : SharedScopes α) (scopes : List ScopeRef) (ref : ScopeRef) (name : String) : Prop :=
  ∃ inner outer, scopes = inner ++ ref :: outer ∧ ∀ r ∈ inner, r ≠ ref ∧ ¬ s.Binds r name

theorem Exposed.cons {scopes : List ScopeRef} {r : ScopeRef} (h : s.Exposed scopes ref name)
    (hr : r ≠ ref) (hfree : ¬ s.Binds r name) : s.Exposed (r :: scopes) ref name := by
  obtain ⟨inner, outer, rfl, hinner⟩ := h
  exact ⟨r :: inner, outer, rfl, List.forall_mem_cons.2 ⟨⟨hr, hfree⟩, hinner⟩⟩

/-- What is bound in the innermost scope is exposed nowhere else. -/
theorem not_exposed_of_binds {scopes : List ScopeRef} {top : ScopeRef} (hbound : s.Binds top name)
    (hother : ref ≠ top) : ¬ s.Exposed (top :: scopes) ref name := by
  rintro ⟨inner, outer, hscopes, hinner⟩
  cases inner with
  | nil => exact hother (List.cons.inj hscopes).1.symm
  | cons r inner =>
    obtain ⟨rfl, -⟩ := List.cons.inj hscopes
    exact (hinner top List.mem_cons_self).2 hbound

theorem get?_eq_none_of_not_binds (h : ¬ s.Binds ref name) : (s.contents ref).get? name = none :=
  Option.eq_none_iff_forall_ne_some.2 fun value hvalue => h ⟨value, hvalue⟩

theorem lookup_eq (s : SharedScopes α) (name : String) :
    s.lookup name = s.stack.scopes.findSome? fun r => (s.contents r).get? name := rfl

theorem lookup_write (s : SharedScopes α) (ref : ScopeRef) (name : String) (value : α)
    (other : String) : (s.write ref name value).lookup other =
      s.stack.scopes.findSome? fun r => ((s.write ref name value).contents r).get? other := rfl

theorem lookup_write_of_ne (href : ref < s.cells.length) {other : String} (h : other ≠ name)
    (value : α) : (s.write ref name value).lookup other = s.lookup other := by
  rw [lookup_write, lookup_eq]
  congr 1
  funext r
  by_cases hr : r = ref
  · rw [hr, contents_write_self href, Bindings.get?_set_of_ne _ h]
  · rw [contents_write_of_ne hr]

theorem lookup_write_of_exposed (href : ref < s.cells.length)
    (h : s.Exposed s.stack.scopes ref name) (value : α) :
    (s.write ref name value).lookup name = some value := by
  obtain ⟨inner, outer, hscopes, hinner⟩ := h
  have hnone : inner.findSome? (fun r => ((s.write ref name value).contents r).get? name) = none :=
    List.findSome?_eq_none_iff.2 fun r hr => by
      obtain ⟨hother, hfree⟩ := hinner r hr
      rw [contents_write_of_ne hother, get?_eq_none_of_not_binds hfree]
  rw [lookup_write, hscopes, List.findSome?_append, hnone, Option.none_or, List.findSome?_cons,
    contents_write_self href, Bindings.get?_set_self]

theorem lookup_write_of_not_exposed (h : ¬ s.Exposed s.stack.scopes ref name) (value : α) :
    (s.write ref name value).lookup name = s.lookup name := by
  rw [lookup_write, lookup_eq]
  generalize s.stack.scopes = scopes at h
  induction scopes with
  | nil => rfl
  | cons r scopes ih =>
    have hr : r ≠ ref := by
      rintro rfl
      exact h ⟨[], scopes, rfl, fun _ hm => absurd hm List.not_mem_nil⟩
    rw [List.findSome?_cons, List.findSome?_cons, contents_write_of_ne hr]
    -- the first scope answers, or the write is hidden in the scopes after it as well
    by_cases hbound : s.Binds r name
    · obtain ⟨v, hv⟩ := hbound
      rw [hv]
    · rw [get?_eq_none_of_not_binds hbound]
      exact ih fun hscopes => h (hscopes.cons hr hbound)

/-! ## Inside a child -/

/-- In some history a child was entered at `p`, where the scope `top` was innermost, and later, at
`s`, the child is innermost. -/
structure Inside (p s : SharedScopes α) (top child : ScopeRef) : Prop where
  before : ∃ actions, p = ({} : SharedScopes α).after actions
  parent : p.stack.peek = .ok top
  fresh : child = p.cells.length
  since : ∃ handle actions, s = (p.act (.enter handle)).2.after actions
  innermost : s.stack.peek = .ok child

variable {p : SharedScopes α} {top child : ScopeRef}

theorem Inside.linked (h : Inside p s top child) : s.Linked := by
  obtain ⟨actions, rfl⟩ := h.before
  obtain ⟨handle, actions', rfl⟩ := h.since
  exact ((linked_empty.after actions).act _).after actions'

/-- A child starts with a copy of the scope that was innermost. -/
theorem enter_of_peek (h : p.stack.peek = .ok top) (handle : Option String) :
    (p.act (.enter handle)).2.cells = p.cells ++ [p.contents top] := by
  simp only [act, h, cells_remember]
  rfl

/-- What was bound at the entry is bound in the child. -/
theorem Inside.binds (h : Inside p s top child) (hname : p.Binds top name) :
    s.Binds child name := by
  obtain ⟨handle, actions, rfl⟩ := h.since
  have hcells := enter_of_peek h.parent handle
  have hchild : child < (p.act (.enter handle)).2.cells.length := by
    rw [hcells, h.fresh, List.length_append]
    exact Nat.lt_succ_self _
  refine Binds.after ?_ hchild actions
  have hcontents : (p.act (.enter handle)).2.contents child = p.contents top := by
    simp [contents, hcells, h.fresh, List.getD_eq_getElem?_getD]
  unfold Binds
  rwa [hcontents]

theorem Inside.scopes (h : Inside p s top child) :
    s.stack.scopes = child :: s.stack.scopes.tail := by
  obtain ⟨rest, hscopes⟩ := List.head?_eq_some_iff.1 (head?_of_peek h.innermost)
  rw [hscopes, List.tail_cons]

theorem act_set {handle : String} (h : s.handles.get? handle = some ref) (name : String)
    (value : α) : (s.act (.set handle name value)).2 = s.write ref name value := by
  simp only [act, h]

/-- **What shows inside a child.** A write through a handle into another scope below the child does
not show for the names that were bound when the child was entered. It shows for the written name
just if a lookup of that name gets as far as the written scope, and then it is the new meaning. -/
theorem lookup_set_below (h : Inside p s top child) {handle : String}
    (hhandle : s.handles.get? handle = some ref) (hother : ref ≠ child) (name : String)
    (value : α) :
    let later := (s.act (.set handle name value)).2
    (∀ n, p.Binds top n → later.lookup n = s.lookup n) ∧
    (∀ n, later.lookup n = s.lookup n ↔
      n ≠ name ∨ ¬ s.Exposed s.stack.scopes ref name ∨ s.lookup name = some value) ∧
    (s.Exposed s.stack.scopes ref name → later.lookup name = some value) := by
  intro later
  have href : ref < s.cells.length := h.linked.handles handle ref hhandle
  have hlater : later = s.write ref name value := act_set hhandle name value
  have hshown : s.Exposed s.stack.scopes ref name → later.lookup name = some value := by
    intro hexposed
    rw [hlater, lookup_write_of_exposed href hexposed]
  have hhidden : ¬ s.Exposed s.stack.scopes ref name → later.lookup name = s.lookup name := by
    intro hfree
    rw [hlater, lookup_write_of_not_exposed hfree]
  have hapart : ∀ n, n ≠ name → later.lookup n = s.lookup n := by
    intro n hn
    rw [hlater, lookup_write_of_ne href hn]
  refine ⟨fun n hn => ?_, fun n => ?_, hshown⟩
  · by_cases hname : n = name
    · subst hname
      apply hhidden
      rw [h.scopes]
      exact not_exposed_of_binds (h.binds hn) hother
    · exact hapart n hname
  · by_cases hname : n = name
    · subst hname
      by_cases hexposed : s.Exposed s.stack.scopes ref n
      · rw [hshown hexposed]
        simp [hexposed, eq_comm]
      · simp [hhidden hexposed, hexposed]
    · simp [hapart n hname, hname]

/-- A name that both the child and its parent have: the write into the parent does not show. -/
theorem lookup_set_below_bound :
    let p := ({} : SharedScopes Nat).after [.push [("a", 1)] (some "parent")]
    let s := (p.act (.enter none)).2.after [.bind "b" 2]
    Inside p s 0 1 ∧ s.handles.get? "parent" = some 0 ∧
      (s.act (.set "parent" "a" 5)).2.lookup "a" = s.lookup "a" := by
  intro p s
  have hinside : Inside p s 0 1 := ⟨⟨_, rfl⟩, rfl, rfl, ⟨none, _, rfl⟩, rfl⟩
  have hhandle : s.handles.get? "parent" = some 0 := by decide
  have hshown := lookup_set_below hinside hhandle (by decide) "a" 5
  exact ⟨hinside, hhandle, hshown.1 "a" ⟨1, by decide⟩⟩

/-- Children are no snapshots for lookups: a name that neither the child nor its parent has gets the
meaning that is written into the parent later. -/
theorem child_not_isolated : ¬ ∀ (p s : SharedScopes Nat) (top child ref : ScopeRef)
    (handle name : String) (value : Nat), Inside p s top child →
      s.handles.get? handle = some ref → ref ∈ s.stack.scopes.tail → ref ≠ child →
        ∀ n, (s.act (.set handle name value)).2.lookup n = s.lookup n := by
  intro hisolated
  let p := ({} : SharedScopes Nat).after [.push [("a", 1)] (some "parent")]
  let s := (p.act (.enter none)).2
  have hinside : Inside p s 0 1 := ⟨⟨_, rfl⟩, rfl, rfl, ⟨none, [], rfl⟩, rfl⟩
  have hsame := hisolated p s 0 1 0 "parent" "x" 1 hinside (by decide) (by decide) (by decide) "x"
  exact absurd hsame (by decide)

end SharedScopes

end StyleLang
