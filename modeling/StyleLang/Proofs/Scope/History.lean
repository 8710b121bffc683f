import StyleLang.Scope.Shared

/-!
# Histories of scopes

What actions do to scopes that are held by reference. An action leaves the contents of all scopes
alone, makes one more scope, or gives one name a meaning in one scope. Main statements: in every
history the references lead to scopes that were made, and a name that a scope binds stays bound in
it.
-/

namespace StyleLang

namespace SharedScopes

variable {α : Type}

/-- The scopes after some actions, whether these answered or failed. -/
def after (s : SharedScopes α) (actions : List (ScopeAction α)) : SharedScopes α :=
  actions.foldl (fun s action => (s.act action).2) s

/-! ## What an action does to the contents -/

@[simp] theorem cells_remember (s : SharedScopes α) (handle : Option String) (ref : ScopeRef) :
    (s.remember handle ref).cells = s.cells := by
  cases handle <;> rfl

theorem head?_of_peek {s : SharedScopes α} {ref : ScopeRef} (h : s.stack.peek = .ok ref) :
    s.stack.scopes.head? = some ref := by
  unfold ScopeStack.peek at h
  split at h
  · cases h
  · next hscopes => rw [hscopes, ← Except.ok.inj h, List.head?_cons]

/-- The meaning that the action gives the name in the scope of the reference, if it gives it one. A
name is bound in the innermost scope, and set in the scope that is remembered under the handle. -/
def written? (s : SharedScopes α) (ref : ScopeRef) (name : String) : ScopeAction α → Option α
  | .bind n value => if s.stack.scopes.head? = some ref ∧ n = name then some value else none
  | .set handle n value =>
    if s.handles.get? handle = some ref ∧ n = name then some value else none
  | _ => none

/-- The ways in which the contents of scopes can change in one action. -/
inductive Touches (s : SharedScopes α) (action : ScopeAction α) : List (Bindings α) → Prop where
  | nothing : Touches s action s.cells
  | make (scope : Bindings α) : Touches s action (s.cells ++ [scope])
  | write {ref : ScopeRef} {name : String} {value : α}
      (h : s.written? ref name action = some value) :
    Touches s action (s.cells.modify ref fun scope => scope.set name value)

theorem touches_leaveChild (s : SharedScopes α) (action : ScopeAction α) (reply : ScopeReply α) :
    s.Touches action (s.leaveChild reply).2.cells := by
  unfold leaveChild
  split
  · exact .nothing
  · split <;> exact .nothing

theorem touches_act (s : SharedScopes α) (action : ScopeAction α) :
    s.Touches action (s.act action).2.cells := by
  cases action with
  | push entries handle =>
    simp only [act, cells_remember]
    exact .make _
  | pop handle =>
    simp only [act]
    split
    · exact .nothing
    · rw [cells_remember]
      exact .nothing
  | peek handle =>
    simp only [act]
    split
    · exact .nothing
    · rw [cells_remember]
      exact .nothing
  | repush handle =>
    simp only [act]
    split <;> exact .nothing
  | set handle name value =>
    simp only [act]
    split
    · exact .nothing
    · next href => exact .write (if_pos ⟨href, rfl⟩)
  | bind name value =>
    simp only [act]
    split
    · exact .nothing
    · next hpeek => exact .write (if_pos ⟨head?_of_peek hpeek, rfl⟩)
  | enter handle =>
    simp only [act]
    split
    · exact .nothing
    · rw [cells_remember]
      exact .make _
  | leave => exact touches_leaveChild s _ _
  | abandon => exact touches_leaveChild s _ _
  | lookup name => exact .nothing
  | isEmpty => exact .nothing
  | size => exact .nothing
  | clear => exact .nothing

theorem Touches.length_le {s : SharedScopes α} {action : ScopeAction α}
    {cells : List (Bindings α)} (h : s.Touches action cells) : s.cells.length ≤ cells.length := by
  cases h with
  | nothing => exact Nat.le_refl _
  | make scope => simp
  | write _ => simp

/-! ## Good references -/

/-- Every reference on the stack or under a handle leads to a scope that was made. -/
structure Linked (s : SharedScopes α) : Prop where
  stack : ∀ ref ∈ s.stack.scopes, ref < s.cells.length
  handles : ∀ handle ref, s.handles.get? handle = some ref → ref < s.cells.length

theorem linked_empty : ({} : SharedScopes α).Linked :=
  ⟨fun _ h => absurd h List.not_mem_nil, fun _ _ h => by cases h⟩

section Linked

variable {s : SharedScopes α}

theorem Linked.remember (h : s.Linked) (handle : Option String) {ref : ScopeRef}
    (href : ref < s.cells.length) : (s.remember handle ref).Linked := by
  cases handle with
  | none => exact h
  | some name =>
    refine ⟨h.stack, fun other ref' hother => ?_⟩
    have hset : (s.handles.set name ref).get? other = some ref' := hother
    by_cases hname : other = name
    · rw [hname, Bindings.get?_set_self] at hset
      rw [← Option.some.inj hset]
      exact href
    · rw [Bindings.get?_set_of_ne _ hname] at hset
      exact h.handles other ref' hset

/-- What is linked stays so over more or other contents. -/
theorem Linked.withCells (h : s.Linked) {cells : List (Bindings α)}
    (hlength : s.cells.length ≤ cells.length) : { s with cells }.Linked :=
  ⟨fun ref href => Nat.lt_of_lt_of_le (h.stack ref href) hlength,
    fun handle ref href => Nat.lt_of_lt_of_le (h.handles handle ref href) hlength⟩

theorem Linked.withStack (h : s.Linked) {stack : ScopeStack ScopeRef}
    (hstack : ∀ ref ∈ stack.scopes, ref < s.cells.length) : { s with stack }.Linked :=
  ⟨hstack, h.handles⟩

theorem Linked.withChildren (h : s.Linked) (children : Nat) : { s with children }.Linked :=
  ⟨h.stack, h.handles⟩

theorem Linked.pushNew (h : s.Linked) (scope : Bindings α) : (s.pushNew scope).Linked := by
  have hlength : s.cells.length < (s.cells ++ [scope]).length := by simp
  have hmore := h.withCells (Nat.le_of_lt hlength)
  exact hmore.withStack (List.forall_mem_cons.2 ⟨hlength, hmore.stack⟩)

theorem Linked.write (h : s.Linked) (ref : ScopeRef) (name : String) (value : α) :
    (s.write ref name value).Linked :=
  h.withCells (Nat.le_of_eq (List.length_modify _ _ _).symm)

theorem Linked.of_pop (h : s.Linked) {ref : ScopeRef} {rest : ScopeStack ScopeRef}
    (hpop : s.stack.pop = .ok (ref, rest)) :
    ref < s.cells.length ∧ { s with stack := rest }.Linked := by
  unfold ScopeStack.pop at hpop
  split at hpop
  · cases hpop
  · next top others hscopes =>
    obtain ⟨rfl, rfl⟩ := Prod.mk.inj (Except.ok.inj hpop)
    have hall : ∀ r ∈ top :: others, r < s.cells.length := hscopes ▸ h.stack
    obtain ⟨htop, hothers⟩ := List.forall_mem_cons.1 hall
    exact ⟨htop, h.withStack hothers⟩

theorem mem_of_peek {ref : ScopeRef} (hpeek : s.stack.peek = .ok ref) : ref ∈ s.stack.scopes :=
  List.mem_of_head? (head?_of_peek hpeek)

theorem Linked.leaveChild (h : s.Linked) (reply : ScopeReply α) :
    (s.leaveChild reply).2.Linked := by
  unfold SharedScopes.leaveChild
  split
  · exact h
  · next n _ =>
    split
    · exact h.withChildren n
    · next hpop => exact (h.of_pop hpop).2.withChildren n

/-- An action leads from good references to good references. -/
theorem Linked.act (h : s.Linked) (action : ScopeAction α) : (s.act action).2.Linked := by
  cases action with
  | push entries handle =>
    have hnew : s.cells.length < (s.pushNew (.ofList entries)).cells.length := by
      simp [SharedScopes.pushNew]
    exact (h.pushNew _).remember handle hnew
  | pop handle =>
    simp only [SharedScopes.act]
    split
    · exact h
    · next hpop =>
      obtain ⟨href, hrest⟩ := h.of_pop hpop
      exact hrest.remember handle href
  | peek handle =>
    simp only [SharedScopes.act]
    split
    · exact h
    · next hpeek => exact h.remember handle (h.stack _ (mem_of_peek hpeek))
  | repush handle =>
    simp only [SharedScopes.act]
    split
    · exact h
    · next ref href =>
      exact h.withStack (List.forall_mem_cons.2 ⟨h.handles handle ref href, h.stack⟩)
  | set handle name value =>
    simp only [SharedScopes.act]
    split
    · exact h
    · exact h.write _ _ _
  | bind name value =>
    simp only [SharedScopes.act]
    split
    · exact h
    · exact h.write _ _ _
  | enter handle =>
    simp only [SharedScopes.act]
    split
    · exact h
    · next ref _ =>
      have hnew : s.cells.length < (s.pushNew (s.contents ref)).cells.length := by
        simp [SharedScopes.pushNew]
      exact ((h.pushNew _).withChildren _).remember handle hnew
  | leave => exact h.leaveChild _
  | abandon => exact h.leaveChild _
  | clear => exact h.withStack fun _ hr => absurd hr List.not_mem_nil
  | lookup name => exact h
  | isEmpty => exact h
  | size => exact h

/-- In every history all references are good. -/
theorem Linked.after (h : s.Linked) (actions : List (ScopeAction α)) :
    (s.after actions).Linked := by
  induction actions generalizing s with
  | nil => exact h
  | cons action actions ih => exact ih (h.act action)

end Linked

/-! ## Writing -/

section Writing

variable {s : SharedScopes α} {ref other : ScopeRef}

theorem contents_write_self (href : ref < s.cells.length) (name : String) (value : α) :
    (s.write ref name value).contents ref = (s.contents ref).set name value := by
  simp [contents, write, List.getD_eq_getElem?_getD, List.getElem?_eq_getElem href]

theorem contents_write_of_ne (h : other ≠ ref) (name : String) (value : α) :
    (s.write ref name value).contents other = s.contents other := by
  simp [contents, write, List.getD_eq_getElem?_getD, Ne.symm h]

theorem contents_of_append {s s' : SharedScopes α} {scope : Bindings α}
    (h : s'.cells = s.cells ++ [scope]) (href : ref < s.cells.length) :
    s'.contents ref = s.contents ref := by
  simp [contents, h, List.getD_eq_getElem?_getD, List.getElem?_append_left href]

end Writing

/-! ## Bound names -/

/-- The scope has a meaning for the name. -/
def Binds (s : SharedScopes α) (ref : ScopeRef) (name : String) : Prop :=
  ∃ value, (s.contents ref).get? name = some value

section Binds

variable {s : SharedScopes α} {ref : ScopeRef} {name : String}

theorem Binds.write (h : s.Binds ref name) (href : ref < s.cells.length) (other : ScopeRef)
    (name' : String) (value : α) : (s.write other name' value).Binds ref name := by
  unfold Binds
  by_cases hother : ref = other
  · subst hother
    rw [contents_write_self href]
    by_cases hname : name = name'
    · exact ⟨value, by rw [hname, Bindings.get?_set_self]⟩
    · rwa [Bindings.get?_set_of_ne _ hname]
  · rwa [contents_write_of_ne hother]

/-- A bound name may get another meaning, but it stays bound. -/
theorem Binds.act (h : s.Binds ref name) (href : ref < s.cells.length) (action : ScopeAction α) :
    (s.act action).2.Binds ref name := by
  have htouch := touches_act s action
  generalize hcells : (s.act action).2.cells = cells at htouch
  cases htouch with
  | nothing =>
    unfold Binds contents at h ⊢
    rwa [hcells]
  | make scope =>
    unfold Binds at h ⊢
    rwa [contents_of_append hcells href]
  | @write other name' value _ =>
    have hwrite := h.write href other name' value
    unfold Binds contents at hwrite ⊢
    rwa [hcells]

theorem Binds.after (h : s.Binds ref name) (href : ref < s.cells.length)
    (actions : List (ScopeAction α)) : (s.after actions).Binds ref name := by
  induction actions generalizing s with
  | nil => exact h
  | cons action actions ih =>
    have hlength := (touches_act s action).length_le
    exact ih (h.act href action) (Nat.lt_of_lt_of_le href hlength)

end Binds

end SharedScopes

end StyleLang
