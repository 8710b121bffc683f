import StyleLang.Proofs.Scope.History

/-!
# Leaving a child

Inside a child scopes may be pushed and further children entered, each of them left again before the
child is, in any nesting. Leaving drops whatever scope is innermost then, so it drops the child, and
it was only the child and scopes made later that names were bound in. Main statement: after a child
is left, in either way, the stack has the scopes that it had before the child was entered, with the
same contents.
-/

namespace StyleLang

/-- Leaves a child, with or without a failure inside. -/
def ScopeAction.IsExit {α : Type} : ScopeAction α → Prop
  | leave | abandon => True
  | _ => False

namespace SharedScopes

variable {α : Type} {mark : ScopeRef} {s t u : SharedScopes α} {action : ScopeAction α}

theorem after_cons (s : SharedScopes α) (action : ScopeAction α) (actions : List (ScopeAction α)) :
    s.after (action :: actions) = (s.act action).2.after actions := rfl

/-- The scopes after a bracket, what stands in it, the closing bracket and all that follows. -/
theorem after_bracket (s : SharedScopes α) (opening closing : ScopeAction α)
    (inner rest : List (ScopeAction α)) :
    s.after (opening :: (inner ++ closing :: rest)) =
      ((s.after (opening :: inner)).act closing).2.after rest := by
  rw [after_cons, after, List.foldl_append]
  rfl

/-! ## Balanced actions -/

/-- The action opens and closes nothing, and it does not write through a handle into a scope that
was made before the mark. -/
def Quiet (mark : ScopeRef) (s : SharedScopes α) : ScopeAction α → Prop
  | .set handle _ _ => ∀ ref, s.handles.get? handle = some ref → mark ≤ ref
  | .repush handle => s.handles.get? handle = none
  | .peek _ | .bind _ _ | .lookup _ | .isEmpty | .size => True
  | _ => False

/-- The action pushes a new scope, or again one that was made since the mark. -/
def Pushes (mark : ScopeRef) (s : SharedScopes α) : ScopeAction α → Prop
  | .push _ _ => True
  | .repush handle => ∃ ref, s.handles.get? handle = some ref ∧ mark ≤ ref
  | _ => False

/-- Each push is matched by a pop and each entry by an exit. Scopes that were made before the mark
are neither pushed nor written through a handle. -/
inductive Balanced (mark : ScopeRef) : SharedScopes α → List (ScopeAction α) → Prop where
  | nil (s : SharedScopes α) : Balanced mark s []
  | quiet {s : SharedScopes α} {action : ScopeAction α} {rest : List (ScopeAction α)} :
    s.Quiet mark action → Balanced mark (s.act action).2 rest → Balanced mark s (action :: rest)
  | pushed {s : SharedScopes α} {action : ScopeAction α} {handle : Option String}
      {inner rest : List (ScopeAction α)} :
    s.Pushes mark action → Balanced mark (s.act action).2 inner →
    Balanced mark ((s.after (action :: inner)).act (.pop handle)).2 rest →
    Balanced mark s (action :: (inner ++ .pop handle :: rest))
  | entered {s : SharedScopes α} {exit : ScopeAction α} {handle : Option String}
      {inner rest : List (ScopeAction α)} :
    Balanced mark (s.act (.enter handle)).2 inner → exit.IsExit →
    Balanced mark ((s.after (.enter handle :: inner)).act exit).2 rest →
    Balanced mark s (.enter handle :: (inner ++ exit :: rest))

/-! ## Contents before the mark -/

/-- No scope is lost, and those that were made before the mark have the same contents. -/
structure Spares (mark : ScopeRef) (s t : SharedScopes α) : Prop where
  length_le : s.cells.length ≤ t.cells.length
  contents : ∀ ref < mark, t.contents ref = s.contents ref

theorem Spares.trans (h : Spares mark s t) (h' : Spares mark t u) : Spares mark s u :=
  ⟨Nat.le_trans h.length_le h'.length_le,
    fun ref href => (h'.contents ref href).trans (h.contents ref href)⟩

theorem spares_of_cells_eq (h : t.cells = s.cells) : Spares mark s t :=
  ⟨Nat.le_of_eq (congrArg List.length h.symm), fun ref _ => by rw [contents, contents, h]⟩

theorem spares_of_append {scope : Bindings α} (hmark : mark ≤ s.cells.length)
    (h : t.cells = s.cells ++ [scope]) : Spares mark s t :=
  ⟨by simp [h], fun _ href => contents_of_append h (Nat.lt_of_lt_of_le href hmark)⟩

theorem spares_write {ref : ScopeRef} (href : mark ≤ ref) (name : String) (value : α) :
    Spares mark s (s.write ref name value) :=
  ⟨by simp [write], fun _ h => contents_write_of_ne (Nat.ne_of_lt (Nat.lt_of_lt_of_le h href)) _ _⟩

/-! ## What the actions do -/

@[simp] theorem stack_remember (s : SharedScopes α) (handle : Option String) (ref : ScopeRef) :
    (s.remember handle ref).stack = s.stack := by
  cases handle <;> rfl

@[simp] theorem children_remember (s : SharedScopes α) (handle : Option String) (ref : ScopeRef) :
    (s.remember handle ref).children = s.children := by
  cases handle <;> rfl

/-- The later scopes stand on the stack as the earlier ones did, and the contents before the mark
are the same. -/
structure Restores (mark : ScopeRef) (s t : SharedScopes α) : Prop where
  stack : t.stack = s.stack
  children : t.children = s.children
  spares : Spares mark s t

theorem Restores.refl (s : SharedScopes α) : Restores mark s s :=
  ⟨rfl, rfl, spares_of_cells_eq rfl⟩

theorem Restores.trans (h : Restores mark s t) (h' : Restores mark t u) : Restores mark s u :=
  ⟨h'.stack.trans h.stack, h'.children.trans h.children, h.spares.trans h'.spares⟩

variable {stack : ScopeStack ScopeRef} {top : ScopeRef}

theorem exists_push_of_isEmpty (h : s.stack.isEmpty = false) :
    ∃ top stack, s.stack = ScopeStack.push stack top := by
  cases hscopes : s.stack.scopes with
  | nil =>
    rw [ScopeStack.isEmpty, hscopes] at h
    cases h
  | cons top rest => exact ⟨top, ⟨rest⟩, congrArg ScopeStack.mk hscopes⟩

/-- Names are bound in the innermost scope, so it matters when that one was made. -/
theorem Quiet.restores (h : s.Quiet mark action) (hstack : s.stack = stack.push top)
    (htop : mark ≤ top) : Restores mark s (s.act action).2 := by
  have hpeek : s.stack.peek = .ok top := by rw [hstack, ScopeStack.peek_push]
  cases action with
  | peek handle =>
    simp only [act, hpeek]
    exact ⟨stack_remember _ _ _, children_remember _ _ _, spares_of_cells_eq (cells_remember _ _ _)⟩
  | bind name value =>
    simp only [act, hpeek]
    exact ⟨rfl, rfl, spares_write htop name value⟩
  | set handle name value =>
    simp only [act]
    split
    · exact .refl s
    · next ref href => exact ⟨rfl, rfl, spares_write (h ref href) name value⟩
  | repush handle =>
    have hnone : s.handles.get? handle = none := h
    simp only [act, hnone]
    exact .refl s
  | lookup | isEmpty | size => exact .refl s
  | _ => exact h.elim

theorem Pushes.opens (h : s.Pushes mark action) (hmark : mark ≤ s.cells.length) :
    ∃ ref, mark ≤ ref ∧ (s.act action).2.stack = s.stack.push ref ∧
      (s.act action).2.children = s.children ∧ Spares mark s (s.act action).2 := by
  cases action with
  | push entries handle =>
    exact ⟨s.cells.length, hmark, stack_remember _ _ _, children_remember _ _ _,
      spares_of_append hmark (cells_remember _ _ _)⟩
  | repush handle =>
    obtain ⟨ref, hhandle, href⟩ := h
    have hact : s.act (.repush handle) = (.ok .done, { s with stack := s.stack.push ref }) := by
      simp only [act, hhandle]
    rw [hact]
    exact ⟨ref, href, rfl, rfl, spares_of_cells_eq rfl⟩
  | _ => exact h.elim

theorem enter_opens (hstack : s.stack = stack.push top) (hmark : mark ≤ s.cells.length)
    (handle : Option String) :
    (s.act (.enter handle)).2.stack = s.stack.push s.cells.length ∧
      (s.act (.enter handle)).2.children = s.children + 1 ∧
      Spares mark s (s.act (.enter handle)).2 := by
  have hpeek : s.stack.peek = .ok top := by rw [hstack, ScopeStack.peek_push]
  simp only [act, hpeek]
  exact ⟨stack_remember _ _ _, children_remember _ _ _,
    spares_of_append hmark (cells_remember _ _ _)⟩

theorem pop_closes (mark : ScopeRef) (hstack : s.stack = stack.push top)
    (handle : Option String) :
    (s.act (.pop handle)).2.stack = stack ∧ (s.act (.pop handle)).2.children = s.children ∧
      Spares mark s (s.act (.pop handle)).2 := by
  have hpop : s.stack.pop = .ok (top, stack) := by rw [hstack, ScopeStack.pop_push]
  simp only [act, hpop]
  exact ⟨stack_remember _ _ _, children_remember _ _ _, spares_of_cells_eq (cells_remember _ _ _)⟩

/-- An exit drops the innermost scope, whichever it is. -/
theorem exit_closes (mark : ScopeRef) {exit : ScopeAction α} (hexit : exit.IsExit)
    (hstack : s.stack = stack.push top) {n : Nat} (hchildren : s.children = n + 1) :
    (∃ reply, (s.act exit).1 = .ok reply) ∧ (s.act exit).2.stack = stack ∧
      (s.act exit).2.children = n ∧ Spares mark s (s.act exit).2 := by
  have hpop : s.stack.pop = .ok (top, stack) := by rw [hstack, ScopeStack.pop_push]
  have hleave : ∀ reply, s.leaveChild reply = (.ok reply, { s with stack, children := n }) := by
    intro reply
    unfold leaveChild
    simp only [hchildren, hpop]
  obtain ⟨reply, hexit⟩ : ∃ reply, s.act exit = s.leaveChild reply := by
    cases exit with
    | leave | abandon => exact ⟨_, rfl⟩
    | _ => exact hexit.elim
  rw [hexit, hleave]
  exact ⟨⟨reply, rfl⟩, rfl, rfl, spares_of_cells_eq rfl⟩

/-! ## Balanced actions restore -/

/-- A child that is entered and left again, where what is done inside restores the stack. -/
theorem child_restores (hstack : s.stack = stack.push top) (hmark : mark ≤ s.cells.length)
    {handle : Option String} {inner : List (ScopeAction α)} {exit : ScopeAction α}
    (hinner : Restores mark (s.act (.enter handle)).2 (s.after (.enter handle :: inner)))
    (hexit : exit.IsExit) :
    (∃ reply, ((s.after (.enter handle :: inner)).act exit).1 = .ok reply) ∧
      Restores mark s ((s.after (.enter handle :: inner)).act exit).2 := by
  obtain ⟨hopened, hchildren, hspares⟩ := enter_opens hstack hmark handle
  obtain ⟨hreply, hclosed, hsame, hlast⟩ := exit_closes mark hexit
    (hinner.stack.trans hopened) (hinner.children.trans hchildren)
  exact ⟨hreply, hclosed, hsame, (hspares.trans hinner.spares).trans hlast⟩

/-- What balanced actions open they close. The innermost scope was made since the mark at every
moment, so whatever is bound is bound in such a scope. -/
theorem Balanced.restores {actions : List (ScopeAction α)} (h : Balanced mark s actions)
    (hmark : mark ≤ s.cells.length) (hstack : s.stack = stack.push top) (htop : mark ≤ top) :
    Restores mark s (s.after actions) := by
  induction h generalizing stack top with
  | nil s => exact .refl s
  | @quiet s action rest hquiet _ ih =>
    have hfirst := hquiet.restores hstack htop
    exact hfirst.trans (ih (Nat.le_trans hmark hfirst.spares.length_le)
      (hfirst.stack.trans hstack) htop)
  | @pushed s action handle inner rest hpush _ _ ihinner ihrest =>
    obtain ⟨ref, href, hopened, hchildren, hspares⟩ := hpush.opens hmark
    have hinner := ihinner (Nat.le_trans hmark hspares.length_le) hopened href
    obtain ⟨hclosed, hsame, hlast⟩ := pop_closes mark (hinner.stack.trans hopened) handle
    have hbracket : Restores mark s ((s.after (action :: inner)).act (.pop handle)).2 :=
      ⟨hclosed, hsame.trans (hinner.children.trans hchildren),
        (hspares.trans hinner.spares).trans hlast⟩
    rw [after_bracket]
    exact hbracket.trans (ihrest (Nat.le_trans hmark hbracket.spares.length_le)
      (hbracket.stack.trans hstack) htop)
  | @entered s exit handle inner rest _ hexit _ ihinner ihrest =>
    obtain ⟨hopened, -, hspares⟩ := enter_opens hstack hmark handle
    have hinner := ihinner (Nat.le_trans hmark hspares.length_le) hopened hmark
    have hbracket := (child_restores hstack hmark hinner hexit).2
    rw [after_bracket]
    exact hbracket.trans (ihrest (Nat.le_trans hmark hbracket.spares.length_le)
      (hbracket.stack.trans hstack) htop)

/-! ## Leaving a child -/

/-- **The stack after a child.** In a history that has come to a scope on the stack a child is
entered, and after balanced actions it is left, in either way. Then the stack has the same scopes in
the same order as before the child was entered, and every scope there was then has the same
contents. -/
theorem stack_after_child (hbefore : ∃ history, s = ({} : SharedScopes α).after history)
    (hstack : s.stack.isEmpty = false) {handle : Option String} {inner : List (ScopeAction α)}
    (hinner : Balanced s.cells.length (s.act (.enter handle)).2 inner) {exit : ScopeAction α}
    (hexit : exit.IsExit) :
    let inside := s.after (.enter handle :: inner)
    let later := (inside.act exit).2
    (∃ reply, (inside.act exit).1 = .ok reply) ∧ later.stack = s.stack ∧
      later.snapshot = s.snapshot ∧
      ∀ ref < s.cells.length, later.contents ref = s.contents ref := by
  intro inside later
  obtain ⟨top, stack, hpushed⟩ := exists_push_of_isEmpty hstack
  obtain ⟨hopened, -, hspares⟩ := enter_opens hpushed (Nat.le_refl _) handle
  have hrestores := hinner.restores hspares.length_le hopened (Nat.le_refl _)
  obtain ⟨hreply, hchild⟩ := child_restores hpushed (Nat.le_refl _) hrestores hexit
  refine ⟨hreply, hchild.stack, ?_, hchild.spares.contents⟩
  obtain ⟨history, rfl⟩ := hbefore
  rw [snapshot, hchild.stack]
  refine List.map_congr_left fun ref href => hchild.spares.contents ref ?_
  exact (linked_empty.after history).stack ref (List.mem_reverse.1 href)

/-- Names of the outer scope are bound anew in a child, in a scope that is pushed there, and in a
child of it that fails. -/
theorem stack_after_child_shadowing :
    let s := ({} : SharedScopes Nat).after [.push [("x", 1)] (some "outer")]
    let inner : List (ScopeAction Nat) := [.bind "x" 2, .push [("x", 3)] (some "own"),
      .set "own" "y" 4, .enter none, .bind "x" 5, .abandon, .pop none]
    let inside := s.after (.enter none :: inner)
    inside.lookup "x" = some 2 ∧ (inside.act .leave).2.stack = s.stack ∧
      (inside.act .leave).2.lookup "x" = some 1 := by
  intro s inner inside
  have hown : Balanced 1 (s.after [.enter none, .bind "x" 2, .push [("x", 3)] (some "own")])
      [.set "own" "y" 4, .enter none, .bind "x" 5, .abandon] := by
    have hset : ∀ ref, some 2 = some ref → 1 ≤ ref := by
      rintro ref ⟨⟩
      decide
    have hbind : ∀ s, Balanced 1 s [ScopeAction.bind "x" 5] := fun s => .quiet trivial (.nil _)
    exact .quiet hset (@Balanced.entered Nat 1 _ .abandon none [.bind "x" 5] [] (hbind _) trivial
      (.nil _))
  have hinner : Balanced 1 (s.act (.enter none)).2 inner :=
    .quiet trivial (@Balanced.pushed Nat 1 _ (.push [("x", 3)] (some "own")) none
      [.set "own" "y" 4, .enter none, .bind "x" 5, .abandon] [] trivial hown (.nil _))
  have hexit : (ScopeAction.leave : ScopeAction Nat).IsExit := trivial
  obtain ⟨-, hstack, -⟩ := stack_after_child (s := s) ⟨_, rfl⟩ rfl hinner hexit
  exact ⟨by decide, hstack, by decide⟩

end SharedScopes

end StyleLang
