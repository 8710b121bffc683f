import StyleLang.Proofs.Scope.Restoration

/-!
# Actions on an empty stack

Some actions need a scope on the stack and fail without one. Such a failure has no effect: at most a
child counts as left that could not be left. Main statements: exactly which actions fail for want of
a scope and with which words, what they leave behind, and that all later actions answer as if the
failed one had not been tried.
-/

namespace StyleLang

namespace SharedScopes

variable {α : Type} {s : SharedScopes α} {action : ScopeAction α} {message : String}

/-! ## What fails -/

/-- The action needs a scope on the stack, and these are the words if there is none. Only a child
that was entered can be left. -/
inductive Needs (s : SharedScopes α) : ScopeAction α → String → Prop where
  | pop (handle : Option String) : Needs s (.pop handle) "pop from an empty scope stack"
  | peek (handle : Option String) : Needs s (.peek handle) "peek at an empty scope stack"
  | bind (name : String) (value : α) : Needs s (.bind name value) "peek at an empty scope stack"
  | enter (handle : Option String) : Needs s (.enter handle) "peek at an empty scope stack"
  | exit {action : ScopeAction α} (h : action.IsExit) (hchild : s.children ≠ 0) :
    Needs s action "pop from an empty scope stack"

/-- The scopes once the child is counted as left that the action leaves, if it leaves one. -/
def counted (s : SharedScopes α) : ScopeAction α → SharedScopes α
  | .leave | .abandon => { s with children := s.children - 1 }
  | _ => s

theorem peek_of_isEmpty (h : s.stack.isEmpty = true) : s.stack.peek = .error .peekEmpty := by
  unfold ScopeStack.peek
  rw [List.isEmpty_iff.1 h]

theorem pop_of_isEmpty (h : s.stack.isEmpty = true) : s.stack.pop = .error .popEmpty := by
  unfold ScopeStack.pop
  rw [List.isEmpty_iff.1 h]

theorem leaveChild_of_isEmpty (h : s.stack.isEmpty = true) (hchild : s.children ≠ 0)
    (reply : ScopeReply α) : s.leaveChild reply =
      (.error (.scope .popEmpty), { s with children := s.children - 1 }) := by
  obtain ⟨n, hn⟩ := Nat.exists_eq_succ_of_ne_zero hchild
  unfold leaveChild
  rw [hn, pop_of_isEmpty h]
  rfl

/-- Without a scope on the stack an action that needs one fails, and does nothing else. -/
theorem Needs.fails (hneeds : s.Needs action message) (h : s.stack.isEmpty = true) :
    ∃ e : ScopeError, e.message = message ∧
      s.act action = (.error (.scope e), s.counted action) := by
  cases hneeds with
  | pop handle => exact ⟨.popEmpty, rfl, by simp only [act, pop_of_isEmpty h, counted]⟩
  | peek handle => exact ⟨.peekEmpty, rfl, by simp only [act, peek_of_isEmpty h, counted]⟩
  | bind name value => exact ⟨.peekEmpty, rfl, by simp only [act, peek_of_isEmpty h, counted]⟩
  | enter handle => exact ⟨.peekEmpty, rfl, by simp only [act, peek_of_isEmpty h, counted]⟩
  | exit hexit hchild =>
    cases action with
    | leave => exact ⟨.popEmpty, rfl, leaveChild_of_isEmpty h hchild _⟩
    | abandon => exact ⟨.popEmpty, rfl, leaveChild_of_isEmpty h hchild _⟩
    | _ => exact hexit.elim

theorem leaveChild_of_no_child (h : s.children = 0) (reply : ScopeReply α) :
    s.leaveChild reply = (.error .noChild, s) := by
  unfold leaveChild
  rw [h]

/-- With a scope on the stack nothing fails for want of one. -/
theorem not_fails_of_push {stack : ScopeStack ScopeRef} {top : ScopeRef}
    (h : s.stack = stack.push top) (action : ScopeAction α) (e : ScopeError) :
    (s.act action).1 ≠ .error (.scope e) := by
  have hleave : ∀ reply : ScopeReply α, (s.leaveChild reply).1 ≠ .error (.scope e) := by
    intro reply
    unfold leaveChild
    split
    · simp
    · simp [h]
  cases action with
  | leave => exact hleave _
  | abandon => exact hleave _
  | repush handle | set handle name value =>
    simp only [act]
    split <;> simp
  | _ => simp [act, h]

/-- Only an action that needs a scope fails for want of one, and only on an empty stack. -/
theorem needs_of_fails {e : ScopeError} (h : (s.act action).1 = .error (.scope e)) :
    s.stack.isEmpty = true ∧ s.Needs action e.message := by
  have hempty : s.stack.isEmpty = true := by
    cases hstack : s.stack.isEmpty with
    | true => rfl
    | false =>
      obtain ⟨top, stack, hpush⟩ := exists_push_of_isEmpty hstack
      exact absurd h (not_fails_of_push hpush action e)
  have hchild : ∀ {exit : ScopeAction α} {reply : ScopeReply α}, exit.IsExit →
      (s.leaveChild reply).1 = .error (.scope e) → ∃ message, s.Needs exit message := by
    intro exit reply hexit hfails
    refine ⟨_, .exit hexit fun hnone => ?_⟩
    rw [leaveChild_of_no_child hnone] at hfails
    cases hfails
  have hneeds : ∃ message, s.Needs action message := by
    cases action with
    | pop handle => exact ⟨_, .pop handle⟩
    | peek handle => exact ⟨_, .peek handle⟩
    | bind name value => exact ⟨_, .bind name value⟩
    | enter handle => exact ⟨_, .enter handle⟩
    | leave => exact hchild trivial h
    | abandon => exact hchild trivial h
    | repush handle | set handle name value =>
      simp only [act] at h
      split at h <;> cases h
    | _ => cases h
  obtain ⟨message, hneeds⟩ := hneeds
  obtain ⟨e', rfl, hact⟩ := hneeds.fails hempty
  rw [hact] at h
  obtain rfl := ActionError.scope.inj (Except.error.inj h)
  exact ⟨hempty, hneeds⟩

/-! ## What comes after a failure -/

/-- What is seen of each action: its answer, and after it the scopes on the stack. -/
def observe (s : SharedScopes α) :
    List (ScopeAction α) → List (Except ActionError (ScopeReply α) × List (Bindings α))
  | [] => []
  | action :: actions =>
    ((s.act action).1, (s.act action).2.snapshot) :: (s.act action).2.observe actions

/-- The same scopes with one more child to leave. -/
def withChild (s : SharedScopes α) : SharedScopes α := { s with children := s.children + 1 }

/-- A child more makes no difference to an action, unless that leaves a child that is not there. -/
theorem act_withChild (h : (s.act action).1 ≠ .error .noChild) :
    s.withChild.act action = ((s.act action).1, (s.act action).2.withChild) := by
  have hleave : ∀ reply : ScopeReply α, (s.leaveChild reply).1 ≠ .error .noChild →
      s.withChild.leaveChild reply = ((s.leaveChild reply).1, (s.leaveChild reply).2.withChild) := by
    intro reply hleft
    have hsome : s.children ≠ 0 := fun hnone => by
      rw [leaveChild_of_no_child hnone] at hleft
      exact hleft rfl
    obtain ⟨n, hn⟩ := Nat.exists_eq_succ_of_ne_zero hsome
    unfold leaveChild withChild
    rw [hn]
    cases s.stack.pop <;> rfl
  have hstack : s.withChild.stack = s.stack := rfl
  have hhandles : s.withChild.handles = s.handles := rfl
  cases action with
  | leave => exact hleave _ h
  | abandon => exact hleave _ h
  | push entries handle => cases handle <;> rfl
  | pop handle =>
    simp only [act, hstack]
    cases s.stack.pop with
    | error e => rfl
    | ok popped => cases handle <;> rfl
  | peek handle =>
    simp only [act, hstack]
    cases s.stack.peek with
    | error e => rfl
    | ok ref => cases handle <;> rfl
  | enter handle =>
    simp only [act, hstack]
    cases s.stack.peek with
    | error e => rfl
    | ok ref => cases handle <;> rfl
  | bind name value =>
    simp only [act, hstack]
    cases s.stack.peek <;> rfl
  | repush handle | set handle name value =>
    simp only [act, hhandles]
    cases s.handles.get? handle <;> rfl
  | _ => rfl

/-- A child more makes no difference to what is seen, as long as only children are left that are
there. -/
theorem observe_withChild {actions : List (ScopeAction α)}
    (h : ∀ seen ∈ s.observe actions, seen.1 ≠ .error .noChild) :
    s.withChild.observe actions = s.observe actions := by
  induction actions generalizing s with
  | nil => rfl
  | cons action actions ih =>
    obtain ⟨hfirst, hrest⟩ := List.forall_mem_cons.1 h
    rw [observe, observe, act_withChild hfirst, ih hrest]
    rfl

/-- What is seen after a failure is seen without it too. -/
theorem Needs.observe_counted (h : s.Needs action message) {rest : List (ScopeAction α)}
    (hrest : ∀ seen ∈ (s.counted action).observe rest, seen.1 ≠ .error .noChild) :
    (s.counted action).observe rest = s.observe rest := by
  cases h with
  | exit hexit hchild =>
    have hs : (s.counted action).withChild = s := by
      cases action with
      | leave | abandon =>
        unfold counted withChild
        rw [Nat.sub_add_cancel (Nat.pos_of_ne_zero hchild)]
      | _ => exact hexit.elim
    exact (observe_withChild hrest).symm.trans (congrArg (observe · rest) hs)
  | _ => rfl

/-- **An empty stack.** In every history an action fails for want of a scope exactly if it needs one
and the stack is empty, and it says what it needs. After such a failure the stack and the contents
of all scopes are as before, and so is all else, but that a child counts as left that could not be
left. All later actions answer and show the same as without the failed one, as long as they leave
only children that are there. -/
theorem empty_stack_failures (history : List (ScopeAction α)) (action : ScopeAction α) :
    let s := ({} : SharedScopes α).after history
    let later := (s.act action).2
    (∀ message, (∃ e : ScopeError, (s.act action).1 = .error (.scope e) ∧ e.message = message) ↔
      s.stack.isEmpty = true ∧ s.Needs action message) ∧
    ∀ e : ScopeError, (s.act action).1 = .error (.scope e) →
      later.stack = s.stack ∧ (∀ ref, later.contents ref = s.contents ref) ∧
      later = s.counted action ∧
      ∀ rest, (∀ seen ∈ later.observe rest, seen.1 ≠ .error .noChild) →
        later.observe rest = s.observe rest := by
  intro s later
  refine ⟨fun message => ⟨?_, ?_⟩, fun e he => ?_⟩
  · rintro ⟨e, he, rfl⟩
    exact needs_of_fails he
  · rintro ⟨hempty, hneeds⟩
    obtain ⟨e, hmessage, hact⟩ := hneeds.fails hempty
    exact ⟨e, congrArg Prod.fst hact, hmessage⟩
  · obtain ⟨hempty, hneeds⟩ := needs_of_fails he
    obtain ⟨e', -, hact⟩ := hneeds.fails hempty
    have hlater : later = s.counted action := congrArg Prod.snd hact
    rw [hlater]
    refine ⟨?_, fun ref => ?_, rfl, fun rest hrest => hneeds.observe_counted hrest⟩
    · cases action <;> rfl
    · cases action <;> rfl

/-- A child outlives the stack, which is cleared inside it. So it cannot be left, and then a child
that is entered later is the one to leave. -/
theorem empty_stack_failures_cleared :
    let s := ({} : SharedScopes Nat).after [.push [("x", 1)] none, .enter none, .clear]
    let later := (s.act .abandon).2
    let rest : List (ScopeAction Nat) := [.push [("y", 2)] none, .enter none, .leave, .lookup "y"]
    (∃ e : ScopeError, (s.act .abandon).1 = .error (.scope e) ∧
      e.message = "pop from an empty scope stack") ∧
    s.children = 1 ∧ later.children = 0 ∧ later.observe rest = s.observe rest := by
  intro s later rest
  obtain ⟨hfails, hafter⟩ := empty_stack_failures
    [.push [("x", 1)] none, .enter none, .clear] (.abandon : ScopeAction Nat)
  obtain ⟨e, he, hmessage⟩ := (hfails _).2 ⟨rfl, .exit trivial (by decide)⟩
  obtain ⟨-, -, -, hsame⟩ := hafter e he
  refine ⟨⟨e, he, hmessage⟩, rfl, rfl, hsame rest fun seen hseen => ?_⟩
  have hanswers : (later.observe rest).map Prod.fst =
      [.ok .done, .ok (.scope ⟨[("y", 2)]⟩), .ok .done, .ok (.value (some 2))] := rfl
  have hanswer := List.mem_map_of_mem (f := Prod.fst) hseen
  rw [hanswers] at hanswer
  rintro heq
  rw [heq] at hanswer
  simp at hanswer

end SharedScopes

end StyleLang
