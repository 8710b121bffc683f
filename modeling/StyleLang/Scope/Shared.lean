import StyleLang.Scope.Stack

/-!
# Shared scopes

Scopes that are held by reference: the same scope may stand on the stack more than once and may be
remembered under a handle, and a write through any of these is seen through all of them. An action
answers, or fails and leaves every scope and the stack as they were.
-/

namespace StyleLang

/-- A reference to a scope: its index among all scopes that were ever made. -/
abbrev ScopeRef := Nat

structure SharedScopes (α : Type) where
  /-- The contents of each scope, by reference. -/
  cells : List (Bindings α) := []
  stack : ScopeStack ScopeRef := {}
  /-- The scopes that are remembered by name. -/
  handles : Bindings ScopeRef := {}
  /-- How many children were entered and not left. -/
  children : Nat := 0
  deriving Repr

/-- What can be done to scopes; a scope that is pushed, read or entered may be remembered. -/
inductive ScopeAction (α : Type) where
  | push (entries : List (String × α)) (handle : Option String)
  | pop (handle : Option String)
  | peek (handle : Option String)
  | repush (handle : String)
  | set (handle name : String) (value : α)
  | bind (name : String) (value : α)
  | lookup (name : String)
  | isEmpty
  | size
  | clear
  | enter (handle : Option String)
  /-- Leaves the child that was entered last. -/
  | leave
  /-- Leaves it because of a failure inside, which goes on afterwards. -/
  | abandon
  deriving Repr

inductive ScopeReply (α : Type) where
  | done
  | scope (contents : Bindings α)
  | value (found : Option α)
  | truth (b : Bool)
  | count (n : Nat)
  deriving Repr

inductive ActionError where
  | scope (reason : ScopeError)
  | unknownHandle (handle : String)
  | noChild
  deriving DecidableEq, Repr

namespace SharedScopes

variable {α : Type}

def contents (s : SharedScopes α) (ref : ScopeRef) : Bindings α := s.cells.getD ref {}

/-- The contents of the scopes on the stack, the outermost first. -/
def snapshot (s : SharedScopes α) : List (Bindings α) :=
  s.stack.scopes.reverse.map s.contents

def lookup (s : SharedScopes α) (name : String) : Option α :=
  s.stack.lookupBy (fun ref => (s.contents ref).get?) name

def remember (s : SharedScopes α) (handle : Option String) (ref : ScopeRef) : SharedScopes α :=
  match handle with
  | none => s
  | some h => { s with handles := s.handles.set h ref }

/-- Makes a new scope and pushes it. -/
def pushNew (s : SharedScopes α) (scope : Bindings α) : SharedScopes α :=
  { s with cells := s.cells ++ [scope], stack := s.stack.push s.cells.length }

/-- Writes into the scope of the reference. -/
def write (s : SharedScopes α) (ref : ScopeRef) (name : String) (value : α) : SharedScopes α :=
  { s with cells := s.cells.modify ref fun scope => scope.set name value }

/-- Leaves a child: drops whatever scope is innermost now. -/
def leaveChild (s : SharedScopes α) (reply : ScopeReply α) :
    Except ActionError (ScopeReply α) × SharedScopes α :=
  match s.children with
  | 0 => (.error .noChild, s)
  | n + 1 =>
    match s.stack.pop with
    | .error e => (.error (.scope e), { s with children := n })
    | .ok (_, rest) => (.ok reply, { s with stack := rest, children := n })

def act (s : SharedScopes α) : ScopeAction α → Except ActionError (ScopeReply α) × SharedScopes α
  | .push entries handle =>
    (.ok .done, (s.pushNew (.ofList entries)).remember handle s.cells.length)
  | .pop handle =>
    match s.stack.pop with
    | .error e => (.error (.scope e), s)
    | .ok (ref, rest) =>
      (.ok (.scope (s.contents ref)), { s with stack := rest }.remember handle ref)
  | .peek handle =>
    match s.stack.peek with
    | .error e => (.error (.scope e), s)
    | .ok ref => (.ok (.scope (s.contents ref)), s.remember handle ref)
  | .repush handle =>
    match s.handles.get? handle with
    | none => (.error (.unknownHandle handle), s)
    | some ref => (.ok .done, { s with stack := s.stack.push ref })
  | .set handle name value =>
    match s.handles.get? handle with
    | none => (.error (.unknownHandle handle), s)
    | some ref =>
      let s := s.write ref name value
      (.ok (.scope (s.contents ref)), s)
  | .bind name value =>
    match s.stack.peek with
    | .error e => (.error (.scope e), s)
    | .ok ref => (.ok .done, s.write ref name value)
  | .lookup name => (.ok (.value (s.lookup name)), s)
  | .isEmpty => (.ok (.truth s.stack.isEmpty), s)
  | .size => (.ok (.count s.stack.size), s)
  | .clear => (.ok .done, { s with stack := s.stack.clear })
  | .enter handle =>
    match s.stack.peek with
    | .error e => (.error (.scope e), s)
    | .ok ref =>
      let child := s.contents ref
      let entered := { s.pushNew child with children := s.children + 1 }
      (.ok (.scope child), entered.remember handle s.cells.length)
  | .leave => s.leaveChild .done
  | .abandon => s.leaveChild (.truth false)

end SharedScopes

end StyleLang
