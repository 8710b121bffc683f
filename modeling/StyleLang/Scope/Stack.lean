import StyleLang.Scope.Bindings

/-!
# Scope stacks

A stack of scopes, the innermost first. What a scope is, is left open: here it is a set of bindings,
elsewhere a reference to one that several stacks of references may share. A child is entered with a
copy of the innermost scope, so what is bound inside never shows outside.
-/

namespace StyleLang

structure ScopeStack (σ : Type) where
  /-- The scopes, the innermost first. -/
  scopes : List σ := []
  deriving Repr

/-- What needs a scope that is not there. -/
inductive ScopeError where
  | popEmpty
  | peekEmpty
  deriving DecidableEq, Repr

def ScopeError.message : ScopeError → String
  | popEmpty => "pop from an empty scope stack"
  | peekEmpty => "peek at an empty scope stack"

namespace ScopeStack

variable {σ α : Type}

def isEmpty (s : ScopeStack σ) : Bool := s.scopes.isEmpty

def size (s : ScopeStack σ) : Nat := s.scopes.length

def clear (_ : ScopeStack σ) : ScopeStack σ := {}

def push (s : ScopeStack σ) (scope : σ) : ScopeStack σ := ⟨scope :: s.scopes⟩

/-- The innermost scope. -/
def peek (s : ScopeStack σ) : Except ScopeError σ :=
  match s.scopes with
  | [] => .error .peekEmpty
  | scope :: _ => .ok scope

/-- The innermost scope and the stack without it. -/
def pop (s : ScopeStack σ) : Except ScopeError (σ × ScopeStack σ) :=
  match s.scopes with
  | [] => .error .popEmpty
  | scope :: rest => .ok (scope, ⟨rest⟩)

/-- What the name stands for in the innermost of the scopes that bind it. -/
def lookupBy (get? : σ → String → Option α) (s : ScopeStack σ) (name : String) : Option α :=
  s.scopes.findSome? fun scope => get? scope name

def lookup (s : ScopeStack (Bindings α)) (name : String) : Option α :=
  s.lookupBy Bindings.get? name

/-- Binds the name in the innermost scope. -/
def bind (s : ScopeStack (Bindings α)) (name : String) (value : α) :
    Except ScopeError (ScopeStack (Bindings α)) :=
  match s.scopes with
  | [] => .error .peekEmpty
  | scope :: rest => .ok ⟨scope.set name value :: rest⟩

/-- Enters a child: pushes a copy of the innermost scope. -/
def enter (s : ScopeStack σ) : Except ScopeError (ScopeStack σ) :=
  match s.scopes with
  | [] => .error .peekEmpty
  | scope :: _ => .ok (s.push scope)

@[simp] theorem pop_push (s : ScopeStack σ) (scope : σ) : (s.push scope).pop = .ok (scope, s) :=
  rfl

@[simp] theorem peek_push (s : ScopeStack σ) (scope : σ) : (s.push scope).peek = .ok scope := rfl

@[simp] theorem size_push (s : ScopeStack σ) (scope : σ) : (s.push scope).size = s.size + 1 := rfl

end ScopeStack

end StyleLang
