/-!
# Bindings

One scope: names with what they stand for, each name once. The laws say what `get?` sees after
`set`.
-/

namespace StyleLang

/-- What is looked up is in an entry. -/
theorem mem_of_lookup {κ β : Type} [BEq κ] [LawfulBEq κ] {entries : List (κ × β)} {key : κ}
    {value : β} (h : entries.lookup key = some value) : (key, value) ∈ entries := by
  obtain ⟨before, after, rfl, -⟩ := List.lookup_eq_some_iff.1 h
  exact List.mem_append_right before List.mem_cons_self

structure Bindings (α : Type) where
  entries : List (String × α) := []
  deriving Repr

namespace Bindings

variable {α : Type}

def get? (b : Bindings α) (name : String) : Option α := b.entries.lookup name

/-- Gives the name a new meaning, or its first one. -/
def set (b : Bindings α) (name : String) (value : α) : Bindings α :=
  ⟨(name, value) :: b.entries.filter fun e => e.1 != name⟩

/-- Of several entries for a name the last one counts. -/
def ofList (entries : List (String × α)) : Bindings α :=
  entries.foldl (fun b e => b.set e.1 e.2) {}

/-- The entries in the order of their names' code points. -/
def sorted (b : Bindings α) : List (String × α) :=
  b.entries.mergeSort fun x y => decide (x.1 ≤ y.1)

@[simp] theorem get?_empty (name : String) : (⟨[]⟩ : Bindings α).get? name = none := rfl

@[simp] theorem get?_set_self (b : Bindings α) (name : String) (value : α) :
    (b.set name value).get? name = some value := by
  simp [get?, set]

theorem lookup_filter_ne {name other : String} (h : other ≠ name) (es : List (String × α)) :
    (es.filter fun e => e.1 != name).lookup other = es.lookup other := by
  induction es with
  | nil => rfl
  | cons e es ih =>
    obtain ⟨n, v⟩ := e
    by_cases hn : n = name
    · subst hn
      simp [List.lookup_cons, beq_false_of_ne h, ih]
    · simp [hn, List.lookup_cons, ih]

theorem get?_set_of_ne (b : Bindings α) {name other : String} (h : other ≠ name) (value : α) :
    (b.set name value).get? other = b.get? other := by
  simp only [get?, set, List.lookup_cons, beq_false_of_ne h]
  exact lookup_filter_ne h _

end Bindings

end StyleLang
