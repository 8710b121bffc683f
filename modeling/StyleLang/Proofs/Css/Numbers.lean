import StyleLang.Proofs.Css.Words

/-!
# Numbers in a flat tree

The literals of a flat tree are what its declarations set. Main statements: a number stands
somewhere in a flat tree if and only if some declaration sets it, and the tree has a CSS text unless
one of these numbers is too long to be printed.
-/

namespace StyleLang

namespace Css

/-- The literal that a declaration sets, if it sets one. -/
def lineValue? : Node → Option Value
  | .declaration _ _ (.literal _ value) => some value
  | _ => none

/-- The literals that the declarations of a rule set, in order. -/
def ruleValues : Node → List Value
  | .rule _ _ body => body.filterMap lineValue?
  | _ => []

theorem mem_ruleValues {pos : Position} {selectors body : List Node} {value : Value} :
    value ∈ ruleValues (.rule pos selectors body) ↔ ∃ n ∈ body, lineValue? n = some value :=
  List.mem_filterMap

/-! ## Literals by their places -/

/-- The one literal of a line is what it sets. -/
theorem FlatLine.at? {n : Node} (h : FlatLine n) {path : Path} {pos : Position} {value : Value}
    (hat : n.at? path = some (.literal pos value)) : lineValue? n = some value := by
  obtain @⟨pos', pos'', property, value', -, -, -⟩ := h
  cases path with
  | nil => cases hat
  | cons step path =>
    rw [Node.at?_cons] at hat
    obtain ⟨child, hchild, hrest⟩ := Option.bind_eq_some_iff.1 hat
    cases step <;> simp only [Node.child?, reduceCtorEq] at hchild
    obtain rfl := Option.some.inj hchild
    cases path with
    | nil =>
      obtain ⟨-, rfl⟩ := Node.literal.inj (Option.some.inj hrest)
      rfl
    | cons step path => cases step <;> cases hrest

/-- A selector of a flat rule is a selector, also with its position. -/
theorem isSelector_of_bareAll {selectors : List Node} {ws : List (List Char)}
    (h : Grammar.Selectors (Node.bareAll selectors) ws) {n : Node} (hn : n ∈ selectors) :
    ∃ pos kind name, n = .selector pos kind name := by
  have hmem : n.bare ∈ Node.bareAll selectors := by
    rw [Node.bareAll_eq_map]
    exact List.mem_map_of_mem hn
  obtain ⟨kind, name, hbare⟩ := h.isSelector hmem
  cases n <;> simp only [Node.bare, reduceCtorEq] at hbare
  exact ⟨_, _, _, rfl⟩

/-- A literal in a rule stands in one of its lines. -/
theorem FlatRule.at? {n : Node} (h : FlatRule n) {path : Path} {pos : Position} {value : Value}
    (hat : n.at? path = some (.literal pos value)) : value ∈ ruleValues n := by
  obtain @⟨pos', selectors, body, ws, hselectors, hbody⟩ := h
  cases path with
  | nil => cases hat
  | cons step path =>
    rw [Node.at?_cons] at hat
    obtain ⟨child, hchild, hrest⟩ := Option.bind_eq_some_iff.1 hat
    cases step <;> simp only [Node.child?, reduceCtorEq] at hchild
    · obtain ⟨q, kind, name, rfl⟩ :=
        isSelector_of_bareAll hselectors (List.mem_of_getElem? hchild)
      cases path with
      | nil => cases hrest
      | cons step path => cases step <;> cases hrest
    · have hmem := List.mem_of_getElem? hchild
      exact mem_ruleValues.2 ⟨child, hmem, (hbody child hmem).at? hrest⟩

end Css

open Css

/-- The literals that the declarations of the rules set, in order. -/
def Stylesheet.values (sheet : Stylesheet) : List Value := sheet.items.flatMap ruleValues

/-- A literal stands somewhere in a flat tree if and only if a declaration sets it. -/
theorem Stylesheet.literal_at_iff {sheet : Stylesheet} (h : ∀ n ∈ sheet.items, FlatRule n)
    {value : Value} :
    (∃ path pos, sheet.toNode.at? path = some (.literal pos value)) ↔ value ∈ sheet.values := by
  unfold values
  rw [List.mem_flatMap]
  constructor
  · rintro ⟨path, pos, hat⟩
    cases path with
    | nil => cases hat
    | cons step path =>
      rw [Node.at?_cons] at hat
      obtain ⟨child, hchild, hrest⟩ := Option.bind_eq_some_iff.1 hat
      unfold toNode at hchild
      cases step <;> simp only [Node.child?, reduceCtorEq] at hchild
      have hmem := List.mem_of_getElem? hchild
      exact ⟨child, hmem, (h child hmem).at? hrest⟩
  · rintro ⟨n, hn, hvalue⟩
    obtain @⟨pos, selectors, body, ws, -, hbody⟩ := h n hn
    obtain ⟨line, hline, hset⟩ := mem_ruleValues.1 hvalue
    obtain @⟨q, q', property, value', -, -, -⟩ := hbody line hline
    obtain rfl := Option.some.inj hset
    obtain ⟨i, hi⟩ := List.getElem?_of_mem hn
    obtain ⟨j, hj⟩ := List.getElem?_of_mem hline
    exact ⟨[.item i, .body j, .expression], q', by simp [toNode, Node.at?, Node.child?, hi, hj]⟩

/-! ## Printing -/

/-- The printer gives a text if the numbers fit, and else refuses one of them. -/
def Prints {α : Type} (fits : Bool) (x : Except CssError α) : Prop :=
  (fits = true ∧ ∃ a, x = .ok a) ∨ (fits = false ∧ x = .error .numberTooLong)

section Prints

variable {α β : Type} {p q : Bool}

theorem prints_pure (a : α) : Prints true (pure a) := .inl ⟨rfl, a, rfl⟩

theorem Prints.bind {x : Except CssError α} {f : α → Except CssError β} (h : Prints p x)
    (hf : ∀ a, Prints q (f a)) : Prints (p && q) (x >>= f) := by
  rcases h with ⟨rfl, a, rfl⟩ | ⟨rfl, rfl⟩
  · exact hf a
  · exact .inr ⟨rfl, rfl⟩

theorem Prints.map {x : Except CssError α} (h : Prints p x) (f : α → β) :
    Prints p (x >>= fun a => pure (f a)) := by
  have hboth := h.bind fun a => prints_pure (f a)
  rwa [Bool.and_true] at hboth

theorem prints_mapM {f : Node → Except CssError α} {fits : Node → Bool} {ns : List Node}
    (h : ∀ n ∈ ns, Prints (fits n) (f n)) : Prints (ns.all fits) (ns.mapM f) := by
  induction ns with
  | nil => exact prints_pure []
  | cons n ns ih =>
    have hrest := ih fun m hm => h m (List.mem_cons_of_mem _ hm)
    rw [List.mapM_cons, List.all_cons]
    exact (h n List.mem_cons_self).bind fun b => hrest.map (b :: ·)

end Prints

namespace Css

theorem prints_print (n : Node) : Prints n.printable (print n) := by
  unfold print
  cases hp : n.printable with
  | true => exact prints_pure _
  | false => exact .inr ⟨rfl, rfl⟩

theorem prints_line {n : Node} (h : FlatLine n) :
    Prints ((lineValue? n).all Value.printable) (declaration n) := by
  obtain @⟨pos, pos', property, value, -, -, -⟩ := h
  exact (prints_print (.literal pos' value)).map _

theorem prints_rule {n : Node} (h : FlatRule n) (indent : String) :
    Prints ((ruleValues n).all Value.printable) (rule indent n) := by
  obtain @⟨pos, selectors, body, ws, hselectors, hbody⟩ := h
  have hnames : selectors.all Node.printable = true := by
    refine List.all_eq_true.2 fun n hn => ?_
    obtain ⟨q, kind, name, rfl⟩ := isSelector_of_bareAll hselectors hn
    rfl
  have hlines : (ruleValues (.rule pos selectors body)).all Value.printable =
      body.all fun n => (lineValue? n).all Value.printable := by
    unfold ruleValues
    rw [List.all_filterMap]
    rfl
  rw [hlines, ← Bool.true_and (body.all _), ← hnames]
  refine (prints_mapM fun n _ => prints_print n).bind fun names => ?_
  exact (prints_mapM fun n hn => prints_line (hbody n hn)).map _

end Css

/-- A flat tree has a CSS text if all numbers in it can be printed; else one of them is refused. -/
theorem Stylesheet.prints_css {sheet : Stylesheet} (h : ∀ n ∈ sheet.items, FlatRule n)
    (indent : String) : Prints (sheet.values.all Value.printable) (sheet.css indent) := by
  unfold values css
  rw [List.all_flatMap]
  exact (prints_mapM fun n hn => prints_rule (h n hn) indent).map _

/-! ## Long numbers -/

theorem Value.printable_eq_false_iff {value : Value} :
    value.printable = false ↔ ∃ m n, value = .number m n ∧ digitLimit < digitCount n := by
  cases value with
  | number m n =>
    rw [printable, withinLimit, decide_eq_false_iff_not, Nat.not_le]
    constructor
    · intro hlong
      exact ⟨m, n, rfl, hlong⟩
    · rintro ⟨m', n', heq, hlong⟩
      obtain ⟨rfl, rfl⟩ := Value.number.inj heq
      exact hlong
  | color code => simp [printable]
  | bool b => simp [printable]

/-- A number with more digits than can be printed stands somewhere in the tree. -/
def Stylesheet.HoldsLongNumber (sheet : Stylesheet) : Prop :=
  ∃ path pos m n, sheet.toNode.at? path = some (.literal pos (.number m n)) ∧
    digitLimit < digitCount n

theorem Stylesheet.holdsLongNumber_iff {sheet : Stylesheet} (h : ∀ n ∈ sheet.items, FlatRule n) :
    sheet.HoldsLongNumber ↔ sheet.values.all Value.printable = false := by
  rw [List.all_eq_false]
  constructor
  · rintro ⟨path, pos, m, n, hat, hlong⟩
    refine ⟨.number m n, (literal_at_iff h).1 ⟨path, pos, hat⟩, ?_⟩
    rw [Bool.not_eq_true]
    exact Value.printable_eq_false_iff.2 ⟨m, n, rfl, hlong⟩
  · rintro ⟨value, hvalue, hfits⟩
    rw [Bool.not_eq_true] at hfits
    obtain ⟨m, n, rfl, hlong⟩ := Value.printable_eq_false_iff.1 hfits
    obtain ⟨path, pos, hat⟩ := (literal_at_iff h).2 hvalue
    exact ⟨path, pos, m, n, hat, hlong⟩

/-- A flat tree has a CSS text if and only if it holds no long number. -/
theorem Stylesheet.css_of_flat {sheet : Stylesheet} (h : ∀ n ∈ sheet.items, FlatRule n)
    (indent : String) :
    (¬ sheet.HoldsLongNumber ∧ ∃ text, sheet.css indent = .ok text) ∨
      (sheet.HoldsLongNumber ∧ sheet.css indent = .error .numberTooLong) := by
  rw [holdsLongNumber_iff h]
  rcases prints_css h indent with ⟨hfits, htext⟩ | ⟨hfits, herror⟩
  · have hshort : ¬ sheet.values.all Value.printable = false := by simp [hfits]
    exact .inl ⟨hshort, htext⟩
  · exact .inr ⟨hfits, herror⟩

end StyleLang
