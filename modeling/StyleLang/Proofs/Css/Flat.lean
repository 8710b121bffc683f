import StyleLang.Css
import StyleLang.Proofs.Grammar.Spelling
import StyleLang.Proofs.Pass.NormalForm
import StyleLang.Proofs.Syntax.Relabeling
import StyleLang.Proofs.Typing.Soundness

/-!
# Flat trees

A flat tree has nothing to evaluate: it has rules of declarations of literals, and names and colors
that can be written down. Main statements: the evaluator leaves a flat tree as it is, no fault stops
the checker, and its CSS does not depend on positions.
-/

namespace StyleLang

/-- The value has a literal. A negative number counts as having one here. -/
def Value.Writable : Value → Prop
  | color code => IsColor code.toList
  | number _ _ => True
  | bool _ => True

namespace Css

/-- A declaration of a literal, with a name that can be written where a statement starts. -/
inductive FlatLine : Node → Prop where
  | mk {pos pos' : Position} {property : String} {value : Value} : IsName property.toList →
    property.toList ≠ ['i', 'f'] → value.Writable →
    FlatLine (.declaration pos property (.literal pos' value))

/-- A rule of such declarations, with selectors that can be written. -/
inductive FlatRule : Node → Prop where
  | mk {pos : Position} {selectors body : List Node} {ws : List (List Char)} :
    Grammar.Selectors (Node.bareAll selectors) ws → (∀ n ∈ body, FlatLine n) →
    FlatRule (.rule pos selectors body)

/-! ## Evaluation -/

theorem FlatRule.evaluated {n : Node} (h : FlatRule n) : n.Evaluated := by
  obtain ⟨-, hbody⟩ := h
  refine .rule fun m hm => ?_
  obtain ⟨-, -, -⟩ := hbody m hm
  exact .declaration

/-- The evaluator leaves a flat tree as it is. -/
theorem evaluate_flat {sheet : Stylesheet} (h : ∀ n ∈ sheet.items, FlatRule n) :
    sheet.evaluate = .ok ⟨sheet, []⟩ :=
  Stylesheet.IsEvaluated.evaluate fun n hn => (h n hn).evaluated

/-! ## Checking -/

section Checking

variable {admits : Problem → Prop}

/-- A block of statements without bindings, each with admitted findings. -/
theorem check_block {nodes : List Node}
    (h : ∀ n ∈ nodes, ∀ Γ, (Check.Lexical.statement n Γ).Yields admits ((), Γ))
    (edge : Nat → Step) (index : Nat) (Γ : Env ValueType) :
    (Check.Lexical.block edge index nodes Γ).Yields admits ((), Γ) := by
  induction nodes generalizing index with
  | nil =>
    rw [Check.Lexical.block]
    exact Passing.yields_ok.2 ⟨rfl, rfl⟩
  | cons n nodes ih =>
    have hn := h n List.mem_cons_self Γ
    have hrest := ih (fun m hm => h m (List.mem_cons_of_mem _ hm)) (index + 1)
    rw [Check.Lexical.block]
    exact Passing.yields_andThen.2 ⟨(), Γ, Passing.yields_under.2 hn, hrest⟩

theorem check_rule {pos : Position} {selectors body : List Node}
    (h : ∀ n ∈ body, ∀ Γ, (Check.Lexical.statement n Γ).Yields admits ((), Γ))
    (Γ : Env ValueType) :
    (Check.Lexical.statement (.rule pos selectors body) Γ).Yields admits ((), Γ) := by
  rw [Check.Lexical.statement]
  exact Passing.yields_child.2 ⟨⟨Γ, check_block h .body 0 Γ⟩, rfl⟩

theorem check_line {n : Node} (h : FlatLine n) (Γ : Env ValueType) :
    (Check.Lexical.statement n Γ).Yields (fun _ => True) ((), Γ) := by
  obtain @⟨pos, pos', property, value, -, -, -⟩ := h
  rw [Check.Lexical.statement, Passing.yields_reading]
  refine ⟨?_, rfl⟩
  unfold Check.declaration
  refine Report.yields_andThen.2 ⟨some value.type, ?_, ?_⟩
  · exact Report.yields_under.2 (Report.yields_ok.2 rfl)
  · split
    · exact Report.yields_note.2 trivial
    · split
      · exact Report.yields_ok.2 rfl
      · exact Report.yields_note.2 trivial

theorem check_settled {n : Node} (h : n.Settled) (Γ : Env ValueType) :
    (Check.Lexical.statement n Γ).Yields (fun _ => False) ((), Γ) := by
  induction h generalizing Γ with
  | @declaration pos pos' property value ha ht =>
    rw [Check.Lexical.statement, Passing.yields_reading, Check.yields_declaration_iff]
    exact ⟨⟨ha, value.type, .literal value, ht⟩, rfl⟩
  | rule _ ih => exact check_rule ih Γ

/-- No fault stops the checker on a flat tree. -/
theorem check_flat {sheet : Stylesheet} (h : ∀ n ∈ sheet.items, FlatRule n) :
    ∃ findings, sheet.check = .ok findings := by
  have hrules : ∀ n ∈ sheet.items, ∀ Γ,
      (Check.Lexical.statement n Γ).Yields (fun _ => True) ((), Γ) := by
    intro n hn Γ
    obtain ⟨-, hbody⟩ := h n hn
    exact check_rule (fun m hm => check_line (hbody m hm)) Γ
  obtain ⟨hresult, -⟩ := check_block hrules .item 0 .empty
  refine ⟨sheet.checkReport.findings, ?_⟩
  have hreport : sheet.checkReport.result = .ok ((), .empty) := hresult
  rw [Stylesheet.check_eq, hreport]
  rfl

/-- The checker finds nothing in a tree of settled rules. -/
theorem check_settled_sheet {sheet : Stylesheet} (h : ∀ n ∈ sheet.items, n.Settled) :
    sheet.check = .ok [] :=
  sheet.check_eq_nil_iff_silent.2
    ⟨.empty, check_block (fun n hn => check_settled (h n hn)) .item 0 .empty⟩

end Checking

/-! ## Positions -/

theorem text_bare : ∀ n : Node, n.bare.text = n.text
  | .operation _ _ lhs rhs => by rw [Node.bare, Node.text, Node.text, text_bare lhs, text_bare rhs]
  | .selector _ _ _ | .literal _ _ | .reference _ _ => rfl
  | .declaration _ _ _ | .assignment _ _ _ | .conditional _ _ _ _ | .rule _ _ _ | .sheet _ _ =>
    Node.description_bare _

theorem print_bare (n : Node) : print n.bare = print n := by
  unfold print
  rw [Node.printable_bare, text_bare]

theorem declaration_bare (n : Node) : declaration n.bare = declaration n := by
  cases n with
  | declaration pos property e =>
    cases e with
    | literal pos' value => rfl
    | _ =>
      exact congrArg (fun kind => Except.error (CssError.notLiteral property kind))
        (Node.kindName_bare _)
  | _ =>
    exact congrArg (fun kind => Except.error (CssError.notDeclaration kind)) (Node.kindName_bare _)

theorem mapM_bareAll {α : Type} {f : Node → Except CssError α} (h : ∀ n, f n.bare = f n)
    (nodes : List Node) : (Node.bareAll nodes).mapM f = nodes.mapM f := by
  induction nodes with
  | nil => rfl
  | cons n nodes ih => rw [Node.bareAll_cons, List.mapM_cons, List.mapM_cons, h, ih]

theorem rule_bare (indent : String) (n : Node) : rule indent n.bare = rule indent n := by
  cases n with
  | rule pos selectors body =>
    unfold rule Node.bare
    simp only [mapM_bareAll print_bare, mapM_bareAll declaration_bare]
  | _ => exact congrArg (fun kind => Except.error (CssError.notRule kind)) (Node.kindName_bare _)

/-- The CSS of a tree does not depend on positions. -/
theorem css_congr {a b : Stylesheet} (h : Node.bareAll a.items = Node.bareAll b.items)
    (indent : String) : a.css indent = b.css indent := by
  have hrules : a.items.mapM (rule indent) = b.items.mapM (rule indent) := by
    rw [← mapM_bareAll (rule_bare indent), h, mapM_bareAll (rule_bare indent)]
  unfold Stylesheet.css
  rw [hrules]

theorem flatLine_of_bare {a b : Node} (h : FlatLine a) (hab : a.bare = b.bare) : FlatLine b := by
  obtain @⟨pos, pos', property, value, hname, hif, hvalue⟩ := h
  cases b with
  | declaration q p e =>
    obtain ⟨-, rfl, he⟩ := Node.declaration.inj hab
    cases e with
    | literal q' v =>
      obtain ⟨-, rfl⟩ := Node.literal.inj he
      exact .mk hname hif hvalue
    | _ => cases he
  | _ => cases hab

theorem mem_of_bareAll_eq {as bs : List Node} (h : Node.bareAll as = Node.bareAll bs) {b : Node}
    (hb : b ∈ bs) : ∃ a ∈ as, a.bare = b.bare := by
  rw [Node.bareAll_eq_map, Node.bareAll_eq_map] at h
  have hmem : b.bare ∈ as.map Node.bare := by
    rw [h]
    exact List.mem_map_of_mem hb
  obtain ⟨a, ha, hab⟩ := List.mem_map.1 hmem
  exact ⟨a, ha, hab⟩

/-- Whether a rule is flat does not depend on positions. -/
theorem flatRule_of_bare {a b : Node} (h : FlatRule a) (hab : a.bare = b.bare) : FlatRule b := by
  obtain @⟨pos, selectors, body, ws, hselectors, hbody⟩ := h
  cases b with
  | rule q ss bs =>
    obtain ⟨-, hss, hbs⟩ := Node.rule.inj hab
    refine .mk (hss ▸ hselectors) fun n hn => ?_
    obtain ⟨m, hm, hmn⟩ := mem_of_bareAll_eq hbs hn
    exact flatLine_of_bare (hbody m hm) hmn
  | _ => cases hab

/-- Whether a node is settled does not depend on positions. -/
theorem settled_of_bare {a b : Node} (h : a.Settled) (hab : a.bare = b.bare) : b.Settled := by
  induction h generalizing b with
  | @declaration pos pos' property value ha ht =>
    cases b with
    | declaration q p e =>
      obtain ⟨-, rfl, he⟩ := Node.declaration.inj hab
      cases e with
      | literal q' v =>
        obtain ⟨-, rfl⟩ := Node.literal.inj he
        exact .declaration ha ht
      | _ => cases he
    | _ => cases hab
  | rule _ ih =>
    cases b with
    | rule q ss bs =>
      obtain ⟨-, -, hbs⟩ := Node.rule.inj hab
      refine .rule fun n hn => ?_
      obtain ⟨m, hm, hmn⟩ := mem_of_bareAll_eq hbs hn
      exact ih m hm hmn
    | _ => cases hab

end Css

end StyleLang
