import StyleLang.Syntax.Node

/-!
# Trees without positions

Main statements: neither the text of a node nor its description shows a position, and two trees are
the same if and only if they are equal without their positions.
-/

namespace StyleLang

namespace Node

mutual

/-- The node without positions. -/
def bare : Node → Node
  | selector _ kind name => selector {} kind name
  | literal _ value => literal {} value
  | reference _ name => reference {} name
  | operation _ op lhs rhs => operation {} op lhs.bare rhs.bare
  | declaration _ property expression => declaration {} property expression.bare
  | assignment _ name expression => assignment {} name expression.bare
  | conditional _ condition body elseBody =>
    conditional {} condition.bare (bareAll body) (bareElse elseBody)
  | rule _ selectors body => rule {} (bareAll selectors) (bareAll body)
  | sheet _ items => sheet {} (bareAll items)

/-- `bare`, member by member. -/
def bareAll : List Node → List Node
  | [] => []
  | node :: nodes => node.bare :: bareAll nodes

/-- `bare` for a branch that may be missing. -/
def bareElse : Option (List Node) → Option (List Node)
  | none => none
  | some nodes => some (bareAll nodes)

end

@[simp] theorem bareAll_nil : bareAll [] = [] := rfl

@[simp] theorem bareAll_cons (node : Node) (nodes : List Node) :
    bareAll (node :: nodes) = node.bare :: bareAll nodes := rfl

theorem bareAll_eq_map (nodes : List Node) : bareAll nodes = nodes.map bare := by
  induction nodes with
  | nil => rfl
  | cons node nodes ih => rw [bareAll_cons, ih, List.map_cons]

theorem bareAll_append (nodes nodes' : List Node) :
    bareAll (nodes ++ nodes') = bareAll nodes ++ bareAll nodes' := by
  simp only [bareAll_eq_map, List.map_append]

/-! ## Texts -/

theorem kindName_bare (n : Node) : n.bare.kindName = n.kindName := by
  cases n with
  | selector pos kind name => cases kind <;> rfl
  | literal pos value =>
    cases value with
    | number m n => cases m <;> rfl
    | color code => rfl
    | bool b => rfl
  | operation pos op lhs rhs => cases op <;> rfl
  | _ => rfl

mutual

theorem description_bare : ∀ n : Node, n.bare.description = n.description
  | selector pos kind name =>
    congrArg (record · [(kind.field, Quoted.text name)]) (kindName_bare (selector pos kind name))
  | literal pos value =>
    congrArg (record · [("value", value.description)]) (kindName_bare (literal pos value))
  | reference _ _ => rfl
  | operation pos op lhs rhs => by
    have hkind := kindName_bare (operation pos op lhs rhs)
    rw [bare] at hkind ⊢
    rw [description, description, hkind, description_bare lhs, description_bare rhs]
  | declaration _ _ e | assignment _ _ e => by
    rw [bare, description, description, description_bare e]
  | conditional _ c body none => by
    rw [bare, bareElse, description, description, description_bare c, descriptions_bareAll body]
  | conditional _ c body (some elseBody) => by
    rw [bare, bareElse, description, description, description_bare c, descriptions_bareAll body,
      descriptions_bareAll elseBody]
  | rule _ selectors body => by
    rw [bare, description, description, descriptions_bareAll selectors, descriptions_bareAll body]
  | sheet _ items => by rw [bare, description, description, descriptions_bareAll items]

theorem descriptions_bareAll : ∀ nodes : List Node,
    descriptions (bareAll nodes) = descriptions nodes
  | [] => rfl
  | n :: ns => by
    rw [bareAll, descriptions, descriptions, description_bare n, descriptions_bareAll ns]

end

/-! ## Sameness -/

mutual

theorem same_iff_bare : ∀ a b : Node, same a b = true ↔ a.bare = b.bare
  | selector _ k n, b => by cases b <;> simp [same, bare]
  | literal _ v, b => by cases b <;> simp [same, bare]
  | reference _ n, b => by cases b <;> simp [same, bare]
  | operation _ o l r, b => by
    cases b <;> simp [same, bare, same_iff_bare l, same_iff_bare r, and_assoc]
  | declaration _ p e, b => by cases b <;> simp [same, bare, same_iff_bare e]
  | assignment _ n e, b => by cases b <;> simp [same, bare, same_iff_bare e]
  | conditional _ c t none, b => by
    cases b with
    | conditional _ c' t' e' =>
      cases e' <;> simp [same, bare, bareElse, same_iff_bare c, sameAll_iff_bareAll t]
    | _ => simp [same, bare]
  | conditional _ c t (some e), b => by
    cases b with
    | conditional _ c' t' e' =>
      cases e' <;>
        simp [same, bare, bareElse, same_iff_bare c, sameAll_iff_bareAll t, sameAll_iff_bareAll e,
          and_assoc]
    | _ => simp [same, bare]
  | rule _ s t, b => by
    cases b <;> simp [same, bare, sameAll_iff_bareAll s, sameAll_iff_bareAll t]
  | sheet _ is, b => by cases b <;> simp [same, bare, sameAll_iff_bareAll is]

theorem sameAll_iff_bareAll : ∀ as bs : List Node, sameAll as bs = true ↔ bareAll as = bareAll bs
  | [], bs => by cases bs <;> simp [sameAll]
  | a :: as, bs => by
    cases bs <;> simp [sameAll, same_iff_bare a, sameAll_iff_bareAll as]

end

section Inversion

variable {n : Node} {pos : Position}

theorem exists_literal_of_bare {value : Value} (h : n.bare = literal pos value) :
    ∃ pos', n = literal pos' value := by
  cases n with
  | literal pos' _ =>
    obtain ⟨-, rfl⟩ := literal.inj h
    exact ⟨pos', rfl⟩
  | _ => cases h

theorem exists_reference_of_bare {name : String} (h : n.bare = reference pos name) :
    ∃ pos', n = reference pos' name := by
  cases n with
  | reference pos' _ =>
    obtain ⟨-, rfl⟩ := reference.inj h
    exact ⟨pos', rfl⟩
  | _ => cases h

theorem exists_assignment_of_bare {name : String} {e : Node} (h : n.bare = assignment pos name e) :
    ∃ pos' e', n = assignment pos' name e' ∧ e'.bare = e := by
  cases n with
  | assignment pos' _ e' =>
    obtain ⟨-, rfl, he⟩ := assignment.inj h
    exact ⟨pos', e', rfl, he⟩
  | _ => cases h

end Inversion

end Node

end StyleLang
