import StyleLang.Proofs.Syntax.Grafting

/-!
# Trees that agree at a path

Two trees agree at a path if it leads nowhere in both, or in both to nodes of one kind with the same
fields, whatever stands below these. So a claim about two trees that differ at some places only says
at which paths they agree. Main statements: trees that agree at every path are the same tree, and
a tree agrees with what it is with another node grafted wherever a path does not lead to that node.
-/

namespace StyleLang.Node

/-- The node without what stands below it. -/
def head : Node → Node
  | selector pos kind name => selector pos kind name
  | literal pos value => literal pos value
  | reference pos name => reference pos name
  | operation pos op _ _ => operation pos op (sheet {} []) (sheet {} [])
  | declaration pos property _ => declaration pos property (sheet {} [])
  | assignment pos name _ => assignment pos name (sheet {} [])
  | conditional pos _ _ elseBody => conditional pos (sheet {} []) [] (elseBody.map fun _ => [])
  | rule pos _ _ => rule pos [] []
  | sheet pos _ => sheet pos []

/-- The path leads to nodes of the same kind with the same fields, or to none. -/
def AgreesAt (n n' : Node) (path : Path) : Prop := (n'.at? path).map head = (n.at? path).map head

/-- The path leads from the members at the index to nodes of the same kind with the same fields, or
to none. -/
def AgreeAt (ns ns' : List Node) (i : Nat) (path : Path) : Prop :=
  (ns'[i]?.bind fun n => n.at? path).map head = (ns[i]?.bind fun n => n.at? path).map head

variable {n n' : Node} {ns ns' : List Node}

theorem agreesAt_nil : n.AgreesAt n' [] ↔ n'.head = n.head := by
  simp [AgreesAt, at?]

/-! ## The kind of a node that agrees -/

section Kind

variable {pos : Position}

theorem eq_operation_of_head {op : Operator} {lhs rhs : Node}
    (h : n'.head = (operation pos op lhs rhs).head) :
    ∃ lhs' rhs', n' = operation pos op lhs' rhs' := by
  cases n' <;> simp_all [head]

theorem eq_declaration_of_head {property : String} {e : Node}
    (h : n'.head = (declaration pos property e).head) : ∃ e', n' = declaration pos property e' := by
  cases n' <;> simp_all [head]

theorem eq_assignment_of_head {name : String} {e : Node}
    (h : n'.head = (assignment pos name e).head) : ∃ e', n' = assignment pos name e' := by
  cases n' <;> simp_all [head]

theorem eq_rule_of_head {selectors body : List Node}
    (h : n'.head = (rule pos selectors body).head) :
    ∃ selectors' body', n' = rule pos selectors' body' := by
  cases n' <;> simp_all [head]

theorem eq_sheet_of_head {items : List Node} (h : n'.head = (sheet pos items).head) :
    ∃ items', n' = sheet pos items' := by
  cases n' <;> simp_all [head]

theorem eq_conditional_of_head {c : Node} {body : List Node} {elseBody : Option (List Node)}
    (h : n'.head = (conditional pos c body elseBody).head) :
    ∃ c' body' elseBody', n' = conditional pos c' body' elseBody' ∧
      elseBody'.isSome = elseBody.isSome := by
  cases n' with
  | conditional _ c' body' elseBody' =>
    simp only [head, conditional.injEq, true_and] at h
    obtain ⟨rfl, helse⟩ := h
    refine ⟨c', body', elseBody', rfl, ?_⟩
    simpa using congrArg Option.isSome helse
  | _ => simp [head] at h

end Kind

/-! ## Agreement everywhere -/

mutual

theorem eq_of_agreesAt : ∀ {n n' : Node}, (∀ path, n.AgreesAt n' path) → n' = n
  | .selector _ _ _, n', h | .literal _ _, n', h | .reference _ _, n', h => by
    have hhead := agreesAt_nil.1 (h [])
    cases n' <;> simp_all [head]
  | .operation _ _ lhs rhs, n', h => by
    obtain ⟨lhs', rhs', rfl⟩ := eq_operation_of_head (agreesAt_nil.1 (h []))
    have hlhs : lhs' = lhs := eq_of_agreesAt fun path => h (.lhs :: path)
    have hrhs : rhs' = rhs := eq_of_agreesAt fun path => h (.rhs :: path)
    rw [hlhs, hrhs]
  | .declaration _ _ e, n', h => by
    obtain ⟨e', rfl⟩ := eq_declaration_of_head (agreesAt_nil.1 (h []))
    have he : e' = e := eq_of_agreesAt fun path => h (.expression :: path)
    rw [he]
  | .assignment _ _ e, n', h => by
    obtain ⟨e', rfl⟩ := eq_assignment_of_head (agreesAt_nil.1 (h []))
    have he : e' = e := eq_of_agreesAt fun path => h (.expression :: path)
    rw [he]
  | .conditional _ c body none, n', h => by
    obtain ⟨c', body', elseBody', rfl, helse⟩ := eq_conditional_of_head (agreesAt_nil.1 (h []))
    have hc : c' = c := eq_of_agreesAt fun path => by
      cases elseBody' <;> exact h (.condition :: path)
    have hbody : body' = body := eq_of_agreeAt fun i path => by
      cases elseBody' <;> exact h (.body i :: path)
    rw [hc, hbody, Option.isNone_iff_eq_none.1 (Option.isSome_eq_false_iff.1 helse)]
  | .conditional _ c body (some elseBody), n', h => by
    obtain ⟨c', body', elseBody', rfl, helse⟩ := eq_conditional_of_head (agreesAt_nil.1 (h []))
    obtain ⟨elseBody', rfl⟩ := Option.isSome_iff_exists.1 helse
    have hc : c' = c := eq_of_agreesAt fun path => h (.condition :: path)
    have hbody : body' = body := eq_of_agreeAt fun i path => h (.body i :: path)
    have helse : elseBody' = elseBody := eq_of_agreeAt fun i path => h (.elseBody i :: path)
    rw [hc, hbody, helse]
  | .rule _ selectors body, n', h => by
    obtain ⟨selectors', body', rfl⟩ := eq_rule_of_head (agreesAt_nil.1 (h []))
    have hsel : selectors' = selectors := eq_of_agreeAt fun i path => h (.selector i :: path)
    have hbody : body' = body := eq_of_agreeAt fun i path => h (.body i :: path)
    rw [hsel, hbody]
  | .sheet _ items, n', h => by
    obtain ⟨items', rfl⟩ := eq_sheet_of_head (agreesAt_nil.1 (h []))
    have hitems : items' = items := eq_of_agreeAt fun i path => h (.item i :: path)
    rw [hitems]

theorem eq_of_agreeAt : ∀ {ns ns' : List Node}, (∀ i path, AgreeAt ns ns' i path) → ns' = ns
  | [], ns', h => by
    cases ns' with
    | nil => rfl
    | cons n' ns' => cases h 0 []
  | n :: ns, ns', h => by
    cases ns' with
    | nil => cases h 0 []
    | cons n' ns' =>
      have hn : n' = n := eq_of_agreesAt fun path => h 0 path
      have hns : ns' = ns := eq_of_agreeAt fun i path => h (i + 1) path
      rw [hn, hns]

end

/-! ## Agreement beside a graft -/

theorem head_alter (f : Node → Option Node) (n : Node) (step : Step) :
    (n.alter f step).head = n.head := by
  cases n with
  | conditional pos c body elseBody => cases elseBody <;> cases step <;> rfl
  | _ => cases step <;> rfl

/-- A graft is seen only on paths that lead to it. -/
theorem agreesAt_graft {target path : Path} (h : ¬ target <+: path) (n m : Node) :
    n.AgreesAt (n.graft target m) path := by
  induction target generalizing n path with
  | nil => exact absurd List.nil_prefix h
  | cons s target ih =>
    have hf : ∀ child : Node, (some (child.graft target m)).isSome := fun _ => rfl
    rw [graft_cons]
    cases path with
    | nil => exact agreesAt_nil.2 (head_alter _ n s)
    | cons t path =>
      unfold AgreesAt
      rw [at?_cons, at?_cons]
      by_cases hts : t = s
      · subst hts
        rw [child?_alter_self hf]
        cases n.child? t with
        | none => rfl
        | some child => exact ih (fun hp => h (List.cons_prefix_cons.2 ⟨rfl, hp⟩)) child
      · rw [child?_alter_of_ne hf hts]

end StyleLang.Node
