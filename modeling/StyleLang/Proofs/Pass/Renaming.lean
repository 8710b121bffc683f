import Mathlib.Logic.Equiv.Basic
import StyleLang.Proofs.Pass.Isolation
import StyleLang.Proofs.Pass.Relabeling

/-!
# Names of variables

A variable may have any name. Main statement: with other names for the variables, different ones for
different variables, either pass says the same of the same nodes but for the names. In an evaluated
tree only selectors can name variables, since they are left as they are; so where no selector names
one, the evaluated tree is the same.
-/

namespace StyleLang

namespace Remnant

theorem getElem?_toNodes (rs : List Remnant) (i : Nat) :
    (toNodes rs)[i]? = rs[i]?.map toNode := by
  induction rs generalizing i with
  | nil => rfl
  | cons r rs ih =>
    rw [toNodes]
    cases i with
    | zero => rfl
    | succ i => exact ih i

/-- The child of what is left of a declaration is a literal, which has none. -/
theorem at?_declaration {pos pos' : Position} {property : String} {value : Value} {m : Node}
    {path : Path}
    (h : (Node.declaration pos property (.literal pos' value)).at? path = some m) :
    path.OutsideSelectors ∧ ¬ m.NamesVariable := by
  cases path with
  | nil =>
    obtain rfl := Option.some.inj h
    exact ⟨fun i hi => absurd hi List.not_mem_nil, id⟩
  | cons step path =>
    obtain ⟨child, hchild, hat⟩ := Option.bind_eq_some_iff.1 h
    cases step <;> cases hchild
    cases path with
    | nil =>
      obtain rfl := Option.some.inj hat
      exact ⟨fun i hi => by simp at hi, id⟩
    | cons step path => cases step <;> cases hat

variable {r : Remnant} {n m : Node} {path : Path}

theorem at?_body {pos : Position} {selectors : List Node} {body : List Remnant} {i : Nat}
    (h : (Node.rule pos selectors (toNodes body)).at? (.body i :: path) = some m) :
    ∃ r ∈ body, r.toNode.at? path = some m := by
  obtain ⟨child, hchild, hat⟩ := Option.bind_eq_some_iff.1 h
  rw [Node.child?, getElem?_toNodes] at hchild
  obtain ⟨r, hr, rfl⟩ := Option.map_eq_some_iff.1 hchild
  exact ⟨r, List.mem_of_getElem? hr, hat⟩

/-- What is left names variables in selectors only. -/
theorem not_outside_of_names (hat : r.toNode.at? path = some m) (hm : m.NamesVariable) :
    ¬ path.OutsideSelectors := by
  induction path generalizing r with
  | nil =>
    obtain rfl := Option.some.inj hat
    cases r <;> exact hm.elim
  | cons step path ih =>
    cases r with
    | declaration origin pos property value => exact absurd hm (at?_declaration hat).2
    | rule origin pos selectors body =>
      intro hout
      cases step with
      | selector i => exact hout.head_ne i rfl
      | body i =>
        obtain ⟨r, -, hr⟩ := at?_body hat
        exact ih hr hout.tail
      | _ => cases hat

/-- What a selector of a remnant holds, a selector of the source holds. -/
theorem Of.exists_in_selector (h : r.Of n) (hat : r.toNode.at? path = some m)
    (hpath : ¬ path.OutsideSelectors) :
    ∃ path', n.at? path' = some m ∧ ¬ path'.OutsideSelectors := by
  induction path generalizing r n with
  | nil => exact absurd (fun i hi => absurd hi List.not_mem_nil) hpath
  | cons step path ih =>
    cases h with
    | declaration => exact absurd (at?_declaration hat).1 hpath
    | @rule _ origin pos selectors source body hrule hbody =>
      have hsource : ∀ rest, n.at? (origin ++ rest) =
          (Node.rule pos selectors source).at? rest := by
        intro rest
        rw [Node.at?_append, hrule]
        rfl
      cases step with
      | selector i =>
        refine ⟨origin ++ .selector i :: path, (hsource _).trans hat, fun hout => ?_⟩
        exact hout.of_append.head_ne i rfl
      | body i =>
        obtain ⟨r, hr, hat⟩ := at?_body hat
        have hin : ¬ Path.OutsideSelectors path := fun hout => hpath (hout.cons (by simp))
        obtain ⟨path', hat', hin'⟩ := ih (hbody r hr) hat hin
        exact ⟨origin ++ path', (hsource _).trans hat', fun hout => hin' hout.of_append⟩
      | _ => cases hat

end Remnant

namespace Stylesheet

variable {sheet : Stylesheet} {e : Evaluation}

/-- Outside selectors no node of the tree names a variable. -/
def NamesInSelectorsOnly (sheet : Stylesheet) : Prop :=
  ∀ path m, sheet.toNode.at? path = some m → m.NamesVariable → ¬ path.OutsideSelectors

/-- In selectors no node of the tree names a variable. -/
def NamesOutsideSelectors (sheet : Stylesheet) : Prop :=
  ∀ path m, sheet.toNode.at? path = some m → m.NamesVariable → path.OutsideSelectors

/-- What stands in an evaluated tree, but its root, stands in what was left of an item. -/
theorem exists_remnant_at? {path : Path} {m : Node} (he : sheet.evaluate = .ok e)
    (hat : e.stylesheet.toNode.at? path = some m) (hm : m.NamesVariable) :
    ∃ i rest, path = .item i :: rest ∧ ∃ r : Remnant, r.Of sheet.toNode ∧
      r.toNode.at? rest = some m := by
  obtain ⟨rs, values, ht, hleft⟩ := trace_of_evaluate he
  rw [hleft] at hat
  cases path with
  | nil =>
    obtain rfl := Option.some.inj hat
    exact hm.elim
  | cons step rest =>
    obtain ⟨child, hchild, hat⟩ := Option.bind_eq_some_iff.1 hat
    cases step with
    | item i =>
      rw [toNode, Node.child?, Remnant.getElem?_toNodes] at hchild
      obtain ⟨r, hr, rfl⟩ := Option.map_eq_some_iff.1 hchild
      exact ⟨i, rest, rfl, r, of_trace (by rw [ht]) r (List.mem_of_getElem? hr), hat⟩
    | _ => cases hchild

theorem namesInSelectorsOnly_of_evaluate (he : sheet.evaluate = .ok e) :
    e.stylesheet.NamesInSelectorsOnly := by
  intro path m hat hm hout
  obtain ⟨i, rest, rfl, r, -, hr⟩ := exists_remnant_at? he hat hm
  exact Remnant.not_outside_of_names hr hm hout.tail

theorem nameless_of_evaluate (he : sheet.evaluate = .ok e) (h : sheet.NamesOutsideSelectors) :
    e.stylesheet.toNode.Nameless := by
  intro path m hat hm
  obtain ⟨i, rest, rfl, r, hof, hr⟩ := exists_remnant_at? he hat hm
  obtain ⟨path', hat', hin⟩ := hof.exists_in_selector hr (Remnant.not_outside_of_names hr hm)
  exact hin (h path' m hat' hm)

theorem relabel_eq_self {L : Relabeling} (hpos : L.position = id) (h : sheet.toNode.Nameless) :
    sheet.relabel L = sheet := by
  have hnode := Node.relabel_eq_self hpos sheet.toNode h
  rw [← toNode_relabel] at hnode
  obtain ⟨hsheet, hitems⟩ := Node.sheet.inj hnode
  exact congrArg₂ Stylesheet.mk hsheet hitems

/-- **Names of variables do not matter.** With the variables renamed, and different ones still
different, every node stands where it stood; the checker and the evaluator return or fail as before
and find the same on the same nodes, in the same order, but for the names in their messages; and
the evaluated tree is as before but for names in selectors, so it is the same if no selector names
a variable. -/
theorem variable_names_do_not_matter {f : String → String} (hf : Function.Injective f)
    (sheet : Stylesheet) :
    let renamed : Relabeling := { name := f }
    (∀ path, (sheet.relabel renamed).toNode.at? path =
      (sheet.toNode.at? path).map (Node.relabel renamed)) ∧
    (sheet.relabel renamed).check = sheet.check.map (List.map renamed.finding) ∧
    (sheet.relabel renamed).evaluate = sheet.evaluate.map (fun e =>
      { stylesheet := e.stylesheet.relabel renamed, defects := e.defects.map renamed.finding }) ∧
    ∀ e, sheet.evaluate = .ok e → e.stylesheet.NamesInSelectorsOnly ∧
      (sheet.NamesOutsideSelectors → e.stylesheet.relabel renamed = e.stylesheet) := by
  intro renamed
  have hfaithful : renamed.Faithful := ⟨rfl, hf⟩
  refine ⟨fun path => ?_, check_relabel hfaithful sheet, evaluate_relabel hfaithful sheet,
    fun e he => ⟨namesInSelectorsOnly_of_evaluate he, fun h => ?_⟩⟩
  · rw [toNode_relabel, Node.at?_relabel]
  · exact relabel_eq_self rfl (nameless_of_evaluate he h)

/-- Two variables exchange their names: a bound one in a conditional, and an unknown one. -/
theorem variable_names_do_not_matter_exchange :
    let f := Equiv.swap "Wide" "Half"
    let sheet (wide half : String) : Stylesheet :=
      { items := [.assignment {} wide (.literal {} (.bool true)),
        .rule {} [.selector {} .tag "p"]
          [.conditional {} (.reference {} wide)
            [.declaration {} "width" (.reference {} half)] none]] }
    let finding (severity : Severity) (half : String) : Finding :=
      { severity, problem := .unknownVariable half,
        path := [.item 1, .body 0, .body 0, .expression] }
    let evaluated : Stylesheet :=
      { items := [.rule {} [.selector {} .tag "p"]
          [.declaration {} "width" (.literal {} (.number .scalar 0))]] }
    (sheet "Wide" "Half").check = .ok [finding .error "Half"] ∧
      (sheet "Wide" "Half").evaluate = .ok ⟨evaluated, [finding .defect "Half"]⟩ ∧
      Function.Injective f ∧ (sheet "Wide" "Half").relabel { name := f } = sheet "Half" "Wide" ∧
      (sheet "Half" "Wide").check = .ok [finding .error "Wide"] ∧
      (sheet "Half" "Wide").evaluate = .ok ⟨evaluated, [finding .defect "Wide"]⟩ := by
  intro f sheet finding evaluated
  have hc : (sheet "Wide" "Half").check = .ok [finding .error "Half"] := rfl
  have he : (sheet "Wide" "Half").evaluate = .ok ⟨evaluated, [finding .defect "Half"]⟩ := rfl
  have hsheet : (sheet "Wide" "Half").relabel { name := f } = sheet "Half" "Wide" := by
    simp [relabel, Node.relabelAll, Node.relabel, Node.relabelElse, sheet, f]
  obtain ⟨-, hcheck, hevaluate, -⟩ :=
    variable_names_do_not_matter f.injective (sheet "Wide" "Half")
  rw [hsheet, hc] at hcheck
  rw [hsheet, he] at hevaluate
  refine ⟨hc, he, f.injective, hsheet, hcheck.trans ?_, hevaluate.trans ?_⟩
  · simp [Except.map, Relabeling.finding, Relabeling.problem, finding, f]
  · simp [Except.map, Relabeling.finding, Relabeling.problem, finding, f, evaluated, relabel,
      Node.relabelAll, Node.relabel]

/-- A variable that stands in the place of a selector is left with its name. -/
theorem name_in_selector_left :
    let f := Equiv.swap "Wide" "Half"
    let sheet (name : String) : Stylesheet := { items := [.rule {} [.reference {} name] []] }
    Function.Injective f ∧ (sheet "Wide").relabel { name := f } = sheet "Half" ∧
      (sheet "Wide").evaluate = .ok ⟨sheet "Wide", []⟩ ∧
      (sheet "Half").evaluate = .ok ⟨sheet "Half", []⟩ ∧
      (sheet "Half").toNode.same (sheet "Wide").toNode = false := by
  intro f sheet
  have hsheet : (sheet "Wide").relabel { name := f } = sheet "Half" := by
    simp [relabel, Node.relabelAll, Node.relabel, sheet, f]
  exact ⟨f.injective, hsheet, rfl, rfl, by decide⟩

end Stylesheet

end StyleLang
