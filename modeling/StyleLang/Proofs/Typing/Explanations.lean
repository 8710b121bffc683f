import StyleLang.Proofs.Pass.Announcing
import StyleLang.Proofs.Pass.Equations
import StyleLang.Proofs.Pass.Sites
import StyleLang.Proofs.Typing.Soundness

/-!
# What explains a defect

Also in a tree with errors the evaluator meets little that the checker has not found. Main
statements: every unknown variable that the evaluator meets, the checker has found before, in the
same order; and if every assignment has a type, then wrong operands and wrong conditions are found
where they are met, or the condition is an unknown variable and was found as one.
-/

namespace StyleLang

open Report

theorem Env.set_eq_none_iff {τ : Type} {env : Env τ} {name other : String} {value : τ} :
    env.set name value other = none ↔ other ≠ name ∧ env other = none := by
  unfold set
  by_cases h : other = name
  · simp [h]
  · simp [h]

/-! ## Unknown variables -/

/-- The findings about unknown variables. -/
def Finding.unknown (fs : List Finding) : List Finding :=
  fs.filter fun f => f.rule = "unknown_variable"

/-- The same finding, made by the checker. -/
def Finding.asError (f : Finding) : Finding := { f with severity := .error }

theorem Finding.unknown_append (fs fs' : List Finding) :
    unknown (fs ++ fs') = unknown fs ++ unknown fs' := List.filter_append fs fs'

theorem Finding.unknown_under (step : Step) (fs : List Finding) :
    unknown (fs.map (under step)) = (unknown fs).map (under step) := List.filter_map

/-- The unknown variables among the defects are among the findings, in the same order. -/
def Finding.TellUnknown (fs ds : List Finding) : Prop :=
  ((unknown ds).map asError).Sublist (unknown fs)

namespace Finding.TellUnknown

variable {fs ds fs' ds' : List Finding}

theorem of_quiet (hquiet : unknown ds = []) : TellUnknown fs ds := by
  unfold TellUnknown
  rw [hquiet]
  exact List.nil_sublist _

theorem append (h : TellUnknown fs ds) (h' : TellUnknown fs' ds') :
    TellUnknown (fs ++ fs') (ds ++ ds') := by
  unfold TellUnknown
  rw [unknown_append, unknown_append, List.map_append]
  exact List.Sublist.append h h'

theorem under (step : Step) (h : TellUnknown fs ds) :
    TellUnknown (fs.map (Finding.under step)) (ds.map (Finding.under step)) := by
  have hmap : ((unknown ds).map (Finding.under step)).map asError =
      ((unknown ds).map asError).map (Finding.under step) := by
    rw [List.map_map, List.map_map]
    rfl
  unfold TellUnknown
  rw [unknown_under, unknown_under, hmap]
  exact List.Sublist.map _ h

end Finding.TellUnknown

namespace Announcement

variable {types : Env ValueType} {values : Env Constant}

/-- What means something to the checker means something to the evaluator, and the checker finds
every unknown variable that the evaluator meets. -/
def unknowns : Announcement where
  admits _ := True
  agrees types values := ∀ name, values name = none → types name = none
  fits _ _ := True
  tells := Finding.TellUnknown

theorem composes_unknowns : unknowns.Composes where
  nothing _ := .of_quiet rfl
  append := .append
  under := .under

/-- Where no unknown variable is met, none need be found. -/
theorem unknowns_of_quiet {α α' : Type} {R : α → α' → Prop} {r : Report α} {r' : Report α'}
    {a' : α'} (h : r'.result = .ok a') (hR : ∀ a, R a a')
    (hquiet : Finding.unknown r'.findings = []) : r.Announces unknowns R r' :=
  fun a _ => ⟨a', h, hR a, .of_quiet hquiet⟩

theorem unknowns_operation (r : Report (Option ValueType)) (pos : Position) (op : Operator)
    (left right : Constant) :
    r.Announces unknowns unknowns.fits (Evaluate.operation pos op left right) := by
  unfold Evaluate.operation
  split
  · exact unknowns_of_quiet rfl (fun _ => trivial) rfl
  · exact unknowns_of_quiet rfl (fun _ => trivial) rfl

theorem unknowns_truth (r : Report Unit) (pos : Position) (c : Constant) :
    r.Announces unknowns (fun _ _ => True) (Evaluate.truth pos c) := by
  unfold Evaluate.truth
  split
  · exact unknowns_of_quiet rfl (fun _ => trivial) rfl
  · exact unknowns_of_quiet rfl (fun _ => trivial) rfl

theorem unknowns_expression (h : unknowns.agrees types values) : ∀ e : Node,
    (Check.infer types e).Announces unknowns unknowns.fits (Evaluate.fold values e)
  | .literal pos value => unknowns_of_quiet rfl (fun _ => trivial) rfl
  | .reference pos name => by
    rw [Evaluate.fold]
    cases hv : values name with
    | some c => exact unknowns_of_quiet rfl (fun _ => trivial) rfl
    | none =>
      rw [Check.infer, h name hv]
      exact fun a _ => ⟨.fallback, rfl, trivial, List.Sublist.refl _⟩
  | .operation pos op lhs rhs => by
    have hl := (unknowns_expression h lhs).under composes_unknowns .lhs
    have hr := (unknowns_expression h rhs).under composes_unknowns .rhs
    rw [Check.infer, Evaluate.fold_operation]
    exact hl.andThen composes_unknowns fun _ _ _ => hr.andThen composes_unknowns fun _ _ _ =>
      unknowns_operation _ pos op _ _
  | .selector _ _ _ | .declaration _ _ _ | .assignment _ _ _ | .conditional _ _ _ _ | .rule _ _ _
  | .sheet _ _ => announces_fault

theorem holds_unknowns : unknowns.Holds where
  toComposes := composes_unknowns
  empty _ _ := rfl
  expression e _ _ h := unknowns_expression h e
  condition pos c _ _ h :=
    ((unknowns_expression h c).under composes_unknowns .condition).andThen composes_unknowns
      fun _ _ _ => unknowns_truth _ pos _
  binds _ _ _ _ _ _ h other hnone := by
    obtain ⟨hne, hnone⟩ := Env.set_eq_none_iff.1 hnone
    exact Env.set_eq_none_iff.2 ⟨hne, h other hnone⟩
  skips _ _ _ _ _ h other hnone := h other (Env.set_eq_none_iff.1 hnone).2

end Announcement

/-! ## Wrong operands and conditions -/

/-- The finding has the node of the defect and breaks the same rule, or it says of a condition of
the wrong type that it is an unknown variable. -/
def Finding.Explains (f d : Finding) : Prop :=
  (f.path = d.path ∧ f.rule = d.rule) ∨
    (f.path = d.path ++ [.condition] ∧ f.rule = "unknown_variable" ∧ d.rule = "condition_type")

theorem Finding.Explains.under {f d : Finding} (h : f.Explains d) (step : Step) :
    (f.under step).Explains (d.under step) := by
  rcases h with ⟨hpath, hrule⟩ | ⟨hpath, hrules⟩
  · exact .inl ⟨congrArg (step :: ·) hpath, hrule⟩
  · exact .inr ⟨congrArg (step :: ·) hpath, hrules⟩

namespace Announcement

variable {types : Env ValueType} {values : Env Constant}

/-- While every assignment binds, both passes go on with the same types, and each defect has a
finding that explains it. -/
def explanations : Announcement where
  admits problem := problem.rule ≠ "unresolved_assignment"
  agrees types values := values.types = types
  fits type c := ∀ t, type = some t → c.value.type = t
  tells fs ds := ∀ d ∈ ds, ∃ f ∈ fs, f.Explains d

theorem composes_explanations : explanations.Composes where
  nothing _ _ hd := absurd hd List.not_mem_nil
  append h h' d hd := by
    rcases List.mem_append.1 hd with hd | hd
    · obtain ⟨f, hf, hexplains⟩ := h d hd
      exact ⟨f, List.mem_append_left _ hf, hexplains⟩
    · obtain ⟨f, hf, hexplains⟩ := h' d hd
      exact ⟨f, List.mem_append_right _ hf, hexplains⟩
  under step h d hd := by
    obtain ⟨d', hd', rfl⟩ := List.mem_map.1 hd
    obtain ⟨f, hf, hexplains⟩ := h d' hd'
    exact ⟨f.under step, List.mem_map_of_mem hf, hexplains.under step⟩

/-- A problem of the same node that breaks the same rule explains a defect. -/
theorem explanations_noteThen {α α' : Type} {R : α → α' → Prop} {a : α} {a' : α'}
    {severity severity' : Severity} {pos pos' : Position} {problem problem' : Problem}
    (hR : R a a') (hrule : problem.rule = problem'.rule) :
    ((note severity pos problem).andThen fun _ => .ok a).Announces explanations R
      ((note severity' pos' problem').andThen fun _ => .ok a') := by
  refine fun b hb => ⟨a', rfl, ?_, fun d hd => ?_⟩
  · obtain ⟨_, -, hb⟩ := yields_andThen.1 hb
    rwa [yields_ok.1 hb]
  · rw [List.mem_singleton.1 hd]
    exact ⟨_, List.mem_singleton_self _, .inl ⟨rfl, hrule⟩⟩

/-- An operand without a type explains whatever is wrong with the operands. -/
theorem explanations_untyped (pos : Position) (op : Operator) (l r : Constant) :
    ((note .error pos (.untypedOperand op)).andThen fun _ => .ok none).Announces explanations
      explanations.fits (Evaluate.operation pos op l r) := by
  unfold Evaluate.operation
  split
  · refine announces_ok composes_explanations fun type htype t ht => ?_
    obtain ⟨_, -, htype⟩ := yields_andThen.1 htype
    rw [yields_ok.1 htype] at ht
    cases ht
  · exact explanations_noteThen (fun t ht => by cases ht) rfl

theorem explanations_operation (pos : Position) (op : Operator) {left right : Option ValueType}
    {l r : Constant} (hl : explanations.fits left l) (hr : explanations.fits right r) :
    (Check.operationType pos op left right).Announces explanations explanations.fits
      (Evaluate.operation pos op l r) := by
  rcases left with _ | left
  · exact explanations_untyped pos op l r
  rcases right with _ | right
  · exact explanations_untyped pos op l r
  -- both passes see the same types, so they agree on whether the operands go together
  obtain rfl := hl left rfl
  obtain rfl := hr right rfl
  unfold Check.operationType Evaluate.operation Operator.combine
  dsimp only
  cases op.measure l.value.type r.value.type with
  | ok m => exact announces_pure composes_explanations fun t ht => Option.some.inj ht
  | error reason => exact explanations_noteThen (fun t ht => by cases ht) rfl

theorem explanations_expression (h : explanations.agrees types values) : ∀ e : Node,
    (Check.infer types e).Announces explanations explanations.fits (Evaluate.fold values e)
  | .literal pos value => announces_pure composes_explanations fun t ht => Option.some.inj ht
  | .reference pos name => by
    have htype : (values name).map (fun c => c.value.type) = types name := congrFun h name
    rw [Check.infer, Evaluate.fold, ← htype]
    cases values name with
    | some c => exact announces_pure composes_explanations fun t ht => Option.some.inj ht
    | none => exact explanations_noteThen (fun t ht => by cases ht) rfl
  | .operation pos op lhs rhs => by
    have hl := (explanations_expression h lhs).under composes_explanations .lhs
    have hr := (explanations_expression h rhs).under composes_explanations .rhs
    rw [Check.infer, Evaluate.fold_operation]
    exact hl.andThen composes_explanations fun _ _ hl => hr.andThen composes_explanations
      fun _ _ hr => explanations_operation pos op hl hr
  | .selector _ _ _ | .declaration _ _ _ | .assignment _ _ _ | .conditional _ _ _ _ | .rule _ _ _
  | .sheet _ _ => announces_fault

/-- A condition that is not true or false is met by the one pass as by the other. -/
theorem explanations_truth {c : Node} {type : Option ValueType} {value : Constant}
    (hfits : explanations.fits type value) (hnew : Check.alreadyReported c type = false)
    (pos : Position) :
    (if type = some .bool || Check.alreadyReported c type then pure ()
      else note .error pos (.conditionType type)).Announces explanations (fun _ _ => True)
      (Evaluate.truth pos value) := by
  by_cases hbool : ∃ b, value.value = .bool b
  · obtain ⟨b, hb⟩ := hbool
    rw [Evaluate.truth, hb]
    exact announces_ok composes_explanations fun _ _ => trivial
  · have hne : type ≠ some .bool := fun htype =>
      hbool (Value.type_eq_bool_iff.1 (hfits .bool htype))
    have htruth : Evaluate.truth pos value =
        (note .defect pos (.conditionType (some value.value.type))).andThen fun _ => .ok false := by
      unfold Evaluate.truth
      split
      · next b hb => exact absurd ⟨b, hb⟩ hbool
      · rfl
    rw [hnew, Bool.or_false, decide_eq_false hne, if_neg Bool.false_ne_true, htruth,
      ← andThen_ok (note .error pos (.conditionType type))]
    exact explanations_noteThen trivial rfl

theorem explanations_condition (h : explanations.agrees types values) (pos : Position) (c : Node) :
    (Check.condition types pos c).Announces explanations (fun _ _ => True)
      (Evaluate.choose values pos c) := by
  have hc := (explanations_expression h c).under composes_explanations .condition
  unfold Check.condition
  rw [Evaluate.choose_eq]
  cases c with
  | reference pos' name =>
    have htype : (values name).map (fun c => c.value.type) = types name := congrFun h name
    rw [Check.infer, Evaluate.fold, ← htype]
    cases values name with
    | some value => exact explanations_truth (fun t ht => Option.some.inj ht) rfl pos
    | none =>
      -- the checker says only once that the variable is unknown, the evaluator also that its
      -- fallback is no truth value
      let unknown : Finding :=
        { severity := .error, problem := .unknownVariable name, pos := pos', path := [.condition] }
      refine fun _ _ => ⟨false, rfl, trivial, fun d hd => ⟨unknown, List.mem_singleton_self _, ?_⟩⟩
      rcases List.mem_cons.1 hd with rfl | hd
      · exact .inl ⟨rfl, rfl⟩
      · rw [List.mem_singleton.1 hd]
        exact .inr ⟨rfl, rfl, rfl⟩
  | _ =>
    exact hc.andThen composes_explanations fun type value hfits =>
      explanations_truth hfits rfl pos

theorem holds_explanations : explanations.Holds where
  toComposes := composes_explanations
  empty := rfl
  expression e _ _ h := explanations_expression h e
  condition pos c _ _ h := explanations_condition h pos c
  binds name t c hfits types values h := by
    show (values.set name c).types = types.set name t
    rw [Env.types_set, hfits t rfl, show values.types = types from h]
  skips _ hadmits := absurd rfl hadmits

end Announcement

/-! ## Whole trees -/

namespace Stylesheet

variable {sheet : Stylesheet} {findings : List Finding}

/-- **Unknown variables are announced.** Where the checker returns, the evaluator returns, and every
unknown variable that it meets the checker has found, in the same order. -/
theorem unknown_variables_announced (h : sheet.check = .ok findings) :
    ∃ e, sheet.evaluate = .ok e ∧
      ((Finding.unknown e.defects).map Finding.asError).Sublist (Finding.unknown findings) :=
  tells_of_check Announcement.holds_unknowns h fun _ _ => trivial

/-- A variable whose value is unknown: the checker finds it unknown too, the evaluator does not. Of
the other unknown variables the evaluator meets those that it comes to. -/
theorem unknown_variables_announced_twice :
    let sheet : Stylesheet :=
      { items := [.assignment {} "Wide" (.reference {} "Gone"),
          .rule {} [.selector {} .tag "p"]
            [.declaration {} "width" (.reference {} "Wide"),
              .conditional {} (.reference {} "Half")
                [.declaration {} "width" (.reference {} "Far")] none]] }
    let unknown (name : String) (path : Path) : Finding :=
      { severity := .error, problem := .unknownVariable name, path := path }
    let gone := unknown "Gone" [.item 0, .expression]
    let half := unknown "Half" [.item 1, .body 1, .condition]
    let findings : List Finding :=
      [gone, { severity := .error, problem := .untypedAssignment "Wide", path := [.item 0] },
        unknown "Wide" [.item 1, .body 0, .expression], half,
        unknown "Far" [.item 1, .body 1, .body 0, .expression]]
    sheet.check = .ok findings ∧ ∃ e, sheet.evaluate = .ok e ∧
      (Finding.unknown e.defects).map Finding.asError = [gone, half] ∧
      [gone, half].Sublist (Finding.unknown findings) := by
  intro sheet unknown gone half findings
  have h : sheet.check = .ok findings := rfl
  obtain ⟨e, he, hannounced⟩ := unknown_variables_announced h
  have hmet : (Finding.unknown e.defects).map Finding.asError = [gone, half] := by
    obtain rfl := Except.ok.inj he
    rfl
  rw [hmet] at hannounced
  exact ⟨h, e, he, hmet, hannounced⟩

/-- **Defects are explained.** If the checker returns and every assignment has a type, the evaluator
returns. Where it meets wrong operands, there is an operation, and the checker has found its
operands to be wrong. Where it meets a condition that is no truth value, there is a conditional, and
the checker has found that too, or it has found the condition to be an unknown variable. -/
theorem defects_explained (h : sheet.check = .ok findings)
    (hassigned : ∀ f ∈ findings, f.rule ≠ "unresolved_assignment") :
    ∃ e, sheet.evaluate = .ok e ∧
      (∀ d ∈ e.defects, d.rule = "operand_types" →
        (∃ pos op lhs rhs, sheet.toNode.at? d.path = some (.operation pos op lhs rhs)) ∧
        ∃ f ∈ findings, f.path = d.path ∧ f.rule = "operand_types") ∧
      ∀ d ∈ e.defects, d.rule = "condition_type" →
        ∃ pos c body elseBody,
          sheet.toNode.at? d.path = some (.conditional pos c body elseBody) ∧
          ((∃ f ∈ findings, f.path = d.path ∧ f.rule = "condition_type") ∨
            (∃ pos name, c = .reference pos name) ∧
            ∃ f ∈ findings, f.path = d.path ++ [.condition] ∧ f.rule = "unknown_variable") := by
  obtain ⟨e, he, htells⟩ := tells_of_check Announcement.holds_explanations h hassigned
  refine ⟨e, he, fun d hd hrule => ?_, fun d hd hrule => ?_⟩
  · obtain ⟨m, hat, -, hhave⟩ := sited_of_evaluate he d hd
    obtain ⟨pos, op, lhs, rhs, rfl⟩ := hhave.operation hrule
    refine ⟨⟨pos, op, lhs, rhs, hat⟩, ?_⟩
    obtain ⟨f, hf, ⟨hpath, hsame⟩ | ⟨-, -, hother⟩⟩ := htells d hd
    · exact ⟨f, hf, hpath, hsame.trans hrule⟩
    · exact absurd (hrule.symm.trans hother) (by decide)
  · obtain ⟨m, hat, -, hhave⟩ := sited_of_evaluate he d hd
    obtain ⟨pos, c, body, elseBody, rfl⟩ := hhave.conditional hrule
    refine ⟨pos, c, body, elseBody, hat, ?_⟩
    obtain ⟨f, hf, ⟨hpath, hsame⟩ | ⟨hpath, hunknown, -⟩⟩ := htells d hd
    · exact .inl ⟨f, hf, hpath, hsame.trans hrule⟩
    · refine .inr ⟨?_, f, hf, hpath, hunknown⟩
      obtain ⟨m, hat', -, hhave'⟩ := sited_of_check h f hf
      obtain ⟨pos', name, rfl⟩ := hhave'.reference hunknown
      rw [hpath, Node.at?_append, hat] at hat'
      have hc : c = .reference pos' name := by
        cases elseBody <;> exact Option.some.inj hat'
      exact ⟨pos', name, hc⟩

/-- An unknown variable stands in a sum and is a condition. The sum has wrong operands for both
passes; the condition is of the wrong type for the evaluator only. -/
theorem defects_explained_sum :
    let sheet : Stylesheet :=
      { items := [.rule {} [.selector {} .tag "p"]
          [.declaration {} "width"
              (.operation {} .add (.reference {} "Nope") (.literal {} (.number .pixel 1))),
            .conditional {} (.reference {} "Nope") [] none]] }
    let finding (severity : Severity) (problem : Problem) (path : Path) : Finding :=
      { severity, problem, path := .item 0 :: path }
    let findings : List Finding :=
      [finding .error (.unknownVariable "Nope") [.body 0, .expression, .lhs],
        finding .error (.untypedOperand .add) [.body 0, .expression],
        finding .error (.propertyType "width" none) [.body 0],
        finding .error (.unknownVariable "Nope") [.body 1, .condition]]
    let operands := finding .defect (.operands (.mixedTerms (.number .scalar) "+" (.number .pixel)))
      [.body 0, .expression]
    let condition := finding .defect (.conditionType (some (.number .scalar))) [.body 1]
    sheet.check = .ok findings ∧ (∀ f ∈ findings, f.rule ≠ "unresolved_assignment") ∧
      ∃ e, sheet.evaluate = .ok e ∧ operands ∈ e.defects ∧ condition ∈ e.defects ∧
        (∃ f ∈ findings, f.path = operands.path ∧ f.rule = "operand_types") ∧
        ∃ pos c body elseBody, sheet.toNode.at? condition.path =
            some (.conditional pos c body elseBody) ∧
          ((∃ f ∈ findings, f.path = condition.path ∧ f.rule = "condition_type") ∨
            (∃ pos name, c = .reference pos name) ∧
            ∃ f ∈ findings, f.path = condition.path ++ [.condition] ∧
              f.rule = "unknown_variable") := by
  intro sheet finding findings operands condition
  have h : sheet.check = .ok findings := rfl
  have hassigned : ∀ f ∈ findings, f.rule ≠ "unresolved_assignment" := by decide
  obtain ⟨e, he, hoperands, hconditions⟩ := defects_explained h hassigned
  have hmet : operands ∈ e.defects ∧ condition ∈ e.defects := by
    obtain rfl := Except.ok.inj he
    exact ⟨List.mem_of_getElem? (i := 1) rfl, List.mem_of_getElem? (i := 3) rfl⟩
  exact ⟨h, hassigned, e, he, hmet.1, hmet.2, (hoperands operands hmet.1 rfl).2,
    hconditions condition hmet.2 rfl⟩

end Stylesheet

end StyleLang
