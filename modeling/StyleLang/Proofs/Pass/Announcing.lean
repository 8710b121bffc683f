import StyleLang.Proofs.Pass.Lexical
import StyleLang.Proofs.Pass.Yields

/-!
# What the checker announces

After a problem the two passes go on with different things: the checker without a type, the
evaluator with a fallback. An `Announcement` is what stays between them all the same, so that what
the checker finds tells of what the evaluator will meet. Main statement: an announcement that holds
of expressions and conditions, and that assignments keep, holds of all statements, blocks and trees,
though the checker enters both branches of a conditional and the evaluator one.
-/

namespace StyleLang

/-- A way in which the findings of the checker tell of the defects of the evaluator. -/
structure Announcement where
  /-- What the checker may find. -/
  admits : Problem → Prop
  /-- What the names stand for in either pass, at the same statement. -/
  agrees : Env ValueType → Env Constant → Prop
  /-- The type that an expression has for the checker, and the literal that it folds to. -/
  fits : Option ValueType → Constant → Prop
  /-- The findings tell of the defects. -/
  tells : List Finding → List Finding → Prop

/-- What is told of two parts is told of the whole, and what is not met need not be told. -/
structure Announcement.Composes (A : Announcement) : Prop where
  nothing (findings : List Finding) : A.tells findings []
  append {fs ds fs' ds' : List Finding} (h : A.tells fs ds) (h' : A.tells fs' ds') :
    A.tells (fs ++ fs') (ds ++ ds')
  under {fs ds : List Finding} (step : Step) (h : A.tells fs ds) :
    A.tells (fs.map (Finding.under step)) (ds.map (Finding.under step))

variable {α α' β β' : Type} {A : Announcement} {R : α → α' → Prop} {S : β → β' → Prop}

namespace Report

/-- If the first report yields a result then the second one has a related result, and the findings
of the first one tell of those of the second one. -/
def Announces (A : Announcement) (R : α → α' → Prop) (r : Report α) (r' : Report α') : Prop :=
  ∀ a, r.Yields A.admits a → ∃ a', r'.result = .ok a' ∧ R a a' ∧ A.tells r.findings r'.findings

theorem announces_fault {reason : Fault} {r' : Report α'} :
    (fault reason : Report α).Announces A R r' := fun _ h => absurd h not_yields_fault

/-- What meets nothing is announced by anything. -/
theorem announces_ok (hA : A.Composes) {r : Report α} {a' : α'}
    (h : ∀ a, r.Yields A.admits a → R a a') : r.Announces A R (ok a') :=
  fun a ha => ⟨a', rfl, h a ha, hA.nothing _⟩

theorem announces_pure (hA : A.Composes) {a : α} {a' : α'} (h : R a a') :
    (ok a).Announces A R (ok a') := announces_ok hA fun b hb => by rwa [yields_ok.1 hb]

theorem Announces.andThen (hA : A.Composes) {r : Report α} {r' : Report α'} {next : α → Report β}
    {next' : α' → Report β'} (h : r.Announces A R r')
    (hn : ∀ a a', R a a' → (next a).Announces A S (next' a')) :
    (r.andThen next).Announces A S (r'.andThen next') := by
  intro b hb
  obtain ⟨a, ha, hb⟩ := yields_andThen.1 hb
  obtain ⟨a', ha', hR, htells⟩ := h a ha
  obtain ⟨b', hb', hS, htells'⟩ := hn a a' hR b hb
  refine ⟨b', (result_andThen ha' next').trans hb', hS, ?_⟩
  rw [findings_andThen ha.1, findings_andThen ha']
  exact hA.append htells htells'

theorem Announces.under (hA : A.Composes) {r : Report α} {r' : Report α'} (h : r.Announces A R r')
    (step : Step) : (r.under step).Announces A R (r'.under step) := by
  intro a ha
  obtain ⟨a', ha', hR, htells⟩ := h a (yields_under.1 ha)
  exact ⟨a', ha', hR, hA.under step htells⟩

/-- More may be found afterwards. -/
theorem Announces.before (hA : A.Composes) {r : Report α} {r' : Report α'} {next : α → Report β}
    {S : β → α' → Prop} (h : r.Announces A R r')
    (hn : ∀ a a' b, R a a' → (next a).Yields A.admits b → S b a') :
    (r.andThen next).Announces A S r' := by
  intro b hb
  obtain ⟨a, ha, hb⟩ := yields_andThen.1 hb
  obtain ⟨a', ha', hR, htells⟩ := h a ha
  refine ⟨a', ha', hn a a' b hR hb, ?_⟩
  rw [findings_andThen ha.1, ← List.append_nil r'.findings]
  exact hA.append htells (hA.nothing _)

/-- More may have been found before. -/
theorem Announces.after (hA : A.Composes) {r : Report α} {next : α → Report β} {r' : Report β'}
    (h : ∀ a, r.Yields A.admits a → (next a).Announces A S r') :
    (r.andThen next).Announces A S r' := by
  intro b hb
  obtain ⟨a, ha, hb⟩ := yields_andThen.1 hb
  obtain ⟨b', hb', hS, htells⟩ := h a ha b hb
  refine ⟨b', hb', hS, ?_⟩
  rw [findings_andThen ha.1, ← List.nil_append r'.findings]
  exact hA.append (hA.nothing _) htells

end Report

namespace Passing

/-- What comes after the passing means what it meant before. -/
def Keeps {τ : Type} (p : Passing τ α) : Prop :=
  ∀ env r, (p env).result = .ok r → r.2 = env

section Keeps

variable {τ : Type}

theorem keeps_ok (a : α) : (ok a : Passing τ α).Keeps := fun env r h => by
  rw [← Except.ok.inj h]

theorem keeps_child {p : Passing τ α} : p.child.Keeps := fun env r h => by
  obtain ⟨_, -, h⟩ := Report.exists_of_andThen h
  rw [← Except.ok.inj h]

theorem Keeps.andThen {p : Passing τ α} {next : α → Passing τ β} (hp : p.Keeps)
    (hn : ∀ a, (next a).Keeps) : (p.andThen next).Keeps := fun env r h => by
  obtain ⟨mid, hmid, h⟩ := Report.exists_of_andThen h
  rw [hn mid.1 mid.2 r h, hp env mid hmid]

end Keeps

/-- From environments that agree on, the first passing announces the second one, and the
environments at the ends agree again. -/
def Announces (A : Announcement) (R : α → α' → Prop) (p : Passing ValueType α)
    (p' : Passing Constant α') : Prop :=
  ∀ types values, A.agrees types values →
    (p types).Announces A (fun r r' => R r.1 r'.1 ∧ A.agrees r.2 r'.2) (p' values)

theorem announces_fault {reason : Fault} {p' : Passing Constant α'} :
    (fault reason : Passing ValueType α).Announces A R p' := fun _ _ _ => Report.announces_fault

theorem announces_ok (hA : A.Composes) {a : α} {a' : α'} (h : R a a') :
    (ok a).Announces A R (ok a') := fun _ _ hagrees => Report.announces_pure hA ⟨h, hagrees⟩

theorem announces_reading (hA : A.Composes) {report : Env ValueType → Report α}
    {report' : Env Constant → Report α'}
    (h : ∀ types values, A.agrees types values → (report types).Announces A R (report' values)) :
    (reading report).Announces A R (reading report') := fun types values hagrees =>
  (h types values hagrees).andThen hA fun _ _ hR => announces_ok hA hR types values hagrees

variable {p : Passing ValueType α} {p' : Passing Constant α'}

theorem Announces.andThen (hA : A.Composes) {next : α → Passing ValueType β}
    {next' : α' → Passing Constant β'} (h : p.Announces A R p')
    (hn : ∀ a a', R a a' → (next a).Announces A S (next' a')) :
    (p.andThen next).Announces A S (p'.andThen next') := fun types values hagrees =>
  (h types values hagrees).andThen hA fun r r' hr => hn r.1 r'.1 hr.1 r.2 r'.2 hr.2

theorem Announces.under (hA : A.Composes) (h : p.Announces A R p') (step : Step) :
    (p.under step).Announces A R (p'.under step) := fun types values hagrees =>
  (h types values hagrees).under hA step

theorem Announces.child (hA : A.Composes) (h : p.Announces A R p') :
    p.child.Announces A R p'.child := fun types values hagrees =>
  (h types values hagrees).andThen hA fun _ _ hr => announces_ok hA hr.1 types values hagrees

/-- What the evaluator makes of its results is not announced. -/
theorem Announces.map {S : α → β' → Prop} {f : α' → β'} (h : p.Announces A R p')
    (hS : ∀ a a', S a (f a')) : p.Announces A S (p'.andThen fun a' => ok (f a')) := by
  intro types values hagrees r hr
  obtain ⟨r', hr', hR, htells⟩ := h types values hagrees r hr
  refine ⟨(f r'.1, r'.2), Report.result_andThen hr' _, ⟨hS r.1 r'.1, hR.2⟩, ?_⟩
  have hsame : ((p'.andThen fun a' => ok (f a')) values).findings = (p' values).findings :=
    (Report.findings_andThen hr' _).trans (List.append_nil _)
  rw [hsame]
  exact htells

/-- More may be found afterwards, where nothing is bound. -/
theorem Announces.before (hA : A.Composes) {S : β → α' → Prop} {q : Passing ValueType β}
    (h : p.Announces A R p') (hq : q.Keeps) (hS : ∀ b a', S b a') :
    (p.andThen fun _ => q).Announces A S p' := fun types values hagrees =>
  (h types values hagrees).before hA fun r r' s hr hs => by
    rw [hq _ _ hs.1]
    exact ⟨hS s.1 r'.1, hr.2⟩

/-- More may have been found before, where nothing was bound. -/
theorem Announces.after (hA : A.Composes) {next : α → Passing ValueType β}
    {q' : Passing Constant β'} (hp : p.Keeps) (h : ∀ a, (next a).Announces A S q') :
    (p.andThen next).Announces A S q' := fun types values hagrees =>
  Report.Announces.after hA fun r hr => by
    have hagrees' : A.agrees r.2 values := by rwa [hp _ _ hr.1]
    exact h r.1 r.2 values hagrees'

/-- What meets nothing is announced by anything that binds nothing. -/
theorem Keeps.announces_ok (hA : A.Composes) {a' : α'} (hp : p.Keeps) (hR : ∀ a, R a a') :
    p.Announces A R (ok a') := fun types values hagrees =>
  Report.announces_ok hA fun r hr => by
    rw [hp _ _ hr.1]
    exact ⟨hR r.1, hagrees⟩

end Passing

/-! ## Statements -/

open Passing

/-- What is told of expressions and conditions, and what an assignment binds in either pass. -/
structure Announcement.Holds (A : Announcement) : Prop extends A.Composes where
  empty : A.agrees .empty .empty
  expression (e : Node) {types : Env ValueType} {values : Env Constant}
    (h : A.agrees types values) :
    (Check.infer types e).Announces A A.fits (Evaluate.fold values e)
  condition (pos : Position) (c : Node) {types : Env ValueType} {values : Env Constant}
    (h : A.agrees types values) :
    (Check.condition types pos c).Announces A (fun _ _ => True) (Evaluate.choose values pos c)
  binds (name : String) {t : ValueType} {c : Constant} (hfits : A.fits (some t) c)
    {types : Env ValueType} {values : Env Constant} (h : A.agrees types values) :
    A.agrees (types.set name t) (values.set name c)
  /-- Where the checker binds nothing, the evaluator binds a literal all the same. -/
  skips (name : String) (hadmits : A.admits (.untypedAssignment name)) (c : Constant)
    {types : Env ValueType} {values : Env Constant} (h : A.agrees types values) :
    A.agrees types (values.set name c)

namespace Announcement.Holds

theorem declaration (hA : A.Holds) (pos : Position) (property : String) (e : Node) :
    (Check.Lexical.statement (.declaration pos property e)).Announces A (fun _ _ => True)
      (Evaluate.Lexical.statement (.declaration pos property e)) := by
  have he : (Passing.reading fun types => Check.declaration types pos property e).Announces A
      (fun _ _ => True) (.reading fun values => (Evaluate.fold values e).under .expression) :=
    announces_reading hA.toComposes fun types values hagrees =>
      ((hA.expression e hagrees).under hA.toComposes .expression).before hA.toComposes
        fun _ _ _ _ _ => trivial
  rw [Check.Lexical.statement, Evaluate.Lexical.statement]
  exact he.map fun _ _ => trivial

/-- The checker binds the type of the expression, or reports that it has none; the evaluator binds a
literal. -/
theorem bound (hA : A.Holds) (pos : Position) (name : String) {type : Option ValueType}
    {c : Constant} (hfits : A.fits type c) :
    Announces A (fun _ _ => True) (match type with
      | some t => Passing.assign name t
      | none => Passing.note .error pos (.untypedAssignment name)) (Passing.assign name c) := by
  intro types values hagrees r hr
  refine ⟨((), values.set name c), rfl, ⟨trivial, ?_⟩, hA.nothing _⟩
  cases type with
  | some t =>
    rw [yields_assign.1 hr]
    exact hA.binds name hfits hagrees
  | none =>
    obtain ⟨hadmits, hsame⟩ := yields_note.1 hr
    rw [hsame]
    exact hA.skips name hadmits c hagrees

theorem assignment (hA : A.Holds) (pos : Position) (name : String) (e : Node) :
    (Check.Lexical.statement (.assignment pos name e)).Announces A (fun _ _ => True)
      (Evaluate.Lexical.statement (.assignment pos name e)) := by
  have he : (Passing.reading fun types => (Check.infer types e).under .expression).Announces A
      A.fits (.reading fun values => (Evaluate.fold values e).under .expression) :=
    announces_reading hA.toComposes fun types values hagrees =>
      (hA.expression e hagrees).under hA.toComposes .expression
  rw [Check.Lexical.statement, Evaluate.Lexical.statement]
  exact Announces.andThen hA.toComposes he fun _ _ hfits =>
    (hA.bound pos name hfits).map fun _ _ => trivial

end Announcement.Holds

mutual

/-- What holds of expressions and conditions, holds of statements. -/
theorem announces_statement (hA : A.Holds) : ∀ n : Node,
    (Check.Lexical.statement n).Announces A (fun _ _ => True) (Evaluate.Lexical.statement n)
  | .rule _ _ body => by
    have hbody := (announces_block hA .body 0 body).child hA.toComposes
    rw [Check.Lexical.statement, Evaluate.Lexical.statement]
    exact hbody.map fun _ _ => trivial
  | .assignment pos name e => hA.assignment pos name e
  | .declaration pos property e => hA.declaration pos property e
  | .conditional pos c body none => by
    have hc := announces_reading hA.toComposes fun _ _ => hA.condition pos c
    have hbody := (announces_block hA .body 0 body).child hA.toComposes
    rw [Check.Lexical.statement, Evaluate.Lexical.statement]
    refine hc.andThen hA.toComposes fun _ b _ => ?_
    cases b with
    | true => exact hbody.before hA.toComposes (keeps_ok ()) fun _ _ => trivial
    | false =>
      refine Keeps.announces_ok hA.toComposes ?_ fun _ => trivial
      exact keeps_child.andThen fun _ => keeps_ok ()
  | .conditional pos c body (some elseBody) => by
    have hc := announces_reading hA.toComposes fun _ _ => hA.condition pos c
    have hbody := (announces_block hA .body 0 body).child hA.toComposes
    have helse := (announces_block hA .elseBody 0 elseBody).child hA.toComposes
    rw [Check.Lexical.statement, Evaluate.Lexical.statement]
    refine hc.andThen hA.toComposes fun _ b _ => ?_
    -- the checker enters both branches, and what it finds in the other one tells of nothing
    cases b with
    | true => exact hbody.before hA.toComposes keeps_child fun _ _ => trivial
    | false => exact Announces.after hA.toComposes keeps_child fun _ => helse
  | .selector _ _ _ | .literal _ _ | .reference _ _ | .operation _ _ _ _ | .sheet _ _ =>
    announces_fault

theorem announces_block (hA : A.Holds) (edge : Nat → Step) (index : Nat) : ∀ nodes : List Node,
    (Check.Lexical.block edge index nodes).Announces A (fun _ _ => True)
      (Evaluate.Lexical.block edge index nodes)
  | [] => by
    rw [Check.Lexical.block, Evaluate.Lexical.block]
    exact announces_ok hA.toComposes trivial
  | n :: ns => by
    have hn := (announces_statement hA n).under hA.toComposes (edge index)
    have hns := announces_block hA edge (index + 1) ns
    rw [Check.Lexical.block, Evaluate.Lexical.block]
    exact hn.andThen hA.toComposes fun _ _ _ => hns.map fun _ _ => trivial

end

/-- If the checker finds nothing but what is admitted, the evaluator returns, and the findings tell
of its defects. -/
theorem Stylesheet.tells_of_check (hA : A.Holds) {sheet : Stylesheet} {findings : List Finding}
    (h : sheet.check = .ok findings) (hadmits : ∀ f ∈ findings, A.admits f.problem) :
    ∃ e, sheet.evaluate = .ok e ∧ A.tells findings e.defects := by
  obtain ⟨types, hr, rfl⟩ := checkReport_of_check h
  obtain ⟨⟨items, values⟩, hr', -, htells⟩ :=
    announces_block hA .item 0 sheet.items .empty .empty hA.empty _ ⟨hr, hadmits⟩
  refine ⟨⟨{ sheet with items }, sheet.evaluateReport.findings⟩, ?_, htells⟩
  refine evaluate_ok_iff.2 ⟨items, values, ?_, rfl⟩
  exact congrArg (Report.mk _) hr'

end StyleLang
