import StyleLang.Proofs.Pass.Faults
import StyleLang.Proofs.Pass.Headings
import StyleLang.Proofs.Pass.Remnants
import StyleLang.Proofs.Typing.Soundness

/-!
# Blocks do not leak

What happens in the blocks of a rule or a conditional is seen nowhere else. Main statements: without
a rule or a conditional, both passes say of every other node what they said before, and of the
evaluated tree exactly what was left of the statement is missing; and two rules at the top level may
be exchanged.
-/

namespace StyleLang

namespace Node

/-- A rule or a conditional. -/
def HasBlocks : Node → Prop
  | conditional _ _ _ _ => True
  | rule _ _ _ => True
  | _ => False

theorem not_hasBlocks_of_placedExpression {n : Node} (h : n.PlacedExpression) : ¬ n.HasBlocks := by
  cases n <;> first | exact h.elim | exact id

/-- The edges that may lead on to a rule or a conditional. -/
inductive Opens (path : Path) (m : Node) : Node → Step → Prop where
  | selector {pos : Position} {selectors body : List Node} {i : Nat} :
      Opens path m (rule pos selectors body) (.selector i)
  | body {pos : Position} {selectors body : List Node} {i : Nat} (h : PlacedBlock body)
      (hat : (body[i]?.bind fun n => n.at? path) = some m) :
      Opens path m (rule pos selectors body) (.body i)
  | branch {pos : Position} {c : Node} {body : List Node} {elseBody : Option (List Node)} {i : Nat}
      (h : PlacedBlock body) (hat : (body[i]?.bind fun n => n.at? path) = some m) :
      Opens path m (conditional pos c body elseBody) (.body i)
  | elseBranch {pos : Position} {c : Node} {body elseBody : List Node} {i : Nat}
      (h : PlacedBlock elseBody) (hat : (elseBody[i]?.bind fun n => n.at? path) = some m) :
      Opens path m (conditional pos c body (some elseBody)) (.elseBody i)

theorem PlacedStatement.opens {n m : Node} (h : n.PlacedStatement) {s : Step} {path : Path}
    (hat : n.at? (s :: path) = some m) (hm : m.HasBlocks) : Opens path m n s := by
  have hnone : ∀ e : Node, e.PlacedExpression → e.at? path ≠ some m := fun e he hat =>
    not_hasBlocks_of_placedExpression (he.at? hat) hm
  cases n with
  | declaration pos property e =>
    cases s with
    | expression => exact absurd hat (hnone e h)
    | _ => cases hat
  | assignment pos name e =>
    cases s with
    | expression => exact absurd hat (hnone e h)
    | _ => cases hat
  | rule pos selectors body =>
    cases s with
    | selector i => exact .selector
    | body i => exact .body h hat
    | _ => cases hat
  | conditional pos c body elseBody =>
    obtain ⟨hc, hbody, helse⟩ := h
    cases s with
    | condition => exact absurd hat (hnone c hc)
    | body i => exact .branch hbody hat
    | elseBody i =>
      cases elseBody with
      | none => cases hat
      | some elseBody => exact .elseBranch helse hat
    | _ => cases hat
  | _ => exact h.elim

end Node

variable {τ α β : Type}

/-! ## Reports on an expression at the end of an edge -/

namespace Report

/-- The findings are about the node itself or about what stands at the end of the edge. -/
def Near (step : Step) (r : Report α) : Prop :=
  ∀ f ∈ r.findings, f.path = [] ∨ ∃ rest, f.path = step :: rest

variable {step : Step}

theorem near_ok (a : α) : (ok a).Near step := fun _ hf => absurd hf List.not_mem_nil

theorem near_note (severity : Severity) (pos : Position) (problem : Problem) :
    (note severity pos problem).Near step := by
  intro f hf
  rw [List.mem_singleton.1 hf]
  exact .inl rfl

theorem near_under (r : Report α) : (r.under step).Near step := by
  intro f hf
  obtain ⟨g, -, rfl⟩ := List.mem_map.1 hf
  exact .inr ⟨g.path, rfl⟩

theorem Near.andThen {r : Report α} {next : α → Report β} (h : r.Near step)
    (hn : ∀ a, (next a).Near step) : (r.andThen next).Near step := by
  obtain ⟨findings, _ | a⟩ := r
  · exact h
  · exact fun f hf => (List.mem_append.1 hf).elim (h f) (hn a f)

end Report

open Report in
theorem Check.near_condition (types : Env ValueType) (pos : Position) (e : Node) :
    (condition types pos e).Near .condition := by
  unfold condition
  refine (near_under _).andThen fun type => ?_
  split
  · exact near_ok _
  · exact near_note _ _ _

open Report in
theorem Evaluate.near_choose (values : Env Constant) (pos : Position) (e : Node) :
    (choose values pos e).Near .condition := by
  unfold choose
  refine (near_under _).andThen fun c => ?_
  split
  · exact near_ok _
  · exact (near_note _ _ _).andThen fun _ => near_ok _

/-! ## Passings that bind nothing -/

namespace Passing

/-- A report on an expression is not changed by a deletion elsewhere. -/
theorem without_near {target : Path} {step : Step} {report : Env τ → Report α}
    (hturn : target.turn step = .beside step) (h : ∀ env, (report env).Near step) :
    (reading report).without target id = reading report := by
  refine without_reading fun env f hf => ?_
  rcases h env f hf with hpath | ⟨rest, hpath⟩
  · rw [hpath]
    rfl
  · rw [hpath, Path.without_cons_beside hturn]

theorem bindsNothing_ok (a : α) : (ok a : Passing τ α).BindsNothing := fun _ => ⟨[], a, rfl⟩

theorem bindsNothing_reading {report : Env τ → Report α}
    (h : ∀ env, ∃ a, (report env).result = .ok a) : (reading report).BindsNothing := by
  intro env
  obtain ⟨a, ha⟩ := h env
  refine ⟨(report env).findings, a, ?_⟩
  dsimp only [reading, Report.andThen]
  rw [ha]
  simp [Report.ok]

theorem bindsNothing_child {p : Passing τ α} (h : ∀ env, ∃ r, (p env).result = .ok r) :
    p.child.BindsNothing := by
  intro env
  obtain ⟨r, hr⟩ := h env
  refine ⟨(p env).findings, r.1, ?_⟩
  dsimp only [child, Report.andThen]
  rw [hr]
  simp [Report.ok]

theorem BindsNothing.andThen {p : Passing τ α} {next : α → Passing τ β} (hp : p.BindsNothing)
    (hn : ∀ a, (next a).BindsNothing) : (p.andThen next).BindsNothing := by
  intro env
  obtain ⟨findings, a, ha⟩ := hp env
  obtain ⟨findings', b, hb⟩ := hn a env
  refine ⟨findings ++ findings', b, ?_⟩
  dsimp only [Passing.andThen, Report.andThen]
  rw [ha]
  dsimp only
  rw [hb]

/-- A passing returns if it does so with a function of its result. -/
theorem result_of_andThen_ok {p : Passing τ α} {f : α → β} {env : Env τ} {r : β × Env τ}
    (h : ((p.andThen fun a => ok (f a)) env).result = .ok r) : ∃ r, (p env).result = .ok r := by
  dsimp only [andThen, Report.andThen] at h
  cases hp : (p env).result with
  | error e =>
    rw [hp] at h
    cases h
  | ok r => exact ⟨r, rfl⟩

end Passing

open Passing

/-! ## Deletions in a block -/

section Blocks

variable {G : Gathering α} {statement : Node → Passing τ α} {edge : Nat → Step} {path : Path}
  {m : Node} {nodes : List Node} {i : Nat}

theorem Gathering.block_spared (hedge : Step.BlockEdge edge) (h : Node.PlacedBlock nodes)
    (hat : (nodes[i]?.bind fun n => n.at? path) = some m)
    (hspares : ∀ n : Node, n.PlacedStatement → n.at? path = some m → G.Spares statement path n) :
    (G.block statement edge 0 nodes).without (edge i :: path) (G.without (edge i :: path)) =
      G.block statement edge 0 (Node.alterAt (Node.erase path) i nodes) := by
  obtain ⟨n, hn, hat⟩ := Option.bind_eq_some_iff.1 hat
  have herase := block_erase hedge hn (hspares n (h.getElem? hn) hat) 0
  rw [Nat.zero_add] at herase
  exact herase.symm

theorem Gathering.childBlock_spared (hedge : Step.BlockEdge edge) (h : Node.PlacedBlock nodes)
    (hat : (nodes[i]?.bind fun n => n.at? path) = some m)
    (hspares : ∀ n : Node, n.PlacedStatement → n.at? path = some m → G.Spares statement path n) :
    (G.block statement edge 0 nodes).child.without (edge i :: path) (G.without (edge i :: path)) =
      (G.block statement edge 0 (Node.alterAt (Node.erase path) i nodes)).child := by
  rw [without_child, block_spared hedge h hat hspares]

/-- A deletion behind an edge that is none of the block changes nothing in the block. -/
theorem Gathering.childBlock_beside {s : Step} (hne : ∀ j, edge j ≠ s)
    (h : ∀ j, s.skipping (edge j) = edge j) :
    (G.block statement edge 0 nodes).child.without (s :: path) (G.without (s :: path)) =
      (G.block statement edge 0 nodes).child := by
  rw [without_child, block_beside (fun _ => Path.turn_other (hne _) (h _) path) nodes]

end Blocks

/-! ## The checker -/

namespace Check.Lexical

theorem block_eq (edge : Nat → Step) (index : Nat) (nodes : List Node) :
    block edge index nodes = Gathering.nothing.block statement edge index nodes := by
  induction nodes generalizing index with
  | nil =>
    rw [block]
    rfl
  | cons n ns ih =>
    rw [block, ih]
    simp only [Passing.bind_def, Gathering.block, Gathering.member, Passing.andThen_assoc,
      Passing.ok_andThen]
    congr 1
    funext _
    exact (Passing.andThen_ok _).symm

theorem bindsNothing {n : Node} (hn : n.HasBlocks) (h : n.PlacedStatement) :
    (statement n).BindsNothing := by
  cases n with
  | rule pos selectors body =>
    rw [statement]
    exact bindsNothing_child fun types => exists_result_block h .body types
  | conditional pos cond body elseBody =>
    obtain ⟨hcond, hbody, helse⟩ := h
    have hfirst := bindsNothing_reading fun types => @exists_result_condition types _ hcond pos
    have hthen := bindsNothing_child fun types => exists_result_block hbody .body types
    cases elseBody with
    | none =>
      rw [statement]
      exact hfirst.andThen fun _ => hthen.andThen fun _ => bindsNothing_ok ()
    | some elseBody =>
      rw [statement]
      exact hfirst.andThen fun _ => hthen.andThen fun _ => bindsNothing_child fun types =>
        exists_result_block helse .elseBody types
  | _ => exact hn.elim

theorem spares {m : Node} (hm : m.HasBlocks) (path : Path) (n : Node) (h : n.PlacedStatement)
    (hat : n.at? path = some m) : Gathering.nothing.Spares statement path n := by
  induction path generalizing n with
  | nil =>
    obtain rfl := Option.some.inj hat
    exact bindsNothing hm h
  | cons s path ih =>
    show statement (n.alter (Node.erase path) s) = _
    symm
    cases h.opens hat hm with
    | @selector pos selectors body i =>
      rw [Node.alter, statement, statement, block_eq]
      exact Gathering.childBlock_beside (fun _ => by simp) fun _ => rfl
    | body hplaced hat =>
      rw [Node.alter, statement, statement, block_eq, block_eq]
      exact Gathering.childBlock_spared (.inr (.inl rfl)) hplaced hat ih
    | @branch pos c body elseBody i hplaced hat =>
      have hcond := without_near (Path.turn_other (s := .body i) (by simp) rfl path)
        fun types => near_condition types pos c
      have hbody := Gathering.childBlock_spared (.inr (.inl rfl)) hplaced hat ih
      cases elseBody with
      | none =>
        rw [Node.alter, statement, statement, block_eq, block_eq]
        exact without_andThen hcond fun _ => without_andThen hbody fun _ => rfl
      | some elseBody =>
        rw [Node.alter, statement, statement, block_eq .body, block_eq .body, block_eq .elseBody]
        refine without_andThen hcond fun _ => without_andThen hbody fun _ => ?_
        exact Gathering.childBlock_beside (fun _ => by simp) fun _ => rfl
    | @elseBranch pos c body elseBody i hplaced hat =>
      have hcond := without_near (Path.turn_other (s := .elseBody i) (by simp) rfl path)
        fun types => near_condition types pos c
      have hbody := @Gathering.childBlock_beside _ _ .nothing statement .body path body
        (.elseBody i) (fun _ => by simp) fun _ => rfl
      rw [Node.alter, statement, statement, block_eq .body, block_eq .elseBody,
        block_eq .elseBody]
      refine without_andThen hcond fun _ => without_andThen hbody fun _ => ?_
      exact Gathering.childBlock_spared (.inr (.inr rfl)) hplaced hat ih

end Check.Lexical

/-! ## The evaluator -/

namespace Evaluate.Traced

theorem bindsNothing {n : Node} (hn : n.HasBlocks) (h : n.PlacedStatement) :
    (statement n).BindsNothing := by
  have hblock : ∀ edge nodes, Node.PlacedBlock nodes →
      ((block edge 0 nodes).child).BindsNothing := by
    intro edge nodes hnodes
    refine bindsNothing_child fun values => ?_
    obtain ⟨r, hr⟩ := exists_result_block hnodes edge values
    rw [block_eq_traced] at hr
    exact result_of_andThen_ok hr
  cases n with
  | rule pos selectors body =>
    rw [statement]
    exact (hblock .body body h).andThen fun _ => bindsNothing_ok _
  | conditional pos cond body elseBody =>
    obtain ⟨hcond, hbody, helse⟩ := h
    have hfirst := bindsNothing_reading fun values => @exists_result_choose values _ hcond pos
    cases elseBody with
    | none =>
      rw [statement]
      refine hfirst.andThen fun b => ?_
      cases b with
      | true => exact hblock .body body hbody
      | false => exact bindsNothing_ok _
    | some elseBody =>
      rw [statement]
      refine hfirst.andThen fun b => ?_
      cases b with
      | true => exact hblock .body body hbody
      | false => exact hblock .elseBody elseBody helse
  | _ => exact hn.elim

theorem spares {m : Node} (hm : m.HasBlocks) (path : Path) (n : Node) (h : n.PlacedStatement)
    (hat : n.at? path = some m) : Gathering.remnants.Spares statement path n := by
  induction path generalizing n with
  | nil =>
    obtain rfl := Option.some.inj hat
    exact bindsNothing hm h
  | cons s path ih =>
    show statement (n.alter (Node.erase path) s) = _
    symm
    cases h.opens hat hm with
    | @selector pos selectors body i =>
      rw [Node.alter, statement, statement, block_eq]
      refine without_andThen (Gathering.childBlock_beside (fun _ => ?_) fun _ => rfl) fun _ => rfl
      simp
    | body hplaced hat =>
      rw [Node.alter, statement, statement, block_eq, block_eq]
      exact without_andThen (Gathering.childBlock_spared (.inr (.inl rfl)) hplaced hat ih)
        fun _ => rfl
    | @branch pos c body elseBody i hplaced hat =>
      have hchoose := without_near (Path.turn_other (s := .body i) (by simp) rfl path)
        fun values => near_choose values pos c
      have hbody := Gathering.childBlock_spared (.inr (.inl rfl)) hplaced hat ih
      cases elseBody with
      | none =>
        rw [Node.alter, statement, statement, block_eq, block_eq]
        refine without_andThen hchoose fun b => ?_
        cases b with
        | true => exact hbody
        | false => rfl
      | some elseBody =>
        rw [Node.alter, statement, statement, block_eq .body, block_eq .body, block_eq .elseBody]
        refine without_andThen hchoose fun b => ?_
        cases b with
        | true => exact hbody
        | false => exact Gathering.childBlock_beside (fun _ => by simp) fun _ => rfl
    | @elseBranch pos c body elseBody i hplaced hat =>
      have hchoose := without_near (Path.turn_other (s := .elseBody i) (by simp) rfl path)
        fun values => near_choose values pos c
      rw [Node.alter, statement, statement, block_eq .body, block_eq .elseBody,
        block_eq .elseBody]
      refine without_andThen hchoose fun b => ?_
      cases b with
      | true => exact Gathering.childBlock_beside (fun _ => by simp) fun _ => rfl
      | false => exact Gathering.childBlock_spared (.inr (.inr rfl)) hplaced hat ih

end Evaluate.Traced

/-! ## Whole trees -/

namespace Stylesheet

variable {sheet : Stylesheet} {path : Path} {m : Node} {findings : List Finding} {e : Evaluation}

/-- Rules and conditionals stand in the items or deeper. -/
theorem exists_item_of_at? (hat : sheet.toNode.at? path = some m) (hm : m.HasBlocks) :
    ∃ i rest, path = .item i :: rest ∧ (sheet.items[i]?.bind fun n => n.at? rest) = some m := by
  cases path with
  | nil =>
    obtain rfl := Option.some.inj hat
    exact hm.elim
  | cons s rest =>
    cases s with
    | item i => exact ⟨i, rest, rfl, hat⟩
    | _ => cases hat

theorem check_erase (hc : sheet.check = .ok findings) (hat : sheet.toNode.at? path = some m)
    (hm : m.HasBlocks) :
    (sheet.erase path).check = .ok (findings.filterMap (Finding.without path)) := by
  obtain ⟨i, rest, rfl, hat⟩ := exists_item_of_at? hat hm
  have hblock := Gathering.block_spared (.inl rfl) (placed_of_check hc) hat
    (Check.Lexical.spares hm rest)
  obtain ⟨types, hresult, rfl⟩ := checkReport_of_check hc
  rw [checkReport, Check.Lexical.block_eq] at hresult
  rw [check_eq, checkReport, erase, Check.Lexical.block_eq, ← hblock, checkReport,
    Check.Lexical.block_eq]
  dsimp only [Passing.without]
  rw [hresult]
  rfl

/-- Without a rule or a conditional all is left but what was left of it. -/
theorem trace_erase (h : sheet.Placed) (hat : sheet.toNode.at? path = some m) (hm : m.HasBlocks) :
    (sheet.erase path).trace = ⟨sheet.trace.findings.filterMap (Finding.without path),
      sheet.trace.result.map fun r => (Remnant.allWithout path r.1, r.2)⟩ := by
  obtain ⟨i, rest, rfl, hat⟩ := exists_item_of_at? hat hm
  have hblock := Gathering.block_spared (.inl rfl) h hat (Evaluate.Traced.spares hm rest)
  rw [trace, erase, Evaluate.Traced.block_eq, ← hblock, trace, Evaluate.Traced.block_eq]
  rfl

/-- A run of the evaluator that returned, with the origins of what it left. -/
theorem trace_of_evaluate (he : sheet.evaluate = .ok e) :
    ∃ rs values, sheet.trace = ⟨e.defects, .ok (rs, values)⟩ ∧
      e.stylesheet = { sheet with items := Remnant.toNodes rs } := by
  rw [evaluate_eq_trace] at he
  rcases h : sheet.trace with ⟨defects, _ | ⟨rs, values⟩⟩
  · rw [h] at he
    cases he
  · rw [h] at he
    obtain rfl := Except.ok.inj he
    exact ⟨rs, values, rfl, rfl⟩

theorem evaluate_of_trace {defects : List Finding} {rs : List Remnant} {values : Env Constant}
    (h : sheet.trace = ⟨defects, .ok (rs, values)⟩) : sheet.evaluate =
      .ok { stylesheet := { sheet with items := Remnant.toNodes rs }, defects } := by
  rw [evaluate_eq_trace, h]
  rfl

/-- With two rules at the top level exchanged, what is found in either and the rule that is left of
either are exchanged, and nothing else is changed. -/
def Exchanges (sheet : Stylesheet) (before : List Node) (a b : Node) (after : List Node)
    (findings defects : List Finding) (remnants : List Remnant) : Prop :=
  let i := before.length
  let exchanged : Stylesheet := { sheet with items := before ++ b :: a :: after }
  ∃ (found : Gathering.Neighbours Unit) (left : Gathering.Neighbours (List Remnant))
    (x y : Remnant),
    findings = found.findings .item i ∧ defects = left.findings .item i ∧
    remnants = left.result .remnants .item i ∧
    found.Apart .nothing .item i ∧ left.Apart .remnants .item i ∧
    left.left.2 = [x] ∧ x.origin = [] ∧ x.Of a ∧ left.right.2 = [y] ∧ y.origin = [] ∧ y.Of b ∧
    exchanged.check = .ok (found.exchange.findings .item i) ∧
    exchanged.evaluate = .ok
      { stylesheet :=
          { sheet with items := Remnant.toNodes (left.exchange.result .remnants .item i) },
        defects := left.exchange.findings .item i }

theorem hasBlocks_of_isRule {n : Node} (h : n.isRule = true) : n.HasBlocks := by
  cases n with
  | rule => trivial
  | _ => cases h

/-- Of a rule one rule is left, and of it. -/
theorem exists_remnant {n : Node} (h : n.isRule = true) {values values' : Env Constant}
    {defects : List Finding} {rs : List Remnant}
    (ht : Evaluate.Traced.statement n values = ⟨defects, .ok (rs, values')⟩) :
    ∃ x, rs = [x] ∧ x.origin = [] ∧ x.Of n := by
  have hy : (Evaluate.Traced.statement n values).Yields (fun _ => True) (rs, values') :=
    ⟨by rw [ht], fun _ _ => trivial⟩
  cases n with
  | rule pos selectors body =>
    have hof := Evaluate.Traced.of_statement hy
    obtain ⟨body', -, rfl, -⟩ := Evaluate.Traced.rule_of_yields hy
    exact ⟨_, rfl, rfl, hof _ (List.mem_singleton_self _)⟩
  | _ => cases h

theorem exchanges_of_isRule {before after : List Node} {a b : Node} {rs : List Remnant}
    {values : Env Constant} {defects : List Finding}
    (hitems : sheet.items = before ++ a :: b :: after) (ha : a.isRule = true)
    (hb : b.isRule = true) (hc : sheet.check = .ok findings)
    (ht : sheet.trace = ⟨defects, .ok (rs, values)⟩) :
    sheet.Exchanges before a b after findings defects rs := by
  have hplaced : ∀ n ∈ sheet.items, n.PlacedStatement :=
    Node.placedBlock_iff.1 (placed_of_check hc)
  have hpa := hplaced a (by simp [hitems])
  have hpb := hplaced b (by simp [hitems])
  have hba := hasBlocks_of_isRule ha
  have hbb := hasBlocks_of_isRule hb
  obtain ⟨types, hfound, rfl⟩ := checkReport_of_check hc
  rw [checkReport, hitems, Check.Lexical.block_eq] at hfound
  rw [trace, hitems, Evaluate.Traced.block_eq] at ht
  obtain ⟨found, -, types', -, -, hfa, hfound, hfound'⟩ := Gathering.block_exchange
    (Check.Lexical.bindsNothing hba hpa) (Check.Lexical.bindsNothing hbb hpb) hfound
  obtain ⟨left, mid, values', hx, hy, hla, hleft, hleft'⟩ := Gathering.block_exchange
    (Evaluate.Traced.bindsNothing hba hpa) (Evaluate.Traced.bindsNothing hbb hpb)
    (congrArg Report.result ht)
  obtain ⟨x, hxs, hxo, hxa⟩ := exists_remnant ha hx
  obtain ⟨y, hys, hyo, hyb⟩ := exists_remnant hb hy
  rw [ht] at hleft
  obtain ⟨rfl, hrs⟩ := Report.mk.inj hleft
  obtain ⟨rfl, -⟩ := Prod.mk.inj (Except.ok.inj hrs)
  refine ⟨found, left, x, y, ?_, rfl, rfl, hfa, hla, hxs, hxo, hxa, hys, hyo, hyb, ?_, ?_⟩
  · rw [checkReport, hitems, Check.Lexical.block_eq, hfound]
  · rw [check_eq, checkReport, Check.Lexical.block_eq, hfound']
    rfl
  · have htrace : ({ sheet with items := before ++ b :: a :: after } : Stylesheet).trace =
        ⟨left.exchange.findings .item before.length,
          .ok (left.exchange.result .remnants .item before.length, values')⟩ := by
      rw [trace, Evaluate.Traced.block_eq]
      exact hleft'
    exact evaluate_of_trace htrace

theorem toNode_erase (hat : sheet.toNode.at? path = some m) (hm : m.HasBlocks) :
    sheet.toNode.erase path = some (sheet.erase path).toNode := by
  obtain ⟨i, rest, rfl, -⟩ := exists_item_of_at? hat hm
  rfl

/-- **Blocks do not leak.** If both passes return, then without a rule or a conditional, wherever it
stands, every other node is as it was at its new place, the findings and the defects are the old
ones about other nodes, and what is left is what was left of other statements. In particular two
neighbouring rules at the top level may be exchanged. -/
theorem blocks_do_not_leak (hc : sheet.check = .ok findings) (he : sheet.evaluate = .ok e) :
    ∃ rs values, sheet.trace.result = .ok (rs, values) ∧ (∀ r ∈ rs, r.Of sheet.toNode) ∧
      e.stylesheet = { sheet with items := Remnant.toNodes rs } ∧
      (∀ target node, sheet.toNode.at? target = some node → node.HasBlocks →
        (∀ path path', target.without path = some path' → ¬ path <+: target →
          (sheet.erase target).toNode.at? path' = sheet.toNode.at? path) ∧
        (sheet.erase target).check = .ok (findings.filterMap (Finding.without target)) ∧
        (sheet.erase target).evaluate = .ok
          { stylesheet :=
              { sheet with items := Remnant.toNodes (Remnant.allWithout target rs) },
            defects := e.defects.filterMap (Finding.without target) }) ∧
      ∀ before a b after, sheet.items = before ++ a :: b :: after → a.isRule = true →
        b.isRule = true → sheet.Exchanges before a b after findings e.defects rs := by
  obtain ⟨rs, values, ht, hleft⟩ := trace_of_evaluate he
  refine ⟨rs, values, by rw [ht], of_trace (by rw [ht]), hleft, ?_, ?_⟩
  · intro target node hat hm
    refine ⟨fun path path' hpath habove => ?_, check_erase hc hat hm, ?_⟩
    · exact Node.at?_erase (toNode_erase hat hm) hpath habove
    · have htrace := trace_erase (placed_of_check hc) hat hm
      rw [ht] at htrace
      have hpos : (sheet.erase target).pos = sheet.pos := by
        obtain ⟨i, rest, rfl, -⟩ := exists_item_of_at? hat hm
        rfl
      rw [evaluate_of_trace htrace, hpos]
  · intro before a b after hitems ha hb
    exact exchanges_of_isRule hitems ha hb hc ht

/-- A conditional that shadows a variable, deleted from a rule: the findings about the statement
after it are the same, at the place to which that moves up. -/
theorem blocks_do_not_leak_shadowing :
    let width : Node := .declaration {} "width" (.reference {} "Wide")
    let wide : Node := .assignment {} "Wide" (.literal {} (.bool true))
    let shadowing : Node := .conditional {} (.reference {} "Wide")
      [.assignment {} "Wide" (.literal {} (.number .pixel 1)), width] none
    let finding (path : Path) : Finding :=
      { severity := .error, problem := .propertyType "width" (some .bool), path }
    let sheet (body : List Node) : Stylesheet := { items := [.rule {} [] body] }
    (sheet [wide, shadowing, width]).check = .ok [finding [.item 0, .body 2]] ∧
      (sheet [wide, width]).check = .ok [finding [.item 0, .body 1]] ∧
      (sheet [wide, width]).evaluate = .ok
        { stylesheet := sheet [.declaration {} "width" (.literal {} (.bool true))],
          defects := [] } := by
  intro width wide shadowing finding sheet
  have hc : (sheet [wide, shadowing, width]).check = .ok [finding [.item 0, .body 2]] := rfl
  have he : (sheet [wide, shadowing, width]).evaluate = .ok
      { stylesheet := sheet [.declaration {} "width" (.literal {} (.number .pixel 1)),
          .declaration {} "width" (.literal {} (.bool true))], defects := [] } := rfl
  obtain ⟨rs, values, ht, -, -, herase, -⟩ := blocks_do_not_leak hc he
  obtain ⟨-, hcheck, hevaluate⟩ := herase [.item 0, .body 1] shadowing rfl trivial
  obtain ⟨rfl, -⟩ := Prod.mk.inj (Except.ok.inj ht)
  exact ⟨hc, hcheck, hevaluate⟩

end Stylesheet

end StyleLang
