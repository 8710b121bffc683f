import Mathlib.Data.List.Forall2
import StyleLang.Proofs.Css.Evaluated
import StyleLang.Proofs.Pass.Isolation
import StyleLang.Proofs.Pass.Selection

/-!
# Flattening

The evaluator takes the declarations out of the branches that are selected and drops the others.
Main statement: of every rule of a program one rule is left, and in it exactly the declarations
around which every conditional selected their branch, each once and in the order of the source.
-/

namespace StyleLang

/-! ## Programs -/

namespace Node

mutual

/-- A declaration, an assignment, or a conditional of such. -/
def IsLine : Node → Prop
  | declaration _ _ _ => True
  | assignment _ _ _ => True
  | conditional _ _ body elseBody => AreLines body ∧ AreElseLines elseBody
  | _ => False

/-- `IsLine`, member by member. -/
def AreLines : List Node → Prop
  | [] => True
  | n :: ns => n.IsLine ∧ AreLines ns

/-- `AreLines` for a branch that may be missing. -/
def AreElseLines : Option (List Node) → Prop
  | none => True
  | some ns => AreLines ns

end

/-- An assignment, or a rule of lines. -/
def IsProgramItem : Node → Prop
  | assignment _ _ _ => True
  | rule _ _ body => AreLines body
  | _ => False

/-- The node is a rule or a line, and there are lines in its blocks. -/
def HoldsLines : Node → Prop
  | rule _ _ body => AreLines body
  | n => n.IsLine

theorem AreLines.getElem? {ns : List Node} (h : AreLines ns) {i : Nat} {n : Node}
    (hn : ns[i]? = some n) : n.IsLine := by
  induction ns generalizing i with
  | nil => cases hn
  | cons m ns ih =>
    cases i with
    | zero =>
      obtain rfl := Option.some.inj hn
      exact h.1
    | succ i => exact ih h.2 hn

theorem IsLine.holdsLines {n : Node} (h : n.IsLine) : n.HoldsLines := by
  cases n with
  | rule => exact h.elim
  | _ => exact h

theorem IsProgramItem.holdsLines {n : Node} (h : n.IsProgramItem) : n.HoldsLines := by
  cases n with
  | assignment => trivial
  | rule => exact h
  | _ => exact h.elim

end Node

/-- The items are assignments and rules, and the bodies and branches in them hold declarations,
assignments and conditionals. -/
def Stylesheet.IsProgram (sheet : Stylesheet) : Prop := ∀ n ∈ sheet.items, n.IsProgramItem

/-! ## The order of the source -/

/-- In a block through which both paths lead, the first one leads on to or through an earlier
statement. -/
def Path.Precedes (path path' : Path) : Prop :=
  ∃ block edge i j rest rest', Step.BlockEdge edge ∧ i < j ∧ path = block ++ edge i :: rest ∧
    path' = block ++ edge j :: rest'

namespace Path.Precedes

variable {path path' : Path}

theorem members {edge : Nat → Step} (h : Step.BlockEdge edge) {i j : Nat} (hij : i < j)
    (rest rest' : Path) : Precedes (edge i :: rest) (edge j :: rest') :=
  ⟨[], edge, i, j, rest, rest', h, hij, rfl, rfl⟩

theorem cons (h : Precedes path path') (step : Step) :
    Precedes (step :: path) (step :: path') := by
  obtain ⟨block, edge, i, j, rest, rest', hedge, hij, rfl, rfl⟩ := h
  exact ⟨step :: block, edge, i, j, rest, rest', hedge, hij, rfl, rfl⟩

theorem ne (h : Precedes path path') : path ≠ path' := by
  obtain ⟨block, edge, i, j, rest, rest', hedge, hij, rfl, rfl⟩ := h
  intro heq
  obtain ⟨hstep, -⟩ := List.cons.inj (List.append_cancel_left heq)
  exact Nat.ne_of_lt hij (hedge.inj hedge hstep).2

end Path.Precedes

/-! ## Remnants in order -/

namespace Remnant

/-- The remnants are those with the property, in the order of the source. -/
structure Lists (P : Remnant → Prop) (rs : List Remnant) : Prop where
  mem_iff : ∀ r, r ∈ rs ↔ P r
  sorted : (rs.map origin).Pairwise Path.Precedes

section Lists

variable {P Q : Remnant → Prop} {rs rest : List Remnant}

theorem lists_nil (h : ∀ r, ¬ P r) : Lists P [] :=
  ⟨fun r => iff_of_false List.not_mem_nil (h r), List.Pairwise.nil⟩

theorem lists_one {r : Remnant} (h : ∀ r', P r' ↔ r' = r) : Lists P [r] :=
  ⟨fun r' => List.mem_singleton.trans (h r').symm, List.pairwise_singleton _ _⟩

theorem Lists.congr (h : Lists P rs) (hPQ : ∀ r, Q r ↔ P r) : Lists Q rs :=
  ⟨fun r => (h.mem_iff r).trans (hPQ r).symm, h.sorted⟩

/-- The remnants of a statement, and then those of the later statements of its block. -/
theorem Lists.cons {edge : Nat → Step} {index : Nat} (hedge : Step.BlockEdge edge)
    (h : Lists P rs) (hrest : Lists Q rest)
    (hlater : ∀ r, Q r → ∃ j path, index < j ∧ r.origin = edge j :: path) :
    Lists (fun r => (∃ r', r = r'.under (edge index) ∧ P r') ∨ Q r)
      (rs.map (under (edge index)) ++ rest) := by
  refine ⟨fun r => ?_, ?_⟩
  · simp only [List.mem_append, List.mem_map, h.mem_iff, hrest.mem_iff, eq_comm, and_comm]
  · have hfirst : ((rs.map (under (edge index))).map origin).Pairwise Path.Precedes := by
      have hmap : (rs.map (under (edge index))).map origin =
          (rs.map origin).map (edge index :: ·) := by
        simp [origin_under]
      rw [hmap]
      exact h.sorted.map _ fun _ _ hp => hp.cons _
    rw [List.map_append]
    refine List.pairwise_append.2 ⟨hfirst, hrest.sorted, fun path hpath path' hpath' => ?_⟩
    obtain ⟨_, hr, rfl⟩ := List.mem_map.1 hpath
    obtain ⟨r, -, rfl⟩ := List.mem_map.1 hr
    obtain ⟨r', hr', rfl⟩ := List.mem_map.1 hpath'
    obtain ⟨j, path', hj, horigin⟩ := hlater r' ((hrest.mem_iff r').1 hr')
    rw [origin_under, horigin]
    exact .members hedge hj _ _

end Lists

theorem toNodes_eq_map (rs : List Remnant) : toNodes rs = rs.map toNode := by
  induction rs with
  | nil => rfl
  | cons r rs ih => rw [toNodes, ih, List.map_cons]

end Remnant

/-! ## What is left of a line -/

namespace Evaluate

open Remnant (Lists lists_nil lists_one)
open Passing (yields_andThen yields_reading yields_child yields_under yields_ok)

variable {admits : Problem → Prop} {n : Node} {values mid start last : Env Constant}
  {edge : Nat → Step} {index : Nat} {nodes : List Node} {r : Remnant} {rs : List Remnant}

/-- The evaluator, started at the node, arrives at the declaration at the origin of the remnant,
and folds its expression there. -/
inductive IsLeft (n : Node) (start : Env Constant) : Remnant → Prop where
  | mk {origin : Path} {pos : Position} {property : String} {e : Node} {values : Env Constant}
    {c : Constant} (harrives : Arrives n start origin values)
    (hat : n.at? origin = some (.declaration pos property e))
    (hfold : (fold values e).result = .ok c) : IsLeft n start (.declaration origin pos property c)

/-- `IsLeft` for a block whose first statement has the given index. -/
def IsLeftIn (edge : Nat → Step) (index : Nat) (nodes : List Node) (start : Env Constant)
    (r : Remnant) : Prop :=
  ∃ i child mid r', r = r'.under (edge (index + i)) ∧ nodes[i]? = some child ∧
    after (nodes.take i) start = some mid ∧ IsLeft child mid r'

theorem IsLeftIn.origin (h : IsLeftIn edge index nodes start r) :
    ∃ j path, index ≤ j ∧ r.origin = edge j :: path := by
  obtain ⟨i, child, mid, r', rfl, -⟩ := h
  exact ⟨index + i, r'.origin, Nat.le_add_right index i, r'.origin_under _⟩

theorem not_isLeftIn_nil : ¬ IsLeftIn edge index [] start r := by
  rintro ⟨_, _, _, _, -, hchild, -⟩
  cases hchild

theorem isLeftIn_cons_iff {out : List Node}
    (hn : (Lexical.statement n start).result = .ok (out, mid)) :
    IsLeftIn edge index (n :: nodes) start r ↔
      (∃ r', r = r'.under (edge index) ∧ IsLeft n start r') ∨
        IsLeftIn edge (index + 1) nodes mid r := by
  have hindex : ∀ i, edge (index + 1 + i) = edge (index + (i + 1)) := fun i =>
    congrArg edge (by omega)
  constructor
  · rintro ⟨i, child, inner, r', rfl, hchild, hafter, hr'⟩
    cases i with
    | zero =>
      obtain rfl := Option.some.inj hchild
      obtain rfl := Option.some.inj hafter
      exact .inl ⟨r', rfl, hr'⟩
    | succ i =>
      rw [List.take_succ_cons, after, hn] at hafter
      exact .inr ⟨i, child, inner, r', by rw [hindex], hchild, hafter, hr'⟩
  · rintro (⟨r', rfl, hr'⟩ | ⟨i, child, inner, r', rfl, hchild, hafter, hr'⟩)
    · exact ⟨0, n, start, r', rfl, rfl, rfl, hr'⟩
    · refine ⟨i + 1, child, inner, r', by rw [hindex], hchild, ?_, hr'⟩
      rw [List.take_succ_cons, after, hn]
      exact hafter

theorem isLeft_declaration_iff {pos : Position} {property : String} {e : Node} {c : Constant}
    (hc : (fold start e).result = .ok c) :
    IsLeft (.declaration pos property e) start r ↔ r = .declaration [] pos property c := by
  constructor
  · rintro ⟨harrives, hat, hfold⟩
    cases harrives with
    | here =>
      cases hat
      obtain rfl := Except.ok.inj (hc.symm.trans hfold)
      rfl
    | into htakes => cases htakes
  · rintro rfl
    exact .mk (.here _ _) rfl hc

/-- Of a statement other than a declaration only what is in its block is left. -/
theorem isLeft_inv (h : IsLeft n start r) (hn : ∀ pos property e, n ≠ .declaration pos property e) :
    ∃ edge nodes, Takes start n edge nodes ∧ IsLeftIn edge 0 nodes start r := by
  obtain ⟨harrives, hat, hfold⟩ := h
  cases harrives with
  | here => exact absurd (Option.some.inj hat) (hn _ _ _)
  | @into _ child _ mid _ edge nodes i path htakes hchild hafter h =>
    rw [htakes.at?_cons hchild] at hat
    refine ⟨edge, nodes, htakes, i, child, mid, .declaration path _ _ _, ?_, hchild, hafter,
      .mk h hat hfold⟩
    rw [Nat.zero_add]
    rfl

theorem not_isLeft_assignment {pos : Position} {name : String} {e : Node} :
    ¬ IsLeft (.assignment pos name e) start r := by
  intro h
  obtain ⟨_, _, htakes, -⟩ := isLeft_inv h (by simp)
  cases htakes

/-- The evaluator takes one block of a statement at most. -/
theorem Takes.only {edge' : Nat → Step} {nodes' : List Node} (h : Takes values n edge nodes)
    (h' : Takes values n edge' nodes') : edge = edge' ∧ nodes = nodes' := by
  cases h with
  | thenBranch hchoose =>
    cases h' with
    | thenBranch => exact ⟨rfl, rfl⟩
    | elseBranch hchoose' => cases hchoose.symm.trans hchoose'
  | elseBranch hchoose =>
    cases h' with
    | thenBranch hchoose' => cases hchoose.symm.trans hchoose'
    | elseBranch => exact ⟨rfl, rfl⟩
  | _ =>
    cases h'
    exact ⟨rfl, rfl⟩

theorem isLeft_iff_of_takes (htakes : Takes start n edge nodes) :
    IsLeft n start r ↔ IsLeftIn edge 0 nodes start r := by
  constructor
  · intro h
    obtain ⟨edge', nodes', htakes', hleft⟩ := isLeft_inv h (by rintro _ _ _ rfl; cases htakes)
    obtain ⟨rfl, rfl⟩ := htakes.only htakes'
    exact hleft
  · rintro ⟨i, child, mid, r', rfl, hchild, hafter, ⟨harrives, hat, hfold⟩⟩
    rw [Nat.zero_add]
    refine .mk (.into htakes hchild hafter harrives) ?_ hfold
    rw [htakes.at?_cons hchild]
    exact hat

theorem result_of_traced
    (h : (Traced.statement n start).Yields admits (rs, mid)) :
    (Lexical.statement n start).result = .ok (Remnant.toNodes rs, mid) := by
  have hyields : (Lexical.statement n start).Yields admits (Remnant.toNodes rs, mid) := by
    rw [statement_eq_traced]
    exact yields_andThen.2 ⟨rs, mid, h, yields_ok.2 ⟨rfl, rfl⟩⟩
  exact hyields.1

mutual

/-- Of a line exactly the declarations are left at which the evaluator arrives. -/
theorem lists_line : ∀ {n : Node} {start last : Env Constant} {rs : List Remnant}, n.IsLine →
    (Traced.statement n start).Yields admits (rs, last) → Lists (IsLeft n start) rs
  | .declaration _ _ _, _, _, _, _, h => by
    rw [Traced.statement] at h
    obtain ⟨c, _, hc, h⟩ := yields_andThen.1 h
    obtain ⟨hc, -⟩ := yields_reading.1 hc
    rw [(yields_ok.1 h).1]
    exact lists_one fun r => isLeft_declaration_iff hc.1
  | .assignment _ _ _, _, _, _, _, h => by
    rw [Traced.statement] at h
    obtain ⟨_, _, -, h⟩ := yields_andThen.1 h
    obtain ⟨_, _, -, h⟩ := yields_andThen.1 h
    rw [(yields_ok.1 h).1]
    exact lists_nil fun r => not_isLeft_assignment
  | .conditional _ _ body none, _, _, _, hn, h => by
    rw [Traced.statement] at h
    obtain ⟨b, _, hb, h⟩ := yields_andThen.1 h
    obtain ⟨⟨hb, -⟩, rfl⟩ := yields_reading.1 hb
    cases b with
    | true =>
      obtain ⟨⟨_, hbody⟩, -⟩ := yields_child.1 h
      have hlists := lists_lines (.inr (.inl rfl)) hn.1 hbody
      exact hlists.congr fun r => isLeft_iff_of_takes (.thenBranch hb)
    | false =>
      rw [(yields_ok.1 h).1]
      refine lists_nil fun r hr => ?_
      obtain ⟨_, _, htakes, -⟩ := isLeft_inv hr (by simp)
      cases htakes with
      | thenBranch hb' => cases hb.symm.trans hb'
  | .conditional _ _ body (some elseBody), _, _, _, hn, h => by
    rw [Traced.statement] at h
    obtain ⟨b, _, hb, h⟩ := yields_andThen.1 h
    obtain ⟨⟨hb, -⟩, rfl⟩ := yields_reading.1 hb
    cases b with
    | true =>
      obtain ⟨⟨_, hbody⟩, -⟩ := yields_child.1 h
      have hlists := lists_lines (.inr (.inl rfl)) hn.1 hbody
      exact hlists.congr fun r => isLeft_iff_of_takes (.thenBranch hb)
    | false =>
      obtain ⟨⟨_, hbody⟩, -⟩ := yields_child.1 h
      have hlists := lists_lines (.inr (.inr rfl)) hn.2 hbody
      exact hlists.congr fun r => isLeft_iff_of_takes (.elseBranch hb)
  | .selector _ _ _, _, _, _, hn, _ | .literal _ _, _, _, _, hn, _ | .reference _ _, _, _, _, hn, _
  | .operation _ _ _ _, _, _, _, hn, _ | .rule _ _ _, _, _, _, hn, _
  | .sheet _ _, _, _, _, hn, _ => hn.elim

theorem lists_lines {edge : Nat → Step} (hedge : Step.BlockEdge edge) : ∀ {index : Nat}
    {nodes : List Node} {start last : Env Constant} {rs : List Remnant}, Node.AreLines nodes →
    (Traced.block edge index nodes start).Yields admits (rs, last) →
    Lists (IsLeftIn edge index nodes start) rs
  | _, [], _, _, _, _, h => by
    rw [Traced.block] at h
    rw [(yields_ok.1 h).1]
    exact lists_nil fun r => not_isLeftIn_nil
  | index, n :: nodes, _, _, _, hn, h => by
    rw [Traced.block] at h
    obtain ⟨first, mid, hfirst, h⟩ := yields_andThen.1 h
    obtain ⟨rest, _, hrest, h⟩ := yields_andThen.1 h
    rw [(yields_ok.1 h).1]
    have hstatement := yields_under.1 hfirst
    have hlists := (lists_line hn.1 hstatement).cons hedge (lists_lines hedge hn.2 hrest)
      fun r hr => hr.origin
    exact hlists.congr fun r => isLeftIn_cons_iff (result_of_traced hstatement)

end

/-! ## What is left of the items -/

/-- When the evaluator has arrived at the rule with the index, one rule is left of it, and in that
what is left of its lines. -/
def LeavesRule (edge : Nat → Step) (index : Nat) (nodes : List Node) (start : Env Constant)
    (source : Node × Nat) (r : Remnant) : Prop :=
  ∃ mid pos selectors body lines, ArrivesIn edge index nodes start [edge source.2] mid ∧
    source.1 = .rule pos selectors body ∧ r = .rule [edge source.2] pos selectors lines ∧
    Lists (IsLeft source.1 mid) lines

/-- Of the items the rules are left, one by one. -/
theorem forall₂_items (hnodes : ∀ n ∈ nodes, n.IsProgramItem)
    (h : (Traced.block edge index nodes start).Yields admits (rs, last)) :
    List.Forall₂ (LeavesRule edge index nodes start)
      ((nodes.zipIdx index).filter fun source => source.1.isRule) rs := by
  induction nodes generalizing index start rs last with
  | nil =>
    rw [Traced.block] at h
    rw [(yields_ok.1 h).1]
    exact .nil
  | cons n nodes ih =>
    rw [Traced.block] at h
    obtain ⟨first, mid, hfirst, h⟩ := yields_andThen.1 h
    obtain ⟨rest, _, hrest, h⟩ := yields_andThen.1 h
    rw [(yields_ok.1 h).1]
    have hstatement := yields_under.1 hfirst
    have hn := hnodes n List.mem_cons_self
    have hlater : List.Forall₂ (LeavesRule edge index (n :: nodes) start)
        ((nodes.zipIdx (index + 1)).filter fun source => source.1.isRule) rest := by
      refine (ih (fun m hm => hnodes m (List.mem_cons_of_mem _ hm)) hrest).imp ?_
      rintro source r ⟨inner, pos, selectors, body, lines, harrives, hleaves⟩
      exact ⟨inner, pos, selectors, body, lines, harrives.cons (result_of_traced hstatement),
        hleaves⟩
    cases n with
    | assignment pos name e =>
      have hline : (Node.assignment pos name e).IsLine := trivial
      have hlists := lists_line hline hstatement
      have hnone : first = [] := List.eq_nil_iff_forall_not_mem.2 fun r hr =>
        not_isLeft_assignment ((hlists.mem_iff r).1 hr)
      rw [hnone]
      exact hlater
    | rule pos selectors body =>
      obtain ⟨lines, _, rfl, hlines⟩ := Traced.rule_of_yields hstatement
      have hlists : Lists (IsLeft (.rule pos selectors body) start) lines :=
        (lists_lines (.inr (.inl rfl)) hn hlines).congr fun r => isLeft_iff_of_takes .rule
      have harrives : ArrivesIn edge index (.rule pos selectors body :: nodes) start [edge index]
          start := ⟨0, _, start, [], rfl, rfl, rfl, .here _ _⟩
      exact .cons ⟨start, pos, selectors, body, lines, harrives, rfl, rfl, hlists⟩ hlater
    | _ => exact hn.elim

/-- In what holds lines, the evaluator arrives through bodies and branches only. -/
theorem Arrives.inBlocks {path : Path} (h : Arrives n start path values) (hn : n.HoldsLines) :
    path.InBlocks := by
  induction h with
  | here => exact fun step hstep => absurd hstep List.not_mem_nil
  | into htakes hchild _ _ ih =>
    cases htakes with
    | items => exact hn.elim
    | rule => exact .cons trivial (ih (Node.AreLines.getElem? hn hchild).holdsLines)
    | thenBranch => exact .cons trivial (ih (Node.AreLines.getElem? hn.1 hchild).holdsLines)
    | elseBranch => exact .cons trivial (ih (Node.AreLines.getElem? hn.2 hchild).holdsLines)

end Evaluate

/-! ## Whole trees -/

namespace Stylesheet

open Evaluate

/-- The remnants are left of the declarations in the rule at the index around which every
conditional selected the branch that they stand in: of each of them one, in the order of the source,
with the literal that its expression folded to in the run. -/
structure Flattens (sheet : Stylesheet) (index : Nat) (rule : Node) (lines : List Remnant) :
    Prop where
  sorted : (lines.map Remnant.origin).Pairwise Path.Precedes
  nodup : (lines.map Remnant.origin).Nodup
  mem_iff : ∀ origin, origin ∈ lines.map Remnant.origin ↔ origin.InBlocks ∧
    (∃ pos property e, rule.at? origin = some (.declaration pos property e)) ∧
    sheet.EverySelected (.item index :: origin)
  folded : ∀ line ∈ lines, ∃ origin pos property e values c,
    line = .declaration origin pos property c ∧
    rule.at? origin = some (.declaration pos property e) ∧
    (.item index :: origin, values) ∈ sheet.readings ∧ (fold values e).result = .ok c

variable {sheet : Stylesheet} {lines : List Remnant} {e : Evaluation}

theorem flattens {i : Nat} {n : Node} {start : Env Constant} {r : List Node × Env Constant}
    (harrives : Arrives sheet.toNode .empty [.item i] start)
    (hat : sheet.toNode.at? [.item i] = some n) (hn : n.IsProgramItem)
    (hr : (Lexical.statement n start).result = .ok r)
    (h : Remnant.Lists (IsLeft n start) lines) : sheet.Flattens i n lines := by
  have hsheet : ∀ path, sheet.toNode.at? (.item i :: path) = n.at? path := fun path => by
    rw [← List.singleton_append, Node.at?_append, hat]
    rfl
  refine ⟨h.sorted, h.sorted.imp Path.Precedes.ne, fun origin => ⟨fun hmem => ?_, ?_⟩,
    fun line hline => ?_⟩
  · obtain ⟨line, hline, rfl⟩ := List.mem_map.1 hmem
    obtain ⟨hon, hdeclaration, -⟩ := (h.mem_iff line).1 hline
    have hblocks := hon.inBlocks hn.holdsLines
    exact ⟨hblocks, ⟨_, _, _, hdeclaration⟩,
      everySelected_of_arrives (harrives.append hat hon) hblocks⟩
  · rintro ⟨hblocks, ⟨pos, property, e, hdeclaration⟩, hsel⟩
    obtain ⟨values, hon⟩ := exists_arrives harrives hat hr hdeclaration hblocks hsel
    obtain ⟨_, hfold⟩ := hon.exists_result hdeclaration hr
    rw [statement_declaration] at hfold
    obtain ⟨c, hc, -⟩ := Report.exists_of_andThen hfold
    exact List.mem_map.2 ⟨_, (h.mem_iff _).2 (.mk hon hdeclaration hc), rfl⟩
  · obtain ⟨hon, hdeclaration, hfold⟩ := (h.mem_iff line).1 hline
    have hreading := mem_readings_of_arrives (harrives.append hat hon)
      (hon.inBlocks hn.holdsLines).item_not_mem ((hsheet _).trans hdeclaration) trivial
    exact ⟨_, _, _, _, _, _, rfl, hdeclaration, hreading, hfold⟩

/-- The rule is left of the rule in the source, which has its index with it. -/
def LeftOf (sheet : Stylesheet) (source : Node × Nat) (left : Node) : Prop :=
  ∃ pos selectors body lines, source.1 = .rule pos selectors body ∧
    left = .rule pos selectors (Remnant.toNodes lines) ∧ sheet.Flattens source.2 source.1 lines

theorem leftOf_of_evaluate (h : sheet.IsProgram) (he : sheet.evaluate = .ok e) :
    List.Forall₂ sheet.LeftOf (sheet.items.zipIdx.filter fun source => source.1.isRule)
      e.stylesheet.items := by
  obtain ⟨rs, values, ht, hleft⟩ := trace_of_evaluate he
  obtain ⟨_, _, hreport, -⟩ := evaluate_ok_iff.1 he
  have hyields : (Traced.block .item 0 sheet.items .empty).Yields (fun _ => True) (rs, values) :=
    ⟨congrArg Report.result ht, fun _ _ => trivial⟩
  have hitems := (List.forall₂_and_left _ _).2
    ⟨fun source hsource => List.mem_of_mem_filter hsource, forall₂_items h hyields⟩
  rw [hleft, Remnant.toNodes_eq_map]
  refine List.forall₂_map_right_iff.2 (hitems.imp ?_)
  rintro ⟨n, i⟩ r ⟨hsource, mid, pos, selectors, body, lines, hin, hn, rfl, hlists⟩
  have hchild : sheet.items[i]? = some n := List.mk_mem_zipIdx_iff_getElem?.1 hsource
  have hat : sheet.toNode.at? [.item i] = some n := Option.bind_eq_some_iff.2 ⟨n, hchild, rfl⟩
  have harrives : Arrives sheet.toNode .empty [.item i] mid := hin.arrives .items
  obtain ⟨mid', r', hafter, hr⟩ := exists_after_of_block hchild (congrArg Report.result hreport)
  have hmid := harrives.unique (.into .items hchild hafter (.here n mid'))
  rw [← hmid] at hr
  have hitem : n.IsProgramItem := h n (List.mem_of_getElem? hchild)
  exact ⟨pos, selectors, body, lines, hn, rfl, flattens harrives hat hitem hr hlists⟩

/-- **Flattening is exact.** A program of placed nodes is evaluated. What is left of an evaluated
program stands where the program stood, and is one rule for each of its rules, in order, with the
position and the selectors of that rule. Exactly those declarations are in it around which every
conditional selected the branch that they stand in, the first one if its condition was true and
otherwise the other one; each is there once, in the order of the source, with its position and its
property. -/
theorem flattening_exact (h : sheet.IsProgram) :
    (sheet.Placed → ∃ e, sheet.evaluate = .ok e) ∧
    ∀ e, sheet.evaluate = .ok e → e.stylesheet.pos = sheet.pos ∧
      List.Forall₂ sheet.LeftOf (sheet.items.zipIdx.filter fun source => source.1.isRule)
        e.stylesheet.items := by
  refine ⟨exists_evaluate_of_placed, fun e he => ⟨?_, leftOf_of_evaluate h he⟩⟩
  · obtain ⟨_, _, -, hleft⟩ := evaluate_ok_iff.1 he
    rw [hleft]

/-- A condition that is no truth value, inside a branch that is selected, and a branch that is
missing. -/
theorem flattening_exact_nested :
    let width (i : Int) : Node :=
      .declaration ⟨some i, none⟩ "width" (.literal {} (.number .pixel i))
    let nested : Node := .conditional {} (.literal {} (.number .scalar 1)) [width 2] [width 3]
    let rule : Node := .rule {} [.selector {} .tag "p"]
      [width 1, .conditional {} (.reference {} "Wide") [nested, width 4] [width 5],
        .conditional {} (.literal {} (.bool false)) [width 6] none]
    let sheet : Stylesheet :=
      { pos := ⟨some 1, some 1⟩,
        items := [.assignment {} "Wide" (.literal {} (.bool true)), rule] }
    sheet.IsProgram ∧ sheet.Placed ∧
      ∃ e lines, sheet.evaluate = .ok e ∧ e.stylesheet.pos = ⟨some 1, some 1⟩ ∧
        e.stylesheet.items = [.rule {} [.selector {} .tag "p"] [width 1, width 3, width 4]] ∧
        Remnant.toNodes lines = [width 1, width 3, width 4] ∧ sheet.Flattens 1 rule lines := by
  intro width nested rule sheet
  have hprogram : sheet.IsProgram := by
    intro n hn
    rcases List.mem_pair.1 hn with rfl | rfl
    · trivial
    · simp [rule, nested, width, Node.IsProgramItem, Node.AreLines, Node.IsLine,
        Node.AreElseLines]
  have hplaced : sheet.Placed := by
    simp [sheet, rule, nested, width, Placed, Node.PlacedBlock, Node.PlacedStatement,
      Node.PlacedElse, Node.PlacedExpression]
  obtain ⟨hreturns, hflat⟩ := flattening_exact hprogram
  obtain ⟨e, he⟩ := hreturns hplaced
  obtain ⟨hpos, hrules⟩ := hflat e he
  obtain rfl := Except.ok.inj he
  obtain ⟨⟨_, _, _, lines, hrule, hleft, hlines⟩, -⟩ := List.forall₂_cons.1 hrules
  refine ⟨hprogram, hplaced, _, lines, he, hpos, rfl, ?_, hlines⟩
  exact (Node.rule.inj hleft).2.2.symm

end Stylesheet

end StyleLang
