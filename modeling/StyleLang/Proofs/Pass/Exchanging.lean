import StyleLang.Proofs.Pass.Folding
import StyleLang.Proofs.Syntax.Exchange

/-!
# Reports on exchanged operands

What is said of a tree and of the same tree with the operands of an operation exchanged. Main
statements: the types and the values of a sum and of a product are the same both ways; reports go on
corresponding to each other when more follows after them, one edge further up, and in a block when
those on one of its statements do.
-/

namespace StyleLang

variable {τ α β γ δ : Type}

/-! ## Operands -/

/-- The error with the operands the other way round. -/
def OperandError.exchange : OperandError → OperandError
  | mixedFactors left right => mixedFactors right left
  | mixedTerms left symbol right => mixedTerms right symbol left
  | reason => reason

theorem productMeasure_comm (left right : ValueType) : productMeasure right left =
    (productMeasure left right).mapError OperandError.exchange := by
  rcases left with _ | (_ | _ | _) | _ <;> rcases right with _ | (_ | _ | _) | _ <;> rfl

theorem sumMeasure_comm (symbol : String) (left right : ValueType) : sumMeasure symbol right left =
    (sumMeasure symbol left right).mapError OperandError.exchange := by
  rcases left with _ | (_ | _ | _) | _ <;> rcases right with _ | (_ | _ | _) | _ <;> rfl

namespace Operator

variable {op : Operator}

theorem measure_comm (hop : op = .add ∨ op = .multiply) (left right : ValueType) :
    op.measure right left = (op.measure left right).mapError OperandError.exchange := by
  rcases hop with rfl | rfl
  · exact sumMeasure_comm _ left right
  · exact productMeasure_comm left right

theorem compute_comm (hop : op = .add ∨ op = .multiply) (a b : Int) :
    op.compute b a = op.compute a b := by
  rcases hop with rfl | rfl
  · exact Int.add_comm b a
  · exact Int.mul_comm b a

theorem combine_comm (hop : op = .add ∨ op = .multiply) (left right : Value) :
    op.combine right left = (op.combine left right).mapError OperandError.exchange := by
  unfold combine
  rw [measure_comm hop, compute_comm hop]
  cases op.measure left.type right.type <;> rfl

end Operator

/-! ## Findings -/

/-- What is wrong with an operation whose operands are the other way round. -/
def Problem.exchange : Problem → Problem
  | operands reason => operands reason.exchange
  | problem => problem

namespace Finding

/-- The finding about the corresponding node. Of the operation itself it is about operands that are
the other way round. -/
def exchange (target : Path) (f : Finding) : Finding :=
  { f with
    problem := if f.path = target then f.problem.exchange else f.problem
    path := target.exchange f.path }

theorem rule_exchange (target : Path) (f : Finding) : (f.exchange target).rule = f.rule := by
  unfold exchange rule
  dsimp only
  split
  · cases f.problem <;> rfl
  · rfl

theorem problem_exchange_of_ne {target : Path} {f : Finding} (h : f.path ≠ target) :
    (f.exchange target).problem = f.problem := if_neg h

theorem exchange_under (target : Path) (step : Step) (f : Finding) :
    (f.under step).exchange (step :: target) = (f.exchange target).under step := by
  simp [exchange, under, Path.exchange_cons_self]

theorem exchange_of_not_inside {target : Path} {f : Finding} (h : ¬ f.Inside target) :
    f.exchange target = f := by
  have hpath : f.path ≠ target := fun heq => h (heq ▸ List.prefix_rfl)
  unfold exchange
  rw [if_neg hpath, Path.exchange_of_not_prefix h]

/-- The finding is about a node in an operand of the operation at the end of the path. -/
def InOperand (target : Path) (f : Finding) : Prop :=
  f.Inside (target ++ [.lhs]) ∨ f.Inside (target ++ [.rhs])

instance (target : Path) (f : Finding) : Decidable (f.InOperand target) :=
  inferInstanceAs (Decidable (_ ∨ _))

/-- The finding, unless it is in an operand. -/
def around (target : Path) (f : Finding) : Option Finding :=
  if f.InOperand target then none else some f

theorem around_under (target : Path) (step : Step) (f : Finding) :
    (f.under step).around (step :: target) = (f.around target).map (Finding.under step) := by
  have hin : (f.under step).InOperand (step :: target) ↔ f.InOperand target := by
    simp [InOperand, Inside, List.cons_prefix_cons]
  unfold around
  by_cases h : f.InOperand target
  · rw [if_pos h, if_pos (hin.2 h)]
    rfl
  · rw [if_neg h, if_neg (mt hin.1 h)]
    rfl

/-- The findings are those about the corresponding nodes, in the same order, except that those in the
operands may have another order among themselves. -/
structure Exchanged (target : Path) (fs fs' : List Finding) : Prop where
  perm : fs'.Perm (fs.map (exchange target))
  order : fs'.map (around target) = (fs.map (exchange target)).map (around target)

variable {target : Path} {fs fs' gs gs' : List Finding}

theorem exchanged_of_outside (h : ∀ f ∈ fs, ¬ f.Inside target) : Exchanged target fs fs := by
  have hsame : fs.map (exchange target) = fs :=
    (List.map_congr_left fun f hf => exchange_of_not_inside (h f hf)).trans (List.map_id' fs)
  constructor
  · rw [hsame]
  · rw [hsame]

theorem Exchanged.append (h : Exchanged target fs fs') (h' : Exchanged target gs gs') :
    Exchanged target (fs ++ gs) (fs' ++ gs') := by
  constructor
  · rw [List.map_append]
    exact h.perm.append h'.perm
  · rw [List.map_append, List.map_append, List.map_append, h.order, h'.order]

theorem Exchanged.under (h : Exchanged target fs fs') (step : Step) :
    Exchanged (step :: target) (fs.map (Finding.under step)) (fs'.map (Finding.under step)) := by
  have hexchange : (fs.map (Finding.under step)).map (exchange (step :: target)) =
      (fs.map (exchange target)).map (Finding.under step) := by
    rw [List.map_map, List.map_map]
    exact List.map_congr_left fun f _ => exchange_under target step f
  have haround : ∀ gs : List Finding, (gs.map (Finding.under step)).map (around (step :: target)) =
      (gs.map (around target)).map (Option.map (Finding.under step)) := by
    intro gs
    rw [List.map_map, List.map_map]
    exact List.map_congr_left fun f _ => around_under target step f
  constructor
  · rw [hexchange]
    exact h.perm.map _
  · rw [hexchange, haround, haround, h.order]

/-- The findings in the two operands change places, and those about the operation follow. -/
theorem exchanged_operands (left right own : List Finding) :
    Exchanged [] (left.map (Finding.under .lhs) ++ (right.map (Finding.under .rhs) ++ own))
      (right.map (Finding.under .lhs) ++
        (left.map (Finding.under .rhs) ++ own.map (exchange []))) := by
  have hleft : (left.map (Finding.under .lhs)).map (exchange []) =
      left.map (Finding.under .rhs) := List.map_map
  have hright : (right.map (Finding.under .rhs)).map (exchange []) =
      right.map (Finding.under .lhs) := List.map_map
  have hnone : ∀ {step : Step} (fs : List Finding), step = .lhs ∨ step = .rhs →
      (fs.map (Finding.under step)).map (around []) = List.replicate fs.length none := by
    intro step fs hstep
    rw [List.map_map]
    refine List.eq_replicate_iff.2 ⟨List.length_map _, fun x hx => ?_⟩
    obtain ⟨f, -, rfl⟩ := List.mem_map.1 hx
    rcases hstep with rfl | rfl <;> simp [around, InOperand, Inside]
  constructor
  · rw [List.map_append, List.map_append, hleft, hright]
    exact List.perm_append_comm_assoc _ _ _
  · rw [List.map_append (f := exchange []), List.map_append (f := exchange []), hleft, hright]
    simp only [List.map_append, hnone _ (.inl rfl), hnone _ (.inr rfl)]
    rw [← List.append_assoc, ← List.append_assoc, List.replicate_append_replicate,
      List.replicate_append_replicate, Nat.add_comm]

end Finding

/-! ## Reports -/

namespace Report

/-- Both reports return related results, with exchanged findings, or both are stopped, and for the
same reason if `alike` holds. -/
inductive Exchanged (alike : Prop) (target : Path) (R : α → β → Prop) : Report α → Report β → Prop
  | ok {fs fs' : List Finding} {a : α} {b : β} (h : Finding.Exchanged target fs fs') (hab : R a b) :
    Exchanged alike target R ⟨fs, .ok a⟩ ⟨fs', .ok b⟩
  | fault {fs fs' : List Finding} {reason reason' : Fault} (h : alike → reason = reason') :
    Exchanged alike target R ⟨fs, .error reason⟩ ⟨fs', .error reason'⟩

variable {alike : Prop} {target : Path} {R : α → β → Prop} {S : γ → δ → Prop}

theorem exchanged_ok {a : α} {b : β} (h : R a b) : (ok a).Exchanged alike target R (ok b) :=
  .ok (Finding.exchanged_of_outside fun _ hf => absurd hf List.not_mem_nil) h

theorem Beside.exchanged {r : Report α} (h : r.Beside target) : r.Exchanged alike target Eq r := by
  obtain ⟨findings, reason | a⟩ := r
  · exact .fault fun _ => rfl
  · exact .ok (Finding.exchanged_of_outside h) rfl

theorem Exchanged.mono {Q : α → β → Prop} {r : Report α} {r' : Report β}
    (h : r.Exchanged alike target R r') (hRQ : ∀ a b, R a b → Q a b) :
    r.Exchanged alike target Q r' := by
  cases h with
  | ok hfs hab => exact .ok hfs (hRQ _ _ hab)
  | fault hreason => exact .fault hreason

theorem Exchanged.andThen {r : Report α} {r' : Report β} {next : α → Report γ}
    {next' : β → Report δ} (h : r.Exchanged alike target R r')
    (hn : ∀ a b, R a b → (next a).Exchanged alike target S (next' b)) :
    (r.andThen next).Exchanged alike target S (r'.andThen next') := by
  cases h with
  | fault hreason => exact .fault hreason
  | @ok fs fs' a b hfs hab =>
    have hnext := hn a b hab
    unfold Report.andThen
    dsimp only
    generalize next a = s at hnext
    generalize next' b = s' at hnext
    cases hnext with
    | ok hgs hcd => exact .ok (hfs.append hgs) hcd
    | fault hreason => exact .fault hreason

theorem Exchanged.under {r : Report α} {r' : Report β} (h : r.Exchanged alike target R r')
    (step : Step) : (r.under step).Exchanged alike (step :: target) R (r'.under step) := by
  cases h with
  | ok hfs hab => exact .ok (hfs.under step) hab
  | fault hreason => exact .fault hreason

/-- The operation itself: what is said of the operands is exchanged if what follows from them is. If
both operands stop the pass, the one that comes first says why. -/
theorem exchanged_operation {left right : Report α} {own : α → α → Report β}
    (hboth : alike → ∀ reason reason', left.result = .error reason →
      right.result = .error reason' → reason = reason')
    (hown : ∀ a b, own b a = ⟨(own a b).findings.map (Finding.exchange []), (own a b).result⟩) :
    ((left.under .lhs).andThen fun a => (right.under .rhs).andThen (own a)).Exchanged alike [] Eq
      ((right.under .lhs).andThen fun b => (left.under .rhs).andThen (own b)) := by
  rcases left with ⟨fs, reason | a⟩ <;> rcases right with ⟨gs, reason' | b⟩
  · exact .fault fun halike => hboth halike reason reason' rfl rfl
  · exact .fault fun _ => rfl
  · exact .fault fun _ => rfl
  · simp only [Report.under, Report.andThen, hown a b]
    generalize own a b = r
    obtain ⟨hs, reason | c⟩ := r
    · exact .fault fun _ => rfl
    · exact .ok (Finding.exchanged_operands fs gs hs) rfl

section Operands

variable {left left' right right' : Report α} {own : α → α → Report β} {path : Path}

/-- An operation with the operation in its first operand: the second one stays. -/
theorem exchanged_lhs (h : left.Exchanged alike path Eq left')
    (hown : ∀ a b, (own a b).Beside (.lhs :: path)) :
    ((left.under .lhs).andThen fun a => (right.under .rhs).andThen (own a)).Exchanged alike
      (.lhs :: path) Eq
      ((left'.under .lhs).andThen fun a => (right.under .rhs).andThen (own a)) := by
  refine (h.under .lhs).andThen fun a _ ha => ?_
  subst ha
  exact ((beside_under (by simp) right).andThen (hown a)).exchanged

theorem exchanged_rhs (h : right.Exchanged alike path Eq right')
    (hown : ∀ a b, (own a b).Beside (.rhs :: path)) :
    ((left.under .lhs).andThen fun a => (right.under .rhs).andThen (own a)).Exchanged alike
      (.rhs :: path) Eq
      ((left.under .lhs).andThen fun a => (right'.under .rhs).andThen (own a)) := by
  refine (beside_under (by simp) left).exchanged.andThen fun a _ ha => ?_
  subst ha
  refine (h.under .rhs).andThen fun b _ hb => ?_
  subst hb
  exact (hown a b).exchanged

end Operands

end Report

namespace Passing

variable {alike : Prop} {target : Path} {R : α → β → Prop} {S : γ → δ → Prop}

/-- In every environment the reports are exchanged, and the same environment is handed on. -/
def Exchanged (alike : Prop) (target : Path) (R : α → β → Prop) (p : Passing τ α)
    (p' : Passing τ β) : Prop :=
  ∀ env, (p env).Exchanged alike target (fun r r' => R r.1 r'.1 ∧ r.2 = r'.2) (p' env)

theorem exchanged_ok {a : α} {b : β} (h : R a b) :
    (ok a : Passing τ α).Exchanged alike target R (ok b) := fun _ => Report.exchanged_ok ⟨h, rfl⟩

theorem exchanged_fault {reason reason' : Fault} (h : alike → reason = reason') :
    (fault reason : Passing τ α).Exchanged alike target R (fault reason' : Passing τ β) :=
  fun _ => .fault h

theorem exchanged_reading {report : Env τ → Report α} {report' : Env τ → Report β}
    (h : ∀ env, (report env).Exchanged alike target R (report' env)) :
    (reading report).Exchanged alike target R (reading report') := fun env =>
  (h env).andThen fun _ _ hab => Report.exchanged_ok ⟨hab, rfl⟩

/-- In every environment nothing is found inside the node. -/
def Beside (target : Path) (p : Passing τ α) : Prop := ∀ env, (p env).Beside target

theorem beside_ok (a : α) : (ok a : Passing τ α).Beside target := fun _ => Report.beside_ok _

theorem beside_reading {report : Env τ → Report α} (h : ∀ env, (report env).Beside target) :
    (reading report).Beside target := fun env => (h env).andThen fun _ => Report.beside_ok _

theorem Beside.andThen {p : Passing τ α} {next : α → Passing τ β} (h : p.Beside target)
    (hn : ∀ a, (next a).Beside target) : (p.andThen next).Beside target := fun env =>
  (h env).andThen fun r => hn r.1 r.2

theorem Beside.child {p : Passing τ α} (h : p.Beside target) : p.child.Beside target := fun env =>
  (h env).andThen fun _ => Report.beside_ok _

theorem Beside.exchanged {p : Passing τ α} (h : p.Beside target) : p.Exchanged alike target Eq p :=
  fun env => (h env).exchanged.mono fun _ _ heq =>
    ⟨congrArg Prod.fst heq, congrArg Prod.snd heq⟩

theorem Exchanged.mono {Q : α → β → Prop} {p : Passing τ α} {p' : Passing τ β}
    (h : p.Exchanged alike target R p') (hRQ : ∀ a b, R a b → Q a b) :
    p.Exchanged alike target Q p' :=
  fun env => (h env).mono fun _ _ ⟨hab, henv⟩ => ⟨hRQ _ _ hab, henv⟩

theorem Exchanged.andThen {p : Passing τ α} {p' : Passing τ β} {next : α → Passing τ γ}
    {next' : β → Passing τ δ} (h : p.Exchanged alike target R p')
    (hn : ∀ a b, R a b → (next a).Exchanged alike target S (next' b)) :
    (p.andThen next).Exchanged alike target S (p'.andThen next') := fun env =>
  (h env).andThen fun r r' ⟨hab, henv⟩ => henv ▸ hn r.1 r'.1 hab r.2

theorem Exchanged.under {p : Passing τ α} {p' : Passing τ β} (h : p.Exchanged alike target R p')
    (step : Step) : (p.under step).Exchanged alike (step :: target) R (p'.under step) := fun env =>
  (h env).under step

theorem Exchanged.child {p : Passing τ α} {p' : Passing τ β} (h : p.Exchanged alike target R p') :
    p.child.Exchanged alike target R p'.child := fun env =>
  (h env).andThen fun _ _ ⟨hab, _⟩ => Report.exchanged_ok ⟨hab, rfl⟩

end Passing

/-! ## Blocks -/

namespace Gathering

/-- What is put together of related results is related. -/
structure Congruent (G : Gathering α) (R : α → α → Prop) : Prop where
  under : ∀ (step : Step) {a b : α}, R a b → R (G.under step a) (G.under step b)
  join_left : ∀ {a b : α} (c : α), R a b → R (G.join a c) (G.join b c)
  join_right : ∀ {a b : α} (c : α), R a b → R (G.join c a) (G.join c b)

theorem congruent_eq (G : Gathering α) : G.Congruent Eq where
  under step _ _ h := congrArg (G.under step) h
  join_left c h := congrArg (G.join · c) h
  join_right c h := congrArg (G.join c) h

variable {alike : Prop} {G : Gathering α} {R : α → α → Prop} {statement : Node → Passing τ α}
  {edge : Nat → Step} {step : Step} {target : Path}

theorem beside_block {index : Nat} (hne : ∀ j, index ≤ j → edge j ≠ step) (nodes : List Node) :
    (G.block statement edge index nodes).Beside (step :: target) := by
  intro env f hf hin
  obtain ⟨j, rest, hpath, hj, -⟩ := (about_block index nodes env).findings f hf
  unfold Finding.Inside at hin
  rw [hpath] at hin
  exact hne j hj (List.cons_prefix_cons.1 hin).1.symm

theorem beside_member {s : Step} (hne : s ≠ step) (p : Passing τ α) :
    (G.member s p).Beside (step :: target) := fun env =>
  (Report.beside_under hne (p env)).andThen fun _ => Report.beside_ok _

section Grafted

variable {path : Path} {m m' : Node} {nodes : List Node} {i : Nat}

/-- In one statement of a block a node is replaced by another one. -/
theorem exchanged_block_from (hR : G.Congruent R) (hedge : Step.BlockEdge edge)
    (hat : (nodes[i]?.bind fun n => n.at? path) = some m)
    (h : ∀ n : Node, n.at? path = some m →
      (statement n).Exchanged alike path R (statement (n.graft path m'))) (index : Nat) :
    (G.block statement edge index nodes).Exchanged alike (edge (index + i) :: path) R
      (G.block statement edge index
        (Node.alterAt (fun n => some (n.graft path m')) i nodes)) := by
  induction nodes generalizing i index with
  | nil => cases hat
  | cons n ns ih =>
    cases i with
    | zero =>
      have hlater : ∀ j, index + 1 ≤ j → edge j ≠ edge index := fun j hj =>
        hedge.ne (Nat.ne_of_gt hj)
      have hmember : (G.member (edge index) (statement n)).Exchanged alike (edge index :: path) R
          (G.member (edge index) (statement (n.graft path m'))) :=
        ((h n hat).under _).andThen fun a b hab => Passing.exchanged_ok (hR.under _ hab)
      refine hmember.andThen fun a b hab => ?_
      refine (beside_block hlater ns).exchanged.andThen fun c d hcd => ?_
      subst hcd
      exact Passing.exchanged_ok (hR.join_left c hab)
    | succ i =>
      have hearlier : edge index ≠ edge (index + (i + 1)) := hedge.ne (by omega)
      have hrest := ih hat (index + 1)
      rw [show index + 1 + i = index + (i + 1) by omega] at hrest
      refine (beside_member hearlier _).exchanged.andThen fun a b hab => ?_
      subst hab
      exact hrest.andThen fun c d hcd => Passing.exchanged_ok (hR.join_right a hcd)

theorem exchanged_block (hR : G.Congruent R) (hedge : Step.BlockEdge edge)
    (hat : (nodes[i]?.bind fun n => n.at? path) = some m)
    (h : ∀ n : Node, n.at? path = some m →
      (statement n).Exchanged alike path R (statement (n.graft path m'))) :
    (G.block statement edge 0 nodes).Exchanged alike (edge i :: path) R
      (G.block statement edge 0 (Node.alterAt (fun n => some (n.graft path m')) i nodes)) := by
  have hfrom := exchanged_block_from hR hedge hat h 0
  rwa [Nat.zero_add] at hfrom

end Grafted

end Gathering

end StyleLang
