import Mathlib.Data.List.Basic
import StyleLang.Proofs.Pass.Environment
import StyleLang.Proofs.Syntax.Deletion

/-!
# Gathering what the statements of a block give

A pass over a block meets one statement after the other and puts together what they give. A
statement is a nested one if it binds nothing for the statements after it. Main statements: without
a nested statement the pass over a block says what it said before, but for what it said of the
statement; and with two nested neighbours exchanged, what it said of the two is exchanged.
-/

namespace StyleLang

/-- How results of statements are put together to the result of a block, seen from one edge further
up, and seen without a deleted node. The origins are the places of the nodes that something is left
of. -/
structure Gathering (α : Type) where
  empty : α
  join : α → α → α
  under : Step → α → α
  without : Path → α → α
  origins : α → List Path
  empty_join : ∀ a, join empty a = a
  join_assoc : ∀ a b c, join (join a b) c = join a (join b c)
  without_empty : ∀ target, without target empty = empty
  without_join : ∀ target a b,
    without target (join a b) = join (without target a) (without target b)
  without_under : ∀ target step a, without target (under step a) =
    match target.turn step with
    | .gone => empty
    | .into rest => under step (without rest a)
    | .beside step' => under step' a
  origins_empty : origins empty = []
  origins_join : ∀ a b, origins (join a b) = origins a ++ origins b
  origins_under : ∀ step a, origins (under step a) = (origins a).map (step :: ·)

variable {τ α β γ δ : Type}

/-! ## Passings without a deleted node -/

namespace Passing

theorem andThen_ok (p : Passing τ α) : p.andThen ok = p := by
  funext env
  exact Report.andThen_ok (p env)

@[simp] theorem ok_andThen (a : α) (next : α → Passing τ β) : (ok a).andThen next = next a := rfl

theorem andThen_assoc (p : Passing τ α) (f : α → Passing τ β) (g : β → Passing τ γ) :
    (p.andThen f).andThen g = p.andThen fun a => (f a).andThen g := by
  funext env
  exact Report.andThen_assoc (p env) _ _

/-- The passing with the findings that are left when the node at the end of the path is deleted. -/
def without (target : Path) (f : α → β) (p : Passing τ α) : Passing τ β := fun env =>
  ⟨(p env).findings.filterMap (Finding.without target), (p env).result.map fun r => (f r.1, r.2)⟩

theorem without_ok (target : Path) (f : α → β) (a : α) :
    (ok a : Passing τ α).without target f = ok (f a) := rfl

theorem without_andThen {target : Path} {f : β → γ} {g : α → δ} {p : Passing τ α}
    {p' : Passing τ δ} {next : α → Passing τ β} {next' : δ → Passing τ γ}
    (hp : p.without target g = p') (h : ∀ a, (next a).without target f = next' (g a)) :
    (p.andThen next).without target f = p'.andThen next' := by
  rw [← hp]
  funext env
  dsimp only [without, andThen, Report.andThen]
  rcases p env with ⟨findings, _ | ⟨a, env'⟩⟩
  · rfl
  · have ha := congrFun (h a) env'
    dsimp only [without] at ha
    simp only [Except.map, ← ha, List.filterMap_append]

theorem without_child (target : Path) (f : α → β) (p : Passing τ α) :
    p.child.without target f = (p.without target f).child := by
  funext env
  dsimp only [without, child, Report.andThen]
  rcases p env with ⟨findings, _ | ⟨a, env'⟩⟩
  · rfl
  · simp [Except.map, Report.ok]

/-- A report is not changed if its findings are about nodes that stay at their places. -/
theorem without_reading {target : Path} {report : Env τ → Report α}
    (h : ∀ env, ∀ f ∈ (report env).findings, target.without f.path = some f.path) :
    (reading report).without target id = reading report := by
  funext env
  have hkeep : (report env).findings.filterMap (Finding.without target) =
      (report env).findings := by
    have hsome : ∀ f ∈ (report env).findings, f.without target = some f := by
      intro f hf
      rw [Finding.without, h env f hf]
      rfl
    rw [List.filterMap_congr hsome, List.filterMap_some]
  dsimp only [without, reading, Report.andThen]
  generalize report env = r at hkeep
  obtain ⟨findings, _ | a⟩ := r
  · rw [hkeep]
    rfl
  · rw [List.filterMap_append, hkeep]
    rfl

/-- Whatever it meets, the passing returns and binds nothing for what comes after it. -/
def BindsNothing (p : Passing τ α) : Prop := ∀ env, ∃ findings a, p env = ⟨findings, .ok (a, env)⟩

end Passing

namespace Gathering

variable (G : Gathering α)

/-- A statement, as one at the end of an edge. -/
def member (step : Step) (p : Passing τ α) : Passing τ α :=
  (p.under step).andThen fun a => .ok (G.under step a)

/-- The statements of a block in order; `edge` leads to the one at an index. -/
def block (statement : Node → Passing τ α) (edge : Nat → Step) (index : Nat) :
    List Node → Passing τ α
  | [] => .ok G.empty
  | n :: ns => (G.member (edge index) (statement n)).andThen fun a =>
    (block statement edge (index + 1) ns).andThen fun b => .ok (G.join a b)

variable {G}

/-! ## One statement -/

theorem member_gone {target : Path} {step : Step} (h : target.turn step = .gone)
    {p : Passing τ α} {env : Env τ} {findings : List Finding} {a : α}
    (hp : p env = ⟨findings, .ok (a, env)⟩) :
    ((G.member step p).without target (G.without target)) env = Passing.ok G.empty env := by
  dsimp only [member, Passing.without, Passing.andThen, Passing.under, Report.under, Report.andThen]
  rw [hp]
  simp [Except.map, Passing.ok, Report.ok, List.filterMap_map, Finding.without_under_gone h,
    G.without_under, h]

theorem member_into {target rest : Path} {step : Step} (h : target.turn step = .into rest)
    (p : Passing τ α) : (G.member step p).without target (G.without target) =
      G.member step (p.without rest (G.without rest)) := by
  funext env
  dsimp only [member, Passing.without, Passing.andThen, Passing.under, Report.under, Report.andThen]
  rcases p env with ⟨findings, _ | ⟨a, env'⟩⟩
  · simp [Except.map, List.filterMap_map, List.map_filterMap, Finding.without_under_into h]
  · simp [Except.map, Passing.ok, Report.ok, List.filterMap_map, List.map_filterMap,
      Finding.without_under_into h, G.without_under, h]

theorem member_beside {target : Path} {step step' : Step} (h : target.turn step = .beside step')
    (p : Passing τ α) :
    (G.member step p).without target (G.without target) = G.member step' p := by
  funext env
  dsimp only [member, Passing.without, Passing.andThen, Passing.under, Report.under, Report.andThen]
  rcases p env with ⟨findings, _ | ⟨a, env'⟩⟩
  · simp [Except.map, List.filterMap_map, Finding.without_under_beside h]
  · simp [Except.map, Passing.ok, Report.ok, List.filterMap_map, Finding.without_under_beside h,
      G.without_under, h]

/-! ## Blocks -/

section Blocks

variable {statement : Node → Passing τ α} {edge edge' : Nat → Step} {target : Path}

theorem without_block_cons (index : Nat) (n : Node) (ns : List Node) :
    (G.block statement edge index (n :: ns)).without target (G.without target) =
      ((G.member (edge index) (statement n)).without target (G.without target)).andThen fun a =>
        ((G.block statement edge (index + 1) ns).without target (G.without target)).andThen
          fun b => .ok (G.join a b) := by
  refine Passing.without_andThen rfl fun a => Passing.without_andThen rfl fun b => ?_
  rw [Passing.without_ok, G.without_join]

/-- A block whose statements all stay, maybe at other edges, is not changed. -/
theorem block_beside {index index' : Nat}
    (h : ∀ j, target.turn (edge (index + j)) = .beside (edge' (index' + j))) (nodes : List Node) :
    (G.block statement edge index nodes).without target (G.without target) =
      G.block statement edge' index' nodes := by
  induction nodes generalizing index index' with
  | nil =>
    rw [block, block, Passing.without_ok, G.without_empty]
  | cons n ns ih =>
    have hrest : ∀ j, target.turn (edge (index + 1 + j)) = .beside (edge' (index' + 1 + j)) := by
      intro j
      rw [Nat.add_assoc, Nat.add_assoc, Nat.add_comm 1 j]
      exact h (j + 1)
    have hfirst : target.turn (edge index) = .beside (edge' index') := h 0
    rw [without_block_cons, member_beside hfirst, ih hrest]
    rfl

/-- Without the node at the end of the path, nothing but what was said of it changes, and if it is
the statement itself, that binds nothing. -/
def Spares (G : Gathering α) (statement : Node → Passing τ α) (path : Path) (n : Node) : Prop :=
  match n.erase path with
  | none => (statement n).BindsNothing
  | some n' => statement n' = (statement n).without path (G.without path)

theorem block_erase (hedge : Step.BlockEdge edge) {path : Path} {i : Nat} {n : Node}
    {nodes : List Node} (hn : nodes[i]? = some n) (h : G.Spares statement path n) (index : Nat) :
    G.block statement edge index (Node.alterAt (Node.erase path) i nodes) =
      (G.block statement edge index nodes).without (edge (index + i) :: path)
        (G.without (edge (index + i) :: path)) := by
  induction nodes generalizing i index with
  | nil => cases hn
  | cons m ns ih =>
    cases i with
    | zero =>
      obtain rfl : m = n := by simpa using hn
      rw [without_block_cons, Nat.add_zero]
      cases path with
      | nil =>
        have hafter : ∀ j, Path.turn [edge index] (edge (index + 1 + j)) =
            .beside (edge (index + j)) := by
          intro j
          rw [Nat.add_right_comm]
          exact hedge.turn_gt (Nat.le_add_right _ _)
        rw [block_beside hafter]
        funext env
        obtain ⟨findings, a, hm⟩ := h env
        have hgone := member_gone (G := G) (Path.turn_self (edge index)) hm
        dsimp only [Passing.andThen]
        rw [hgone]
        simp only [Passing.ok, Report.ok_andThen, G.empty_join]
        exact (Report.andThen_ok _).symm
      | cons s path =>
        have hne : s :: path ≠ [] := List.cons_ne_nil s path
        have hafter : ∀ j, Path.turn (edge index :: s :: path) (edge (index + 1 + j)) =
            .beside (edge (index + 1 + j)) := fun j => hedge.turn_ne (by omega) hne
        have hm : statement (m.alter (Node.erase path) s) =
            (statement m).without (s :: path) (G.without (s :: path)) := h
        rw [block_beside hafter, member_into (Path.turn_into hne), ← hm]
        rfl
    | succ i =>
      have hbefore : Path.turn (edge (index + (i + 1)) :: path) (edge index) =
          .beside (edge index) := hedge.turn_lt (by omega) path
      have hrest := ih (i := i) hn (index + 1)
      rw [show index + 1 + i = index + (i + 1) by omega] at hrest
      rw [without_block_cons, member_beside hbefore, ← hrest]
      rfl

/-! ## Neighbours -/

theorem block_append (index : Nat) (before after : List Node) :
    G.block statement edge index (before ++ after) =
      (G.block statement edge index before).andThen fun a =>
        (G.block statement edge (index + before.length) after).andThen
          fun b => .ok (G.join a b) := by
  induction before generalizing index with
  | nil =>
    simp only [List.nil_append, block, List.length_nil, Nat.add_zero, Passing.ok_andThen,
      G.empty_join]
    exact (Passing.andThen_ok _).symm
  | cons n ns ih =>
    have hindex : index + (n :: ns).length = index + 1 + ns.length := by
      rw [List.length_cons]
      omega
    simp only [List.cons_append, block, ih, hindex, Passing.andThen_assoc, Passing.ok_andThen,
      G.join_assoc]

theorem member_eq {step : Step} {p : Passing τ α} {env env' : Env τ} {findings : List Finding}
    {a : α} (h : p env = ⟨findings, .ok (a, env')⟩) : G.member step p env =
      ⟨findings.map (Finding.under step), .ok (G.under step a, env')⟩ := by
  dsimp only [member, Passing.andThen, Passing.under, Report.under, Report.andThen]
  rw [h]
  simp [Passing.ok, Report.ok]

/-- The report is about nodes at such places only. -/
structure About (G : Gathering α) (P : Path → Prop) (r : Report (α × Env τ)) : Prop where
  findings : ∀ f ∈ r.findings, P f.path
  origins : ∀ a env, r.result = .ok (a, env) → ∀ path ∈ G.origins a, P path

theorem about_member {P : Path → Prop} {step : Step} (hP : ∀ path, P (step :: path))
    (p : Passing τ α) (env : Env τ) : G.About P (G.member step p env) := by
  dsimp only [member, Passing.andThen, Passing.under, Report.under, Report.andThen]
  rcases p env with ⟨findings, _ | ⟨a, env'⟩⟩
  · refine ⟨fun f hf => ?_, fun a env h => by cases h⟩
    obtain ⟨g, -, rfl⟩ := List.mem_map.1 hf
    exact hP g.path
  · refine ⟨fun f hf => ?_, fun b env h path hpath => ?_⟩
    · simp only [Passing.ok, Report.ok, List.append_nil] at hf
      obtain ⟨g, -, rfl⟩ := List.mem_map.1 hf
      exact hP g.path
    · obtain ⟨rfl, -⟩ := Prod.mk.inj (Except.ok.inj h)
      rw [G.origins_under] at hpath
      obtain ⟨rest, -, rfl⟩ := List.mem_map.1 hpath
      exact hP rest

theorem About.join {P : Path → Prop} {p q : Passing τ α} {env : Env τ} (hp : G.About P (p env))
    (hq : ∀ env', G.About P (q env')) :
    G.About P ((p.andThen fun a => q.andThen fun b => .ok (G.join a b)) env) := by
  dsimp only [Passing.andThen, Report.andThen]
  rcases hr : p env with ⟨findings, _ | ⟨a, env'⟩⟩
  · rw [hr] at hp
    exact ⟨hp.findings, fun a env h => by cases h⟩
  · have hrest := hq env'
    dsimp only
    rcases hr' : q env' with ⟨findings', _ | ⟨b, env''⟩⟩
    · rw [hr] at hp
      rw [hr'] at hrest
      exact ⟨fun f hf => (List.mem_append.1 hf).elim (hp.findings f) (hrest.findings f),
        fun a env h => by cases h⟩
    · rw [hr] at hp
      rw [hr'] at hrest
      refine ⟨fun f hf => ?_, fun c env h path hpath => ?_⟩
      · simp only [Passing.ok, Report.ok, List.append_nil, List.mem_append] at hf
        exact hf.elim (hp.findings f) (hrest.findings f)
      · obtain ⟨rfl, -⟩ := Prod.mk.inj (Except.ok.inj h)
        rw [G.origins_join, List.mem_append] at hpath
        exact hpath.elim (hp.origins a env' rfl path) (hrest.origins b env'' rfl path)

theorem About.mono {P Q : Path → Prop} {r : Report (α × Env τ)} (h : G.About P r)
    (hPQ : ∀ path, P path → Q path) : G.About Q r :=
  ⟨fun f hf => hPQ _ (h.findings f hf), fun a env hr path hp => hPQ _ (h.origins a env hr path hp)⟩

/-- The path starts with one of the edges with so many indices. -/
def AmongEdges (edge : Nat → Step) (index count : Nat) (path : Path) : Prop :=
  ∃ j rest, path = edge j :: rest ∧ index ≤ j ∧ j < index + count

/-- What is said of a block is about nodes at the ends of its edges. -/
theorem about_block (index : Nat) (nodes : List Node) (env : Env τ) :
    G.About (AmongEdges edge index nodes.length) (G.block statement edge index nodes env) := by
  induction nodes generalizing index env with
  | nil =>
    refine ⟨fun f hf => absurd hf List.not_mem_nil, fun a env h path hpath => ?_⟩
    obtain ⟨rfl, -⟩ := Prod.mk.inj (Except.ok.inj h)
    rw [G.origins_empty] at hpath
    cases hpath
  | cons n ns ih =>
    have hfirst : ∀ path, AmongEdges edge index (n :: ns).length (edge index :: path) := by
      intro path
      rw [List.length_cons]
      exact ⟨index, path, rfl, Nat.le_refl _, by omega⟩
    refine (about_member hfirst _ env).join fun env' => (ih (index + 1) env').mono ?_
    rintro _ ⟨j, rest, rfl, hle, hlt⟩
    rw [List.length_cons]
    exact ⟨j, rest, rfl, by omega, by omega⟩

/-- The path starts with another edge than those with the given index and the next one. -/
def Elsewhere (edge : Nat → Step) (i : Nat) (path : Path) : Prop :=
  ∃ j rest, path = edge j :: rest ∧ j ≠ i ∧ j ≠ i + 1

/-- What is said of a block with two neighbours in it: of the statements before them, of the two as
seen from themselves, and of the statements after them. -/
structure Neighbours (α : Type) where
  before : List Finding × α
  left : List Finding × α
  right : List Finding × α
  after : List Finding × α

namespace Neighbours

def exchange (s : Neighbours α) : Neighbours α := { s with left := s.right, right := s.left }

/-- The findings, with the left one of the two at the given index. -/
def findings (s : Neighbours α) (edge : Nat → Step) (i : Nat) : List Finding :=
  s.before.1 ++ s.left.1.map (Finding.under (edge i)) ++
    s.right.1.map (Finding.under (edge (i + 1))) ++ s.after.1

def result (s : Neighbours α) (G : Gathering α) (edge : Nat → Step) (i : Nat) : α :=
  G.join s.before.2 (G.join (G.under (edge i) s.left.2)
    (G.join (G.under (edge (i + 1)) s.right.2) s.after.2))

/-- What is said of the statements before and after the two is about none of the two. -/
structure Apart (s : Neighbours α) (G : Gathering α) (edge : Nat → Step) (i : Nat) : Prop where
  findings : ∀ f ∈ s.before.1 ++ s.after.1, Elsewhere edge i f.path
  origins : ∀ path ∈ G.origins s.before.2 ++ G.origins s.after.2, Elsewhere edge i path

end Neighbours

/-- What two statements that bind nothing say at the front of a block. -/
theorem block_pair {n m : Node} {nodes : List Node} {index : Nat} {env env' : Env τ}
    {fs gs hs : List Finding} {a b c : α} (hn : statement n env = ⟨fs, .ok (a, env)⟩)
    (hm : statement m env = ⟨gs, .ok (b, env)⟩)
    (hnodes : G.block statement edge (index + 2) nodes env = ⟨hs, .ok (c, env')⟩) :
    G.block statement edge index (n :: m :: nodes) env =
      ⟨fs.map (Finding.under (edge index)) ++ (gs.map (Finding.under (edge (index + 1))) ++ hs),
        .ok (G.join (G.under (edge index) a) (G.join (G.under (edge (index + 1)) b) c), env')⟩ := by
  simp [block, Passing.andThen, Report.andThen, member_eq hn, member_eq hm, hnodes, Passing.ok,
    Report.ok]

theorem exchange_apart {before after : List Node} {env env' last : Env τ} {x y : α}
    {fs gs : List Finding} {left right : List Finding × α}
    (hx : G.block statement edge 0 before env = ⟨fs, .ok (x, env')⟩)
    (hy : G.block statement edge (before.length + 2) after env' = ⟨gs, .ok (y, last)⟩) :
    (Neighbours.mk (fs, x) left right (gs, y)).Apart G edge before.length := by
  have hbefore := @about_block _ _ G statement edge 0 before env
  have hafter := @about_block _ _ G statement edge (before.length + 2) after env'
  rw [hx] at hbefore
  rw [hy] at hafter
  have hlow : ∀ path, AmongEdges edge 0 before.length path → Elsewhere edge before.length path :=
    fun path ⟨j, rest, hpath, _, hj⟩ => ⟨j, rest, hpath, by omega, by omega⟩
  have hhigh : ∀ path, AmongEdges edge (before.length + 2) after.length path →
      Elsewhere edge before.length path :=
    fun path ⟨j, rest, hpath, hj, _⟩ => ⟨j, rest, hpath, by omega, by omega⟩
  constructor
  · intro f hf
    rcases List.mem_append.1 hf with hf | hf
    · exact hlow _ (hbefore.findings f hf)
    · exact hhigh _ (hafter.findings f hf)
  · intro path hpath
    rcases List.mem_append.1 hpath with hpath | hpath
    · exact hlow _ (hbefore.origins x env' rfl path hpath)
    · exact hhigh _ (hafter.origins y last rfl path hpath)

/-- Two neighbours that bind nothing may be exchanged: what is said of either of them is the same,
at its new index, and what is said of the others is the same. -/
theorem block_exchange {before after : List Node} {n m : Node} {env : Env τ} {r : α × Env τ}
    (hn : (statement n).BindsNothing) (hm : (statement m).BindsNothing)
    (h : (G.block statement edge 0 (before ++ n :: m :: after) env).result = .ok r) :
    ∃ (s : Neighbours α) (mid last : Env τ),
      statement n mid = ⟨s.left.1, .ok (s.left.2, mid)⟩ ∧
      statement m mid = ⟨s.right.1, .ok (s.right.2, mid)⟩ ∧ s.Apart G edge before.length ∧
      G.block statement edge 0 (before ++ n :: m :: after) env =
        ⟨s.findings edge before.length, .ok (s.result G edge before.length, last)⟩ ∧
      G.block statement edge 0 (before ++ m :: n :: after) env =
        ⟨s.exchange.findings edge before.length,
          .ok (s.exchange.result G edge before.length, last)⟩ := by
  have happend : ∀ nodes, G.block statement edge 0 (before ++ nodes) env =
      (G.block statement edge 0 before env).andThen fun r =>
        (G.block statement edge before.length nodes r.2).andThen fun r' =>
          Passing.ok (G.join r.1 r'.1) r'.2 := by
    intro nodes
    rw [block_append, Nat.zero_add]
    rfl
  rw [happend] at h
  rcases hbefore : G.block statement edge 0 before env with ⟨fs, _ | ⟨x, mid⟩⟩
  · rw [hbefore] at h
    cases h
  obtain ⟨ns, a, ha⟩ := hn mid
  obtain ⟨ms, b, hb⟩ := hm mid
  rcases hafter : G.block statement edge (before.length + 2) after mid with ⟨gs, _ | ⟨y, last⟩⟩
  · rw [hbefore] at h
    simp [block, Passing.andThen, Report.andThen, member_eq ha, member_eq hb, hafter] at h
  refine ⟨⟨(fs, x), (ns, a), (ms, b), (gs, y)⟩, mid, last, ha, hb, exchange_apart hbefore hafter,
    ?_, ?_⟩
  · rw [happend, hbefore]
    simp [Report.andThen, block_pair ha hb hafter, Passing.ok, Report.ok, Neighbours.findings,
      Neighbours.result]
  · rw [happend, hbefore]
    simp [Report.andThen, block_pair hb ha hafter, Passing.ok, Report.ok, Neighbours.findings,
      Neighbours.result, Neighbours.exchange]

end Blocks

end Gathering

end StyleLang
