import StyleLang.Proofs.Css.Numbers
import StyleLang.Proofs.Syntax.Order
import StyleLang.Proofs.Syntax.Place

/-!
# What has no CSS

A tree has a CSS text if its items are rules, what stands in the rules declares literals, and no
number in them is too long. Whatever else stands in one of these places is an offence. Main
statement: a tree without offences has a text, any other is refused for the first offence in the
order of the tree, and the texts of two parts of a tree make up the text of the whole.
-/

namespace StyleLang

/-- The node is a number that is too long, or the message says what kind of node it is. -/
def CssError.Accuses (reason : CssError) (n : Node) : Prop :=
  (reason = .numberTooLong ∧
    ∃ pos m k, n = .literal pos (.number m k) ∧ digitLimit < digitCount k) ∨
  ∃ before after, reason.message = before ++ n.kindName ++ after

namespace Css

/-! ## Offences -/

/-- Something about a statement in a rule that has no text: where it is, from the statement on, and
what it is refused for. -/
inductive LineOffence : Node → Path → CssError → Prop where
  | misplaced {n : Node} : (∀ pos property e, n ≠ .declaration pos property e) →
    LineOffence n [] (.notDeclaration n.kindName)
  | unevaluated {pos : Position} {property : String} {e : Node} :
    (∀ pos value, e ≠ .literal pos value) →
    LineOffence (.declaration pos property e) [.expression] (.notLiteral property e.kindName)
  | tooLong {pos pos' : Position} {property : String} {m : Measure} {k : Int} :
    digitLimit < digitCount k →
    LineOffence (.declaration pos property (.literal pos' (.number m k))) [.expression]
      .numberTooLong

/-- An offence of one of the nodes, seen from where the edges to them start. -/
def Among (edge : Nat → Step) (nodes : List Node) (offence : Node → Path → CssError → Prop)
    (path : Path) (reason : CssError) : Prop :=
  ∃ i n rest, nodes[i]? = some n ∧ path = edge i :: rest ∧ offence n rest reason

inductive ItemOffence : Node → Path → CssError → Prop where
  | misplaced {n : Node} : n.isRule = false → ItemOffence n [] (.notRule n.kindName)
  | body {pos : Position} {selectors body : List Node} {path : Path} {reason : CssError} :
    Among .body body LineOffence path reason → ItemOffence (.rule pos selectors body) path reason

end Css

open Css

/-- Something in the tree that has no text, its place and what the tree is refused for. -/
def Stylesheet.Offends (sheet : Stylesheet) : Path → CssError → Prop :=
  Among .item sheet.items ItemOffence

namespace Css

/-- No offence comes before the one at the path. -/
def FirstOffence (offence : Path → CssError → Prop) (path : Path) (reason : CssError) : Prop :=
  offence path reason ∧ ∀ other reason', offence other reason' → other = path ∨ path.Earlier other

/-- There is a text if nothing offends, and else the first offence is to blame. -/
def Blames {α : Type} (offence : Path → CssError → Prop) : Except CssError α → Prop
  | .ok _ => ∀ path reason, ¬ offence path reason
  | .error reason => ∃ path, FirstOffence offence path reason

section Blames

variable {α β : Type} {offence : Path → CssError → Prop}

theorem Blames.congr {offence' : Path → CssError → Prop} {x : Except CssError α}
    (h : Blames offence x) (heq : ∀ path reason, offence' path reason ↔ offence path reason) :
    Blames offence' x := by
  obtain rfl : offence' = offence := funext fun path => funext fun reason => propext (heq _ _)
  exact h

theorem Blames.map {x : Except CssError α} (h : Blames offence x) (f : α → β) :
    Blames offence (x >>= fun a => pure (f a)) := by
  cases x <;> exact h

/-- Where nothing else offends the one place that does is to blame. -/
theorem blames_only {reason : CssError} {path : Path} (h : offence path reason)
    (honly : ∀ other reason', offence other reason' → other = path) :
    Blames offence (.error reason : Except CssError α) :=
  ⟨path, h, fun other reason' h' => .inl (honly other reason' h')⟩

theorem FirstOffence.path_unique {p q : Path} {reason reason' : CssError}
    (h : FirstOffence offence p reason) (h' : FirstOffence offence q reason') : p = q := by
  rcases h.2 q reason' h'.1 with rfl | hpq
  · rfl
  · rcases h'.2 p reason h.1 with rfl | hqp
    · rfl
    · exact absurd (hpq.trans hqp) (Path.not_earlier_self p)

theorem Blames.exists_ok_iff {x : Except CssError α} (h : Blames offence x) :
    (∃ a, x = .ok a) ↔ ∀ path reason, ¬ offence path reason := by
  cases x with
  | ok a => exact ⟨fun _ => h, fun _ => ⟨a, rfl⟩⟩
  | error reason =>
    obtain ⟨path, hfirst⟩ := h
    constructor
    · rintro ⟨a, ha⟩
      cases ha
    · intro hnone
      exact absurd hfirst.1 (hnone path reason)

/-- The reason is that of the first offence, if there is one reason for each place. -/
theorem Blames.eq_error_iff {x : Except CssError α} (h : Blames offence x)
    (hunique : ∀ path reason reason', offence path reason → offence path reason' →
      reason = reason') (reason : CssError) :
    x = .error reason ↔ ∃ path, FirstOffence offence path reason := by
  constructor
  · rintro rfl
    exact h
  · rintro ⟨path, hfirst⟩
    cases x with
    | ok a => exact absurd hfirst.1 (h path reason)
    | error reason' =>
      obtain ⟨path', hfirst'⟩ := h
      obtain rfl := hfirst.path_unique hfirst'
      rw [hunique _ _ _ hfirst.1 hfirst'.1]

/-- What a partial map fails with comes from the first member that fails. -/
theorem exists_of_mapM_eq_error {ε : Type} {f : α → Except ε β} {as : List α} {e : ε}
    (h : as.mapM f = .error e) :
    ∃ front a back, as = front ++ a :: back ∧ f a = .error e ∧ ∀ a ∈ front, ∃ b, f a = .ok b := by
  induction as with
  | nil => cases h
  | cons a as ih =>
    cases ha : f a with
    | error e' =>
      rw [List.mapM_cons, ha] at h
      cases h
      exact ⟨[], a, as, rfl, ha, fun _ hm => absurd hm List.not_mem_nil⟩
    | ok b =>
      have hrest : as.mapM f = .error e := by
        rw [List.mapM_cons, ha] at h
        cases hm : as.mapM f with
        | error e' =>
          rw [hm] at h
          exact h
        | ok bs =>
          rw [hm] at h
          cases h
      obtain ⟨front, a', back, rfl, ha', hfront⟩ := ih hrest
      exact ⟨a :: front, a', back, rfl, ha', List.forall_mem_cons.2 ⟨⟨b, ha⟩, hfront⟩⟩

/-- Of several nodes the first one with an offence is to blame. -/
theorem blames_mapM {edge : Nat → Step} {f : Node → Except CssError β}
    {offence : Node → Path → CssError → Prop} {nodes : List Node}
    (hstage : ∀ i j, (edge i).stage = (edge j).stage) (hindex : ∀ i, (edge i).index = i)
    (h : ∀ n ∈ nodes, Blames (offence n) (f n)) :
    Blames (Among edge nodes offence) (nodes.mapM f) := by
  cases hmap : nodes.mapM f with
  | ok bs =>
    rintro path reason ⟨i, n, rest, hn, rfl, hoffence⟩
    have hmem := List.mem_of_getElem? hn
    have hblames := h n hmem
    obtain ⟨b, hb⟩ := exists_of_mapM hmap hmem
    rw [hb] at hblames
    exact hblames rest reason hoffence
  | error reason =>
    obtain ⟨front, n, back, rfl, hn, hfront⟩ := exists_of_mapM_eq_error hmap
    have hblames := h n (List.mem_append_right _ List.mem_cons_self)
    rw [hn] at hblames
    obtain ⟨rest, hoffence, hfirst⟩ := hblames
    refine ⟨edge front.length :: rest, ⟨_, n, rest, by simp, rfl, hoffence⟩, ?_⟩
    rintro other reason' ⟨i, m, rest', hm, rfl, hoffence'⟩
    rcases Nat.lt_trichotomy i front.length with hi | rfl | hi
    · -- the nodes before have texts
      rw [List.getElem?_append_left hi] at hm
      have hmem := List.mem_of_getElem? hm
      have hblames := h m (List.mem_append_left _ hmem)
      obtain ⟨b, hb⟩ := hfront m hmem
      rw [hb] at hblames
      exact absurd hoffence' (hblames rest' reason')
    · obtain rfl : n = m := by simpa using hm
      rcases hfirst rest' reason' hoffence' with rfl | hearlier
      · exact .inl rfl
      · exact .inr (.inside _ hearlier)
    · refine .inr (.apart (.inr ⟨hstage _ _, ?_⟩))
      show (edge front.length).index < (edge i).index
      rwa [hindex, hindex]

end Blames

/-! ## Who is to blame -/

theorem blames_line (n : Node) : Blames (LineOffence n) (declaration n) := by
  cases n with
  | declaration pos property e =>
    cases e with
    | literal pos' value =>
      cases hp : value.printable with
      | true =>
        have hprint : print (.literal pos' value) = .ok value.text := if_pos hp
        rw [declaration, hprint]
        rintro path reason (hmisplaced | hunevaluated | hlong)
        · exact hmisplaced pos property _ rfl
        · exact hunevaluated pos' value rfl
        · exact absurd (of_decide_eq_true hp) (Nat.not_le.2 hlong)
      | false =>
        obtain ⟨m, k, rfl, hlong⟩ := Value.printable_eq_false_iff.1 hp
        have hprint : print (.literal pos' (.number m k)) = .error .numberTooLong :=
          if_neg (Bool.eq_false_iff.1 hp)
        rw [declaration, hprint]
        refine blames_only (LineOffence.tooLong hlong) fun other reason h => ?_
        cases h with
        | misplaced h => exact absurd rfl (h pos property _)
        | unevaluated | tooLong => rfl
    | _ =>
      refine blames_only (LineOffence.unevaluated fun _ _ h => by cases h) fun other reason h => ?_
      cases h with
      | misplaced h => exact absurd rfl (h pos property _)
      | unevaluated => rfl
  | _ =>
    refine blames_only (LineOffence.misplaced fun _ _ _ h => by cases h) fun other reason h => ?_
    cases h
    rfl

theorem itemOffence_rule_iff {pos : Position} {selectors body : List Node} {path : Path}
    {reason : CssError} :
    ItemOffence (.rule pos selectors body) path reason ↔
      Among .body body LineOffence path reason := by
  constructor
  · rintro (hrule | hbody)
    · cases hrule
    · exact hbody
  · exact .body

/-- A rule whose selectors are selectors is refused for its statements only. -/
theorem blames_item {n : Node} (hselectors : ∀ pos selectors body, n = .rule pos selectors body →
    ∀ s ∈ selectors, ∃ pos kind name, s = .selector pos kind name) (indent : String) :
    Blames (ItemOffence n) (rule indent n) := by
  cases n with
  | rule pos selectors body =>
    have hprinted : selectors.all Node.printable = true := by
      refine List.all_eq_true.2 fun s hs => ?_
      obtain ⟨pos, kind, name, rfl⟩ := hselectors _ _ _ rfl s hs
      rfl
    have hprints := prints_mapM fun s (_ : s ∈ selectors) => prints_print s
    rw [hprinted] at hprints
    obtain ⟨-, names, hnames⟩ := hprints.resolve_right fun h => Bool.noConfusion h.1
    have hbody : Blames (Among .body body LineOffence) (body.mapM declaration) :=
      blames_mapM (fun _ _ => rfl) (fun _ => rfl) fun m _ => blames_line m
    rw [rule, hnames]
    exact (hbody.map _).congr fun path reason => itemOffence_rule_iff
  | _ =>
    refine blames_only (ItemOffence.misplaced rfl) fun other reason h => ?_
    cases h
    rfl

/-! ## One reason for a place -/

theorem LineOffence.unique {n : Node} {path : Path} {reason reason' : CssError}
    (h : LineOffence n path reason) (h' : LineOffence n path reason') : reason = reason' := by
  cases h with
  | misplaced => cases h'; rfl
  | unevaluated hne =>
    cases h' with
    | unevaluated => rfl
    | tooLong => exact absurd rfl (hne _ _)
  | tooLong =>
    cases h' with
    | unevaluated hne => exact absurd rfl (hne _ _)
    | tooLong => rfl

theorem Among.unique {edge : Nat → Step} {nodes : List Node}
    {offence : Node → Path → CssError → Prop} (hedge : ∀ i, (edge i).index = i)
    (hunique : ∀ n path reason reason', offence n path reason → offence n path reason' →
      reason = reason') {path : Path} {reason reason' : CssError}
    (h : Among edge nodes offence path reason) (h' : Among edge nodes offence path reason') :
    reason = reason' := by
  obtain ⟨i, n, rest, hn, rfl, hoffence⟩ := h
  obtain ⟨j, m, rest', hm, hpath, hoffence'⟩ := h'
  obtain ⟨hij, rfl⟩ := List.cons.inj hpath
  have hindex := congrArg Step.index hij
  rw [hedge, hedge] at hindex
  subst hindex
  obtain rfl := Option.some.inj (hn.symm.trans hm)
  exact hunique n rest reason reason' hoffence hoffence'

theorem ItemOffence.unique {n : Node} {path : Path} {reason reason' : CssError}
    (h : ItemOffence n path reason) (h' : ItemOffence n path reason') : reason = reason' := by
  cases h with
  | misplaced => cases h' with
    | misplaced => rfl
    | body => contradiction
  | body h =>
    have hlines : ∀ n path reason reason', LineOffence n path reason →
        LineOffence n path reason' → reason = reason' := fun _ _ _ _ => LineOffence.unique
    exact h.unique (fun _ => rfl) hlines (itemOffence_rule_iff.1 h')

/-! ## What is found at an offence -/

theorem LineOffence.found {n : Node} {path : Path} {reason : CssError}
    (h : LineOffence n path reason) : ∃ m, n.at? path = some m ∧ reason.Accuses m := by
  cases h with
  | misplaced => exact ⟨n, rfl, .inr ⟨_, _, rfl⟩⟩
  | unevaluated => exact ⟨_, rfl, .inr ⟨_, _, rfl⟩⟩
  | tooLong hlong => exact ⟨_, rfl, .inl ⟨rfl, _, _, _, rfl, hlong⟩⟩

theorem Among.found {edge : Nat → Step} {nodes : List Node}
    {offence : Node → Path → CssError → Prop} {parent : Node}
    (hchild : ∀ i, parent.child? (edge i) = nodes[i]?)
    (hfound : ∀ n path reason, offence n path reason →
      ∃ m, n.at? path = some m ∧ reason.Accuses m)
    {path : Path} {reason : CssError} (h : Among edge nodes offence path reason) :
    ∃ m, parent.at? path = some m ∧ reason.Accuses m := by
  obtain ⟨i, n, rest, hn, rfl, hoffence⟩ := h
  rw [Node.at?_cons, hchild, hn]
  exact hfound n rest reason hoffence

theorem ItemOffence.found {n : Node} {path : Path} {reason : CssError}
    (h : ItemOffence n path reason) : ∃ m, n.at? path = some m ∧ reason.Accuses m := by
  cases h with
  | misplaced => exact ⟨n, rfl, .inr ⟨_, _, rfl⟩⟩
  | body h => exact h.found (fun _ => rfl) fun _ _ _ => LineOffence.found

/-! ## Trees without offences -/

/-- A declaration of a literal whose number, if it is one, is not too long. -/
def IsPrintableLine (n : Node) : Prop :=
  ∃ pos property pos' value, n = .declaration pos property (.literal pos' value) ∧
    ∀ m k, value = .number m k → digitCount k ≤ digitLimit

def IsPrintableRule (n : Node) : Prop :=
  ∃ pos selectors body, n = .rule pos selectors body ∧ ∀ m ∈ body, IsPrintableLine m

theorem isPrintableLine_iff {n : Node} :
    IsPrintableLine n ↔ ∀ path reason, ¬ LineOffence n path reason := by
  constructor
  · rintro ⟨pos, property, pos', value, rfl, hshort⟩ path reason h
    cases h with
    | misplaced h => exact h pos property _ rfl
    | unevaluated h => exact h pos' value rfl
    | tooLong h => exact absurd (hshort _ _ rfl) (Nat.not_le.2 h)
  · intro hnone
    cases n with
    | declaration pos property e =>
      cases e with
      | literal pos' value =>
        refine ⟨_, _, _, _, rfl, ?_⟩
        rintro m k rfl
        exact Nat.le_of_not_lt fun hlong => hnone _ _ (.tooLong hlong)
      | _ => exact absurd (.unevaluated fun _ _ h => by cases h) (hnone _ _)
    | _ => exact absurd (.misplaced fun _ _ _ h => by cases h) (hnone _ _)

theorem among_iff {edge : Nat → Step} {nodes : List Node}
    {offence : Node → Path → CssError → Prop} :
    (∀ path reason, ¬ Among edge nodes offence path reason) ↔
      ∀ n ∈ nodes, ∀ path reason, ¬ offence n path reason := by
  constructor
  · intro hnone n hn path reason h
    obtain ⟨i, hi⟩ := List.getElem?_of_mem hn
    exact hnone (edge i :: path) reason ⟨i, n, path, hi, rfl, h⟩
  · rintro hnone _ reason ⟨i, n, rest, hn, rfl, h⟩
    exact hnone n (List.mem_of_getElem? hn) rest reason h

theorem isPrintableRule_iff {n : Node} :
    IsPrintableRule n ↔ ∀ path reason, ¬ ItemOffence n path reason := by
  cases n with
  | rule pos selectors body =>
    simp only [itemOffence_rule_iff, among_iff, ← isPrintableLine_iff]
    constructor
    · rintro ⟨_, _, _, heq, hbody⟩
      obtain ⟨-, -, rfl⟩ := Node.rule.inj heq
      exact hbody
    · intro hbody
      exact ⟨_, _, _, rfl, hbody⟩
  | _ =>
    constructor
    · rintro ⟨_, _, _, heq, -⟩
      cases heq
    · intro hnone
      exact absurd (.misplaced rfl) (hnone _ _)

end Css

/-! ## Whole trees -/

namespace Stylesheet

/-- The selectors of the rules are selectors. -/
def HasSelectors (sheet : Stylesheet) : Prop :=
  ∀ pos selectors body, .rule pos selectors body ∈ sheet.items → ∀ s ∈ selectors,
    ∃ pos kind name, s = Node.selector pos kind name

theorem blames_css {sheet : Stylesheet} (h : sheet.HasSelectors) (indent : String) :
    Blames sheet.Offends (sheet.css indent) := by
  have hitems : Blames (Among .item sheet.items ItemOffence) (sheet.items.mapM (rule indent)) := by
    refine blames_mapM (fun _ _ => rfl) (fun _ => rfl) fun n hn => blames_item ?_ indent
    rintro pos selectors body rfl
    exact h pos selectors body hn
  exact hitems.map _

theorem intercalate_append {separator : String} {as bs : List String} (ha : as ≠ [])
    (hb : bs ≠ []) : separator.intercalate (as ++ bs) =
      separator.intercalate as ++ separator ++ separator.intercalate bs := by
  induction as with
  | nil => exact absurd rfl ha
  | cons a as ih =>
    cases as with
    | nil => simp [String.intercalate_cons_of_ne_nil hb]
    | cons a' as =>
      have hrest := ih (List.cons_ne_nil _ _)
      simp only [List.cons_append] at hrest
      simp only [List.cons_append, String.intercalate_cons_cons, hrest, String.append_assoc]

theorem length_of_mapM {ε α β : Type} {f : α → Except ε β} {as : List α} {bs : List β}
    (h : as.mapM f = .ok bs) : as.length = bs.length :=
  (forall₂_of_mapM (R := fun _ _ => True) (fun _ _ _ _ => trivial) h).length_eq

/-- Of a tree in two parts the text is that of the first part and that of the second one, with an
empty line between them. -/
theorem css_append {sheet : Stylesheet} {front back : List Node}
    (hitems : sheet.items = front ++ back) (hfront : front ≠ []) (hback : back ≠ [])
    (indent css : String) :
    sheet.css indent = .ok css ↔ ∃ first second,
      Stylesheet.css { items := front } indent = .ok first ∧
        Stylesheet.css { items := back } indent = .ok second ∧ css = first ++ "\n" ++ second := by
  have hne : ∀ {nodes : List Node} {texts : List String}, nodes.mapM (rule indent) = .ok texts →
      nodes ≠ [] → texts ≠ [] := by
    intro nodes texts hmap hnodes htexts
    have hlength := length_of_mapM hmap
    rw [htexts, List.length_nil, List.length_eq_zero_iff] at hlength
    exact hnodes hlength
  constructor
  · intro h
    obtain ⟨rules, hrules, hcss⟩ := bind_eq_ok.1 h
    rw [hitems, List.mapM_append] at hrules
    obtain ⟨as, has, hrules⟩ := bind_eq_ok.1 hrules
    obtain ⟨bs, hbs, hrules⟩ := bind_eq_ok.1 hrules
    obtain rfl := Except.ok.inj hrules
    obtain rfl := Except.ok.inj hcss
    exact ⟨_, _, bind_eq_ok.2 ⟨as, has, rfl⟩, bind_eq_ok.2 ⟨bs, hbs, rfl⟩,
      intercalate_append (hne has hfront) (hne hbs hback)⟩
  · rintro ⟨first, second, hfirst, hsecond, rfl⟩
    obtain ⟨as, has, htext⟩ := bind_eq_ok.1 hfirst
    obtain rfl := Except.ok.inj htext
    obtain ⟨bs, hbs, htext⟩ := bind_eq_ok.1 hsecond
    obtain rfl := Except.ok.inj htext
    refine bind_eq_ok.2 ⟨as ++ bs, ?_, ?_⟩
    · rw [hitems, List.mapM_append]
      exact bind_eq_ok.2 ⟨as, has, bind_eq_ok.2 ⟨bs, hbs, rfl⟩⟩
    · rw [intercalate_append (hne has hfront) (hne hbs hback)]
      rfl

/-- **A text, or the first offence.** Of a tree whose rules have selectors for selectors there is a
CSS text if and only if its items are rules of declarations of literals without long numbers. Any
other tree is refused for its first offence in the order of the tree. -/
theorem css_or_first_offence {sheet : Stylesheet} (hselectors : sheet.HasSelectors)
    (indent : String) :
    ((∃ css, sheet.css indent = .ok css) ↔ ∀ n ∈ sheet.items, IsPrintableRule n) ∧
      (∀ reason, sheet.css indent = .error reason ↔
        ∃ path n, FirstOffence sheet.Offends path reason ∧ sheet.toNode.at? path = some n ∧
          reason.Accuses n) ∧
      ∀ front back, sheet.items = front ++ back → front ≠ [] → back ≠ [] → ∀ css,
        (sheet.css indent = .ok css ↔ ∃ first second,
          Stylesheet.css { items := front } indent = .ok first ∧
            Stylesheet.css { items := back } indent = .ok second ∧
              css = first ++ "\n" ++ second) := by
  have hblames := blames_css hselectors indent
  refine ⟨?_, ?_, fun front back hitems hfront hback => css_append hitems hfront hback indent⟩
  · rw [hblames.exists_ok_iff, Offends, among_iff]
    exact forall₂_congr fun n _ => isPrintableRule_iff.symm
  · have hunique : ∀ n path reason reason', ItemOffence n path reason →
        ItemOffence n path reason' → reason = reason' := fun _ _ _ _ => ItemOffence.unique
    have hfirst := hblames.eq_error_iff fun _ _ _ h h' => h.unique (fun _ => rfl) hunique h'
    refine fun reason => (hfirst reason).trans (exists_congr fun path => ?_)
    constructor
    · intro h
      have hchild : ∀ i, sheet.toNode.child? (.item i) = sheet.items[i]? := fun _ => rfl
      obtain ⟨n, hn, haccuses⟩ := h.1.found hchild fun _ _ _ => ItemOffence.found
      exact ⟨n, h, hn, haccuses⟩
    · rintro ⟨n, h, -⟩
      exact h

/-- A reference in the second rule comes before a conditional there and an assignment after it. -/
theorem css_or_first_offence_reference :
    let sheet : Stylesheet := { items := [
      .rule {} [.selector {} .tag "p"] [.declaration {} "width" (.literal {} (.number .pixel 1))],
      .rule {} [.selector {} .id "q"] [.declaration {} "height" (.reference {} "X"),
        .conditional {} (.literal {} (.bool true)) [] none],
      .assignment {} "X" (.literal {} (.number .pixel 2))] }
    sheet.HasSelectors ∧ (∃ path n,
      FirstOffence sheet.Offends path (.notLiteral "height" "VariableReference") ∧
        sheet.toNode.at? path = some n ∧
          (CssError.notLiteral "height" "VariableReference").Accuses n) ∧
      ¬ ∀ n ∈ sheet.items, IsPrintableRule n := by
  intro sheet
  have hselectors : sheet.HasSelectors := by
    intro pos selectors body hmem s hs
    rcases List.mem_cons.1 hmem with heq | hmem
    · obtain ⟨-, rfl, -⟩ := Node.rule.inj heq
      exact ⟨_, _, _, List.mem_singleton.1 hs⟩
    · rcases List.mem_cons.1 hmem with heq | hmem
      · obtain ⟨-, rfl, -⟩ := Node.rule.inj heq
        exact ⟨_, _, _, List.mem_singleton.1 hs⟩
      · cases List.mem_singleton.1 hmem
  have hrefused : sheet.css = .error (.notLiteral "height" "VariableReference") := by rfl
  obtain ⟨htext, hfirst, -⟩ := css_or_first_offence hselectors "  "
  refine ⟨hselectors, (hfirst _).1 hrefused, fun hall => ?_⟩
  obtain ⟨css, hcss⟩ := htext.2 hall
  cases hrefused.symm.trans hcss

end Stylesheet

end StyleLang
