import Mathlib.Data.List.Forall2
import StyleLang.Proofs.Css.Flat

/-!
# The words of a CSS text

The printer puts its words in an order that is known from the tree, and nothing but spaces between
them. Main statement: the CSS of a flat tree has the words of its rules, with gaps around them.
-/

namespace StyleLang

namespace Spelled

variable {α β : Type} {words : α → List (List Char)} {chars : β → List Char}

theorem flatMap {as : List α} {bs : List β}
    (h : List.Forall₂ (fun a b => Spelled (words a) (chars b)) as bs) :
    Spelled (as.flatMap words) (bs.flatMap chars) := by
  induction h with
  | nil => exact gap .nil
  | cons hab _ ih =>
    rw [List.flatMap_cons, List.flatMap_cons]
    exact hab.append ih

theorem intercalate {as : List α} {bs : List β} {ws : List (List Char)} {sep : List Char}
    (hsep : Spelled ws sep) (h : List.Forall₂ (fun a b => Spelled (words a) (chars b)) as bs) :
    Spelled (ws.intercalate (as.map words)) (sep.intercalate (bs.map chars)) := by
  induction h with
  | nil => exact gap .nil
  | cons hab hrest ih =>
    cases hrest with
    | nil =>
      simp only [List.map_cons, List.map_nil, List.intercalate_singleton]
      exact hab
    | cons _ _ =>
      simp only [List.map_cons, List.intercalate_cons_cons] at ih ⊢
      exact (hab.append hsep).append ih

end Spelled

theorem bind_eq_ok {ε α β : Type} {x : Except ε α} {f : α → Except ε β} {b : β} :
    (x >>= f) = .ok b ↔ ∃ a, x = .ok a ∧ f a = .ok b := by
  cases x with
  | error e =>
    constructor
    · intro h
      cases h
    · rintro ⟨a, ha, -⟩
      cases ha
  | ok a =>
    constructor
    · intro h
      exact ⟨a, rfl, h⟩
    · rintro ⟨a', ha, h⟩
      cases ha
      exact h

/-- What a partial map leads to member by member. -/
theorem forall₂_of_mapM {ε α β : Type} {f : α → Except ε β} {R : α → β → Prop} {as : List α}
    {bs : List β} (h : ∀ a ∈ as, ∀ b, f a = .ok b → R a b) (hmap : as.mapM f = .ok bs) :
    List.Forall₂ R as bs := by
  induction as generalizing bs with
  | nil =>
    rw [List.mapM_nil] at hmap
    cases hmap
    exact .nil
  | cons a as ih =>
    rw [List.mapM_cons] at hmap
    obtain ⟨b, ha, hmap⟩ := bind_eq_ok.1 hmap
    obtain ⟨bs', has, hmap⟩ := bind_eq_ok.1 hmap
    cases hmap
    have hrest := ih (fun a' ha' => h a' (List.mem_cons_of_mem _ ha')) has
    exact .cons (h a List.mem_cons_self b ha) hrest

theorem exists_of_mapM {ε α β : Type} {f : α → Except ε β} {as : List α} {bs : List β}
    (hmap : as.mapM f = .ok bs) {a : α} (ha : a ∈ as) : ∃ b, f a = .ok b := by
  have hall : List.Forall₂ (fun a b => f a = .ok b) as bs :=
    forall₂_of_mapM (fun _ _ _ hb => hb) hmap
  clear hmap
  induction hall with
  | nil => cases ha
  | cons hab _ ih =>
    rcases List.mem_cons.1 ha with rfl | ha
    · exact ⟨_, hab⟩
    · exact ih ha

theorem forall_of_mapM {ε α β : Type} {f : α → Except ε β} {p : β → Prop} {as : List α}
    {bs : List β} (h : ∀ a ∈ as, ∀ b, f a = .ok b → p b) (hmap : as.mapM f = .ok bs) :
    ∀ b ∈ bs, p b := by
  have hall : List.Forall₂ (fun _ b => p b) as bs := forall₂_of_mapM h hmap
  clear hmap
  induction hall with
  | nil => exact fun b hb => absurd hb List.not_mem_nil
  | cons hb _ ih =>
    exact List.forall_mem_cons.2 ⟨hb, ih fun a ha => h a (List.mem_cons_of_mem _ ha)⟩

namespace Css

/-! ## Words -/

/-- The words of a declaration of a literal. -/
def lineWords : Node → List (List Char)
  | .declaration _ property (.literal _ value) =>
    [property.toList, [':'], value.text.toList, [';']]
  | _ => []

def selectorWords (selectors : List Node) : List (List Char) :=
  [[',']].intercalate (selectors.map fun s => [s.text.toList])

/-- The words of a rule of such declarations. -/
def ruleWords : Node → List (List Char)
  | .rule _ selectors body =>
    selectorWords selectors ++ ['{'] :: (body.flatMap lineWords ++ [['}']])
  | _ => []

theorem intercalate_concat {α : Type} (sep : List α) {l : List (List α)} (hl : l ≠ [])
    (a : List α) : sep.intercalate (l ++ [a]) = sep.intercalate l ++ sep ++ a := by
  induction l with
  | nil => exact absurd rfl hl
  | cons b l ih =>
    cases l with
    | nil => simp
    | cons c l =>
      have hrest := ih (List.cons_ne_nil c l)
      simp only [List.cons_append, List.intercalate_cons_cons] at hrest ⊢
      simp only [hrest, List.append_assoc]

theorem text_selector {n : Node} {w : List Char} (h : Grammar.Selector n w) :
    n.text.toList = w := by
  cases h with
  | tag hw => simp [Node.text, SelectorKind.mark]
  | className hw => simp [Node.text, SelectorKind.mark]
  | id hw => simp [Node.text, SelectorKind.mark]

theorem selectors_words {ns : List Node} {ws : List (List Char)} (h : Grammar.Selectors ns ws) :
    ns ≠ [] ∧ selectorWords ns = ws := by
  unfold selectorWords
  induction h with
  | one hn =>
    refine ⟨List.cons_ne_nil _ _, ?_⟩
    rw [List.map_singleton, List.intercalate_singleton, text_selector hn]
  | snoc _ hn ih =>
    obtain ⟨hne, hws⟩ := ih
    refine ⟨List.append_ne_nil_of_right_ne_nil _ (List.cons_ne_nil _ _), ?_⟩
    rw [List.map_append, List.map_singleton, intercalate_concat _ (by simpa using hne), hws,
      text_selector hn]
    simp

theorem selectorWords_bareAll (selectors : List Node) :
    selectorWords (Node.bareAll selectors) = selectorWords selectors := by
  unfold selectorWords
  rw [Node.bareAll_eq_map, List.map_map]
  congr 2
  funext s
  rw [Function.comp_apply, text_bare]

theorem ruleWords_eq {pos : Position} {selectors body : List Node} {ws : List (List Char)}
    (h : Grammar.Selectors (Node.bareAll selectors) ws) :
    ruleWords (.rule pos selectors body) =
      ws ++ ['{'] :: (body.flatMap lineWords ++ [['}']]) := by
  have hwords : selectorWords selectors = ws := by
    rw [← selectorWords_bareAll]
    exact (selectors_words h).2
  rw [ruleWords, hwords]

/-! ## Texts -/

/-- A node that is printed has its own text. -/
theorem print_eq_ok {n : Node} {text : String} (h : print n = .ok text) :
    n.printable = true ∧ text = n.text := by
  unfold print at h
  split at h
  · next hp => exact ⟨hp, (Except.ok.inj h).symm⟩
  · cases h

theorem spelled_line {n : Node} (hn : FlatLine n) {line : String} (h : declaration n = .ok line) :
    Spelled (lineWords n) line.toList := by
  obtain @⟨pos, pos', property, value, -, -, -⟩ := hn
  obtain ⟨text, hprint, hline⟩ := bind_eq_ok.1 h
  obtain rfl := Except.ok.inj hline
  obtain ⟨-, rfl⟩ := print_eq_ok hprint
  have hspace : Spelled [] [' '] := .gap (.space rfl .nil)
  have hwords := ((((Spelled.word property.toList).append (.word [':'])).append hspace).append
    (.word value.text.toList)).append (.word [';'])
  show Spelled (lineWords _) (property ++ ": " ++ value.text ++ ";").toList
  simpa [lineWords] using hwords

/-- A rule that is printed has lines that are printed. -/
theorem lines_of_rule {indent text : String} {pos : Position} {selectors body : List Node}
    (h : rule indent (.rule pos selectors body) = .ok text) :
    ∀ n ∈ body, ∃ line, declaration n = .ok line := by
  obtain ⟨selectorTexts, -, hrest⟩ := bind_eq_ok.1 h
  obtain ⟨lines, hlines, -⟩ := bind_eq_ok.1 hrest
  exact fun n hn => exists_of_mapM hlines hn

theorem spelled_rule {indent : String} (hindent : ∀ c ∈ indent.toList, isSpace c = true)
    {n : Node} (hn : FlatRule n) {text : String} (h : rule indent n = .ok text) :
    Spelled (ruleWords n) text.toList := by
  obtain @⟨pos, selectors, body, ws, -, hbody⟩ := hn
  obtain ⟨selectorTexts, hs, hrest⟩ := bind_eq_ok.1 h
  obtain ⟨lines, hl, htext⟩ := bind_eq_ok.1 hrest
  obtain rfl := Except.ok.inj htext
  have hspace : Spelled [] [' '] := .gap (.space rfl .nil)
  have hnewline : Spelled [] ['\n'] := .gap (.space rfl .nil)
  have hselectors : Spelled (selectorWords selectors) (", ".intercalate selectorTexts).toList := by
    have hcomma : Spelled [[',']] ", ".toList := (Spelled.word [',']).append hspace
    rw [String.toList_intercalate]
    refine hcomma.intercalate (forall₂_of_mapM (fun s _ t ht => ?_) hs)
    rw [(print_eq_ok ht).2]
    exact .word _
  have hlines : Spelled (body.flatMap lineWords)
      (String.join (lines.map fun line => indent ++ line ++ "\n")).toList := by
    rw [String.toList_join, List.flatMap_map]
    refine Spelled.flatMap (forall₂_of_mapM (fun n hn line hline => ?_) hl)
    have hindented := (Spelled.gap (gap_of_isSpace hindent)).append
      (spelled_line (hbody n hn) hline)
    have hwhole := hindented.append hnewline
    rw [List.nil_append, List.append_nil] at hwhole
    rwa [String.toList_append, String.toList_append]
  have hopen : Spelled [['{']] " \x7b\n".toList := (hspace.append (.word ['{'])).append hnewline
  have hclose : Spelled [['}']] "\x7d\n".toList := (Spelled.word ['}']).append hnewline
  have hall := ((hselectors.append hopen).append hlines).append hclose
  simp only [List.append_assoc, List.cons_append, List.nil_append] at hall
  simpa only [ruleWords, String.toList_append, List.append_assoc] using hall

/-- The CSS of a flat tree has the words of its rules. -/
theorem spelled_css {sheet : Stylesheet} (h : ∀ n ∈ sheet.items, FlatRule n) {indent css : String}
    (hindent : ∀ c ∈ indent.toList, isSpace c = true) (hcss : sheet.css indent = .ok css) :
    Spelled (sheet.items.flatMap ruleWords) css.toList := by
  obtain ⟨rules, hr, hjoin⟩ := bind_eq_ok.1 hcss
  obtain rfl := Except.ok.inj hjoin
  have hnewline : Spelled [] "\n".toList := .gap (.space rfl .nil)
  have hspelled := forall₂_of_mapM (fun n hn text => spelled_rule hindent (h n hn)) hr
  have hwords : ∀ wss : List (List (List Char)), [].intercalate wss = wss.flatten := by
    intro wss
    induction wss with
    | nil => rfl
    | cons ws wss ih => cases wss with
      | nil => simp
      | cons vs wss => rw [List.intercalate_cons_cons, ih]; simp
  have hall := hnewline.intercalate hspelled
  rw [hwords, ← List.flatMap_def] at hall
  rwa [String.toList_intercalate]

end Css

end StyleLang
