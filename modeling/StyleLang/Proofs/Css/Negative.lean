import Mathlib.Data.List.Induction
import StyleLang.Proofs.Css.Words
import StyleLang.Proofs.Grammar.Acceptance
import StyleLang.Proofs.Text.Decimal

/-!
# Negative numbers

The grammar has no sign: a hyphen stands between operands or in a name. Main statements: rules
without negative numbers are printed as the words that the grammar has for them, and the words of
rules with one are refused at the first of its hyphens.
-/

namespace StyleLang

def Value.isNegative : Value → Bool
  | number _ n => decide (n < 0)
  | color _ => false
  | bool _ => false

namespace Css

def isNegativeLine : Node → Bool
  | .declaration _ _ (.literal _ value) => value.isNegative
  | _ => false

/-- The rule has a declaration of a negative number. -/
def hasNegativeLine : Node → Bool
  | .rule _ _ body => body.any isNegativeLine
  | _ => false

end Css

open Css Grammar

/-! ## Printed rules in the grammar -/

theorem Value.atom {value : Value} (hw : value.Writable) (hp : value.printable = true)
    (hn : value.isNegative = false) :
    Atom Reserve.keywords (.literal {} value) value.text.toList := by
  cases value with
  | number m n =>
    have hn : ¬ n < 0 := of_decide_eq_false hn
    obtain ⟨k, rfl⟩ := Int.eq_ofNat_of_zero_le (Int.not_lt.1 hn)
    have hlength : (Nat.toDigits 10 k).length ≤ digitLimit := of_decide_eq_true hp
    have hatom := Atom.number (R := Reserve.keywords) (m := m) (isDigits_toDigits k) hlength
    rwa [readDigits_toDigits, ← text_natural] at hatom
  | color code =>
    have hatom := Atom.color (R := Reserve.keywords) hw
    rwa [String.ofList_toList] at hatom
  | bool b =>
    refine .bool ?_
    cases b <;> simp [boolWords, text]

/-- The text of a negative number starts with a hyphen. -/
theorem Value.text_of_isNegative {value : Value} (h : value.isNegative = true) :
    ∃ cs, value.text.toList = '-' :: cs := by
  cases value with
  | number m n =>
    have hn : n < 0 := of_decide_eq_true h
    obtain ⟨k, rfl⟩ := Int.eq_negSucc_of_lt_zero hn
    exact ⟨_, text_negative m k⟩
  | color code => cases h
  | bool b => cases h

namespace Css

theorem statement_of_line {n : Node} (h : FlatLine n) {line : String}
    (hline : declaration n = .ok line) (hneg : isNegativeLine n = false) :
    Statement Reserve.keywords .statement n.bare (lineWords n) := by
  obtain @⟨pos, pos', property, value, hname, hif, hw⟩ := h
  obtain ⟨text, hprint, -⟩ := bind_eq_ok.1 hline
  obtain ⟨hp, -⟩ := print_eq_ok hprint
  have hexpression := Expression.product (.atom (value.atom hw hp hneg))
  have hstatement := @Statement.declaration Reserve.keywords .statement _ _ _ hname hif hexpression
  rwa [String.ofList_toList] at hstatement

/-- After declarations only `if` is reserved. -/
theorem afterStatement_lines {body : List Node} (h : ∀ n ∈ body, FlatLine n) :
    Spot.afterStatement (Node.bareAll body).getLast? = .statement := by
  unfold Spot.afterStatement
  split
  · next heq =>
    have hmem := List.mem_of_getLast? heq
    rw [Node.bareAll_eq_map] at hmem
    obtain ⟨n, hn, hbare⟩ := List.mem_map.1 hmem
    obtain ⟨-, -, -⟩ := h n hn
    cases hbare
  · rfl

theorem body_of_lines {body : List Node} (h : ∀ n ∈ body, FlatLine n)
    (hprint : ∀ n ∈ body, ∃ line, declaration n = .ok line)
    (hneg : ∀ n ∈ body, isNegativeLine n = false) :
    Body Reserve.keywords (Node.bareAll body) (body.flatMap lineWords) := by
  induction body using List.reverseRecOn with
  | nil => exact .nil
  | append_singleton body n ih =>
    have hn : n ∈ body ++ [n] := List.mem_append_right _ List.mem_cons_self
    have hbody : ∀ m ∈ body, m ∈ body ++ [n] := fun m hm => List.mem_append_left _ hm
    obtain ⟨line, hline⟩ := hprint n hn
    rw [Node.bareAll_append, List.flatMap_append, List.flatMap_singleton]
    refine .snoc (ih (fun m hm => h m (hbody m hm)) (fun m hm => hprint m (hbody m hm))
      fun m hm => hneg m (hbody m hm)) ?_
    rw [afterStatement_lines fun m hm => h m (hbody m hm)]
    exact statement_of_line (h n hn) hline (hneg n hn)

theorem item_of_rule {n : Node} (h : FlatRule n) {indent text : String}
    (hprint : rule indent n = .ok text) (hneg : hasNegativeLine n = false) :
    Item Reserve.keywords .item n.bare (ruleWords n) := by
  obtain @⟨pos, selectors, body, ws, hselectors, hbody⟩ := h
  have hlines := lines_of_rule hprint
  rw [ruleWords_eq hselectors]
  have hnone : ∀ n ∈ body, isNegativeLine n = false := fun n hn => by
    simpa using List.any_eq_false.1 hneg n hn
  exact .rule hselectors (fun _ _ => id) (body_of_lines hbody hlines hnone)

/-- After a rule nothing is reserved. -/
theorem afterItem_rules {items : List Node} (h : ∀ n ∈ items, FlatRule n) :
    Spot.afterItem (Node.bareAll items).getLast? = .item := by
  unfold Spot.afterItem
  split
  · next heq =>
    have hmem := List.mem_of_getLast? heq
    rw [Node.bareAll_eq_map] at hmem
    obtain ⟨n, hn, hbare⟩ := List.mem_map.1 hmem
    obtain ⟨-, -⟩ := h n hn
    cases hbare
  · rfl

theorem items_of_rules {indent : String} {items : List Node} (h : ∀ n ∈ items, FlatRule n)
    (hprint : ∀ n ∈ items, ∃ text, rule indent n = .ok text)
    (hneg : ∀ n ∈ items, hasNegativeLine n = false) :
    Items Reserve.keywords (Node.bareAll items) (items.flatMap ruleWords) := by
  induction items using List.reverseRecOn with
  | nil => exact .nil
  | append_singleton items n ih =>
    have hn : n ∈ items ++ [n] := List.mem_append_right _ List.mem_cons_self
    have hitems : ∀ m ∈ items, m ∈ items ++ [n] := fun m hm => List.mem_append_left _ hm
    obtain ⟨text, htext⟩ := hprint n hn
    rw [Node.bareAll_append, List.flatMap_append, List.flatMap_singleton]
    refine .snoc (ih (fun m hm => h m (hitems m hm)) (fun m hm => hprint m (hitems m hm))
      fun m hm => hneg m (hitems m hm)) ?_
    rw [afterItem_rules fun m hm => h m (hitems m hm)]
    exact item_of_rule (h n hn) htext (hneg n hn)

end Css

/-! ## Refusals -/

namespace Reading

/-- The reading gets over no text that starts with the words. -/
def Refuses (r : Reading) (ws : List (List Char)) : Prop :=
  ∀ text rest, Spaced ws text → ∀ last place, ∃ e, r.run last place (text ++ rest) = .error e

theorem Refuses.append {r : Reading} {ws : List (List Char)} (h : r.Refuses ws)
    (ws' : List (List Char)) : r.Refuses (ws ++ ws') := by
  intro text rest ht last place
  obtain ⟨a, b, rfl, ha, -⟩ := ht.split
  rw [List.append_assoc]
  exact h a (b ++ rest) ha last place

theorem Takes.refuses {r : Reading} {ws ws' : List (List Char)} {ok : Char → Bool}
    {P : Reading → Prop} (h : r.Takes ws ok P) (hopens : Opens ok ws')
    (h' : ∀ r', P r' → r'.Refuses ws') : r.Refuses (ws ++ ws') := by
  intro text rest ht last place
  obtain ⟨a, b, rfl, ha, hb⟩ := ht.split
  obtain ⟨r', last', place', hr', hrun⟩ := h a (b ++ rest) ha (hopens b rest hb) last place
  rw [List.append_assoc, hrun]
  exact h' r' hr' b rest hb last' place'

theorem refuses_hyphen {r : Reading} {goal : Goal} {pending : Pending}
    (hr : r.place = .operand goal pending) (cs : List Char) : r.Refuses [('-' :: cs)] := by
  intro text rest ht last place
  cases ht with
  | @cons g w body ws hg hnil =>
    have hskip : skip (g ++ ('-' :: cs ++ (body ++ rest))) = (g, '-' :: cs ++ (body ++ rest)) :=
      skip_gap hg (follows_cons (by decide) _)
    rw [List.append_assoc, List.append_assoc, run_eq, hskip]
    simp only [List.cons_append]
    split
    · exact ⟨_, rfl⟩
    · next m hm =>
      -- every class is tried in the end, so the token is a minus, which is no operand
      obtain ⟨c, ds, hlexeme, hc⟩ := TokenKind.start_of_word (Match.ofText?_sound hm).1
      have hsplit := Match.splits hm
      rw [hlexeme] at hsplit
      obtain rfl := (List.cons.inj hsplit).1
      have hkind : m.kind = .minus := by
        cases hk : m.kind <;> rw [hk] at hc <;> first | rfl | exact absurd hc (by decide)
      have hstep : r.step ⟨m.kind, m.lexeme, place.after g⟩ = none := by
        unfold Reading.step
        simp only [hr, hkind, Token.operand?, Option.map_none]
      simp only [hstep]
      exact ⟨_, rfl⟩

end Reading

open Reading (Takes Refuses takes_mark refuses_hyphen)

/-- A list with a member of a kind comes apart at the first such member. -/
theorem exists_first {α : Type} {p : α → Bool} {l : List α} (h : ∃ a ∈ l, p a = true) :
    ∃ as a bs, l = as ++ a :: bs ∧ p a = true ∧ ∀ b ∈ as, p b = false := by
  obtain ⟨a, ha⟩ := Option.isSome_iff_exists.1 (List.find?_isSome.2 h)
  obtain ⟨hp, as, bs, rfl, hfirst⟩ := List.find?_eq_some_iff_append.1 ha
  exact ⟨as, a, bs, rfl, hp, fun b hb => by simpa using hfirst b hb⟩

namespace Css

theorem refuses_line {r s : Reading} (hr : Between r .statement s) {n : Node} (h : FlatLine n)
    (hneg : isNegativeLine n = true) : r.Refuses (lineWords n) := by
  obtain @⟨pos, pos', property, value, hname, hif, -⟩ := h
  obtain ⟨cs, hcs⟩ := Value.text_of_isNegative hneg
  have hwords : lineWords (.declaration pos property (.literal pos' value)) =
      [property.toList, [':'], '-' :: cs, [';']] := by rw [lineWords, hcs]
  rw [hwords]
  refine (takes_property hname hr hif).refuses (opens_stopsAt (by decide) _ _) ?_
  rintro _ ⟨start, rfl⟩
  exact (refuses_hyphen rfl cs).append [[';']]

/-- The lines before the first negative one are taken, and that one is refused. -/
theorem refuses_body {body : List Node} (h : ∀ n ∈ body, FlatLine n)
    (hprint : ∀ n ∈ body, ∃ line, declaration n = .ok line)
    (hneg : ∃ n ∈ body, isNegativeLine n = true) (s : Reading) (holder : Holder) :
    (s.openBlock holder).Refuses (body.flatMap lineWords) := by
  obtain ⟨before, n, after, rfl, hn, hbefore⟩ := exists_first hneg
  have hmem : ∀ m ∈ before, m ∈ before ++ n :: after := fun m hm => List.mem_append_left _ hm
  have hbody := body_of_lines (fun m hm => h m (hmem m hm)) (fun m hm => hprint m (hmem m hm))
    hbefore
  rw [List.flatMap_append, List.flatMap_cons]
  refine (takes_body hbody s holder).refuses (opens_anything _) ?_
  rintro r ⟨done, -, hr⟩
  rw [afterStatement_lines fun m hm => h m (hmem m hm)] at hr
  have hline := h n (List.mem_append_right _ List.mem_cons_self)
  exact (refuses_line hr hline hn).append _

theorem refuses_rule {r s : Reading} (hr : Amid r .item s) {n : Node} (h : FlatRule n)
    {indent text : String} (hprint : rule indent n = .ok text) (hneg : hasNegativeLine n = true) :
    r.Refuses (ruleWords n) := by
  obtain @⟨pos, selectors, body, ws, hselectors, hbody⟩ := h
  have hlines := lines_of_rule hprint
  rw [ruleWords_eq hselectors]
  refine (takes_selectors hselectors hr fun _ _ => id).refuses (opens_stopsAt (by decide) _ _) ?_
  rintro r' ⟨selectors', -, hr'⟩
  obtain ⟨pos', hbrace⟩ := hr'.step_leftBrace
  refine (takes_mark (k := .leftBrace) hr'.allows_leftBrace (by decide) rfl hbrace).refuses
    (opens_anything _) ?_
  rintro _ rfl
  exact (refuses_body hbody hlines (List.any_eq_true.1 hneg) s _).append _

/-- The rules before the first one with a negative number are taken, and that one is refused. -/
theorem refuses_rules {indent : String} {items : List Node} (h : ∀ n ∈ items, FlatRule n)
    (hprint : ∀ n ∈ items, ∃ text, rule indent n = .ok text)
    (hneg : ∃ n ∈ items, hasNegativeLine n = true) :
    ({} : Reading).Refuses (items.flatMap ruleWords) := by
  obtain ⟨before, n, after, rfl, hn, hbefore⟩ := exists_first hneg
  have hmem : ∀ m ∈ before, m ∈ before ++ n :: after := fun m hm => List.mem_append_left _ hm
  have hlast : n ∈ before ++ n :: after := List.mem_append_right _ List.mem_cons_self
  have hitems := items_of_rules (fun m hm => h m (hmem m hm)) (fun m hm => hprint m (hmem m hm))
    hbefore
  rw [List.flatMap_append, List.flatMap_cons]
  refine (takes_items hitems).refuses (opens_anything _) ?_
  rintro r ⟨done, -, hr⟩
  rw [afterItem_rules fun m hm => h m (hmem m hm)] at hr
  obtain ⟨text, htext⟩ := hprint n hlast
  exact (refuses_rule hr (h n hlast) htext hn).append _

end Css

end StyleLang
