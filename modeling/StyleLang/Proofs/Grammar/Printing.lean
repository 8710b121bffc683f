import StyleLang.Proofs.Css.Flat
import StyleLang.Proofs.Css.Negative
import StyleLang.Proofs.Grammar.FirstTokens
import StyleLang.Proofs.Grammar.Replacing

/-!
# Printed expressions

An expression is printed without brackets, its numbers in ASCII digits and without zeros in front.
The grammar has no brackets either, so the trees that are read are just those that their printed
words derive. Main statement: the printed text of an expression that was read, in the place of any
expression of a text, is read as the expression, and two expressions that were read have one text if
and only if they are the same.
-/

namespace StyleLang

namespace Grammar

/-! ## Printed words -/

theorem Atom.printed {n : Node} {w : List Char} (h : Atom .keywords n w) :
    n.printable = true ∧ Atom .keywords n n.text.toList := by
  cases h with
  | @number m ds hds hlength =>
    have hfits : (Value.number m (readDigits ds)).printable = true :=
      decide_eq_true (Nat.le_trans (length_toDigits_readDigits hds) hlength)
    have hsign : (Value.number m (readDigits ds)).isNegative = false := by
      simp [Value.isNegative]
    exact ⟨hfits, Value.atom trivial hfits hsign⟩
  | color hw =>
    refine ⟨rfl, Value.atom ?_ rfl rfl⟩
    rw [Value.Writable, String.toList_ofList]
    exact hw
  | bool _ => exact ⟨rfl, Value.atom trivial rfl rfl⟩
  | reference hw hfree =>
    refine ⟨rfl, ?_⟩
    rw [Node.text, String.toList_ofList]
    exact .reference hw hfree

/-- The words of an operation are printed with single spaces around its symbol. -/
theorem spelled_operation {l r : Node} {us vs : List (List Char)} (op : Operator)
    (hl : Spelled us l.text.toList) (hr : Spelled vs r.text.toList) :
    Spelled (us ++ op.symbol.toList :: vs) (Node.operation {} op l r).text.toList := by
  have hwhole := hl.append (.space (.cons (w := op.symbol.toList) (.space hr)))
  have hspace : " ".toList = [' '] := rfl
  rw [Node.text]
  simp only [String.toList_append, List.append_assoc, hspace]
  exact hwhole

theorem Product.printed {n : Node} {ws : List (List Char)} (h : Product .keywords n ws) :
    n.printable = true ∧ ∃ vs, Product .keywords n vs ∧ Spelled vs n.text.toList := by
  induction h with
  | atom ha =>
    obtain ⟨hfits, hword⟩ := ha.printed
    exact ⟨hfits, _, .atom hword, .word _⟩
  | times _ hr ih =>
    obtain ⟨hl, us, hus, hspelled⟩ := ih
    obtain ⟨hr, hword⟩ := hr.printed
    exact ⟨Bool.and_eq_true_iff.2 ⟨hl, hr⟩, _, .times hus hword,
      spelled_operation .multiply hspelled (.word _)⟩

/-- The words that an expression is printed with derive it, like those that it was read from. -/
theorem Expression.printed {n : Node} {ws : List (List Char)} (h : Expression .keywords n ws) :
    n.printable = true ∧ ∃ vs, Expression .keywords n vs ∧ Spelled vs n.text.toList := by
  induction h with
  | product hp =>
    obtain ⟨hfits, vs, hvs, hspelled⟩ := hp.printed
    exact ⟨hfits, vs, .product hvs, hspelled⟩
  | plus _ hr ih =>
    obtain ⟨hl, us, hus, hspelled⟩ := ih
    obtain ⟨hr, vs, hvs, hspelled'⟩ := hr.printed
    exact ⟨Bool.and_eq_true_iff.2 ⟨hl, hr⟩, _, .plus hus hvs,
      spelled_operation .add hspelled hspelled'⟩
  | minus _ hr ih =>
    obtain ⟨hl, us, hus, hspelled⟩ := ih
    obtain ⟨hr, vs, hvs, hspelled'⟩ := hr.printed
    exact ⟨Bool.and_eq_true_iff.2 ⟨hl, hr⟩, _, .minus hus hvs,
      spelled_operation .subtract hspelled hspelled'⟩

end Grammar

/-! ## Texts of expressions -/

/-- The text is one of the expression: it starts with its first word, ends with its last one, and
has only gaps between the words. -/
def Node.HasText (n : Node) (cs : List Char) : Prop :=
  ∃ w ws rest, Grammar.Expression .keywords n.bare (w :: ws) ∧ cs = w ++ rest ∧ Spaced ws rest

/-- Such a text stands among other words. -/
theorem Spelled.around {before after ws : List (List Char)} {w text : List Char}
    (h : Spelled (before ++ w :: ws ++ after) text) :
    ∃ front rest back, text = front ++ (w ++ rest) ++ back ∧ Spelled before front ∧
      Spaced ws rest ∧ Spelled after back := by
  obtain ⟨body, gap, hbody, hgap, rfl⟩ := h
  obtain ⟨_, back, rfl, hleft, hback⟩ := hbody.split
  obtain ⟨front, _, rfl, hfront, hmiddle⟩ := hleft.split
  cases hmiddle with
  | @cons g _ rest _ hg hrest =>
    refine ⟨front ++ g, rest, back ++ gap, by simp, ?_, hrest, ?_⟩
    · exact ⟨front, g, hfront, hg, rfl⟩
    · exact ⟨back, gap, hback, hgap, rfl⟩

namespace Stylesheet

open Grammar

variable {text text' : String} {sheet host : Stylesheet} {site site' : Path} {edge edge' : Step}
  {e old : Node}

/-- The expression of a statement or the condition of a conditional has words. -/
theorem exists_words (h : Stylesheet.parse text = .ok sheet)
    (hedge : edge = .expression ∨ edge = .condition)
    (hat : sheet.toNode.at? (site ++ [edge]) = some e) :
    ∃ before words after, Spelled (before ++ words ++ after) text.toList ∧
      Expression .keywords e.bare words ∧
      ∀ {text' : String} {m : Node} {vs : List (List Char)}, Expression .keywords m.bare vs →
        Spelled (before ++ vs ++ after) text'.toList → ∃ read, Stylesheet.parse text' = .ok read ∧
          read.toNode.same (sheet.graft (site ++ [edge]) m).toNode = true := by
  have hlast : (site ++ [edge]).getLast? = some edge := List.getLast?_concat
  rcases parse_slot h hat with
    ⟨i, kind, name, hselector, -⟩ | ⟨role, before, words, after, htext, hrole, hwords, hother⟩
  · obtain rfl := Option.some.inj (hlast.symm.trans hselector)
    rcases hedge with hedge | hedge <;> cases hedge
  · obtain rfl := Role.eq_expression (hrole edge hlast) hedge
    have hwords : Expression .keywords e.bare words := hwords
    have hne : e ≠ sheet.toNode := by
      rintro rfl
      exact hwords.placed
    exact ⟨before, words, after, htext, hwords, fun hm htext' =>
      hother hne hm (alike_of_placed hwords.placed hm.placed) htext'⟩

/-- Where an expression stands in a text that is read, any text with the words of another one is
read as the other one. -/
theorem exists_place (h : Stylesheet.parse text = .ok sheet)
    (hedge : edge = .expression ∨ edge = .condition)
    (hat : sheet.toNode.at? (site ++ [edge]) = some e) :
    ∃ front mid back, text.toList = front ++ mid ++ back ∧ e.HasText mid ∧
      ∀ {m : Node} {vs : List (List Char)} {cs : List Char}, Expression .keywords m.bare vs →
        Spelled vs cs → ∃ read, Stylesheet.parse (String.ofList (front ++ cs ++ back)) = .ok read ∧
          read.toNode.same (sheet.graft (site ++ [edge]) m).toNode = true ∧
          ∃ n, read.toNode.at? (site ++ [edge]) = some n ∧ n.same m = true := by
  obtain ⟨before, words, after, htext, hwords, hother⟩ := exists_words h hedge hat
  obtain ⟨-, w, ws, rfl, -⟩ := hwords.head_word
  obtain ⟨front, rest, back, hsource, hfront, hrest, hback⟩ := htext.around
  refine ⟨front, w ++ rest, back, hsource, ⟨w, ws, rest, hwords, rfl, hrest⟩, ?_⟩
  intro m vs cs hm hcs
  have hspelled : Spelled (before ++ vs ++ after)
      (String.ofList (front ++ cs ++ back)).toList := by
    rw [String.toList_ofList]
    exact (hfront.append hcs).append hback
  obtain ⟨read, hread, hsame⟩ := hother hm hspelled
  have hne : e ≠ sheet.toNode := by
    rintro rfl
    exact hwords.placed
  have hgraft : (sheet.graft (site ++ [edge]) m).toNode.at? (site ++ [edge]) = some m := by
    rw [toNode_graft hat hne]
    exact Node.at?_graft_self m hat
  obtain ⟨n, hn, hbare⟩ := Node.exists_at?_of_same hsame hgraft
  exact ⟨read, hread, hsame, n, hn, (Node.same_iff_bare n m).2 hbare⟩

/-- What an expression of a text that is read is printed as. -/
theorem printed_of_parse (h : Stylesheet.parse text = .ok sheet)
    (hedge : edge = .expression ∨ edge = .condition)
    (hat : sheet.toNode.at? (site ++ [edge]) = some e) :
    e.printable = true ∧ ∃ vs, Expression .keywords e.bare vs ∧ Spelled vs e.text.toList := by
  obtain ⟨-, words, -, -, hwords, -⟩ := exists_words h hedge hat
  rw [← Node.printable_bare, ← Css.text_bare]
  exact hwords.printed

/-- The printed text of an expression that was read is read as the expression wherever one can
stand, and expressions that were read have different texts if they are not the same. -/
theorem printed_expression_read (h : Stylesheet.parse text = .ok sheet)
    (hedge : edge = .expression ∨ edge = .condition)
    (hat : sheet.toNode.at? (site ++ [edge]) = some e)
    (h' : Stylesheet.parse text' = .ok host)
    (hedge' : edge' = .expression ∨ edge' = .condition)
    (hat' : host.toNode.at? (site' ++ [edge']) = some old) :
    e.printable = true ∧
      (∃ front mid back, text'.toList = front ++ mid ++ back ∧ old.HasText mid ∧
        ∃ read, Stylesheet.parse (String.ofList (front ++ e.text.toList ++ back)) = .ok read ∧
          read.toNode.same (host.graft (site' ++ [edge']) e).toNode = true ∧
          ∃ n, read.toNode.at? (site' ++ [edge']) = some n ∧ n.same e = true) ∧
      (e.text = old.text ↔ e.same old = true) := by
  obtain ⟨hfits, vs, hvs, hspelled⟩ := printed_of_parse h hedge hat
  obtain ⟨-, us, hus, hspelled'⟩ := printed_of_parse h' hedge' hat'
  obtain ⟨front, mid, back, htext, hmid, hread⟩ := exists_place h' hedge' hat'
  refine ⟨hfits, ⟨front, mid, back, htext, hmid, hread hvs hspelled⟩, fun hequal => ?_, ?_⟩
  · -- both texts are read in the place of the second one, and they are one text
    obtain ⟨read, hparse, -, n, hn, hsame⟩ := hread hvs hspelled
    obtain ⟨read', hparse', -, n', hn', hsame'⟩ := hread hus hspelled'
    rw [hequal, hparse'] at hparse
    obtain rfl := Except.ok.inj hparse
    obtain rfl := Option.some.inj (hn.symm.trans hn')
    rw [Node.same_iff_bare] at hsame hsame' ⊢
    exact hsame.symm.trans hsame'
  · intro hsame
    rw [← Css.text_bare e, (Node.same_iff_bare e old).1 hsame, Css.text_bare]

/-- The sum after a comment, printed with spaces, is read in its place. -/
theorem printed_expression_read_sum : ∃ sheet e,
    Stylesheet.parse "/*\n*/p{w:1+X;}" = .ok sheet ∧
      sheet.toNode.at? [.item 0, .body 0, .expression] = some e ∧ e.text = "1 + X" ∧
      ∃ front mid back, "/*\n*/p{w:1+X;}".toList = front ++ mid ++ back ∧ e.HasText mid ∧
        ∃ read, Stylesheet.parse (String.ofList (front ++ e.text.toList ++ back)) = .ok read ∧
          ∃ n, read.toNode.at? [.item 0, .body 0, .expression] = some n ∧ n.same e = true := by
  obtain ⟨-, ⟨front, mid, back, htext, hmid, read, hread, -, hsame⟩, -⟩ :=
    @printed_expression_read _ _ _ _ [.item 0, .body 0] [.item 0, .body 0] _ _ _ _
      parse_sum (.inl rfl) rfl parse_sum (.inl rfl) rfl
  exact ⟨_, _, parse_sum, rfl, rfl, front, mid, back, htext, hmid, read, hread, hsame⟩

end Stylesheet

end StyleLang
