import StyleLang.Proofs.Compile.Stages
import StyleLang.Proofs.Css.Negative

/-!
# Reading CSS back

The CSS of an evaluated tree is itself a source. Main statement: it is read if and only if no number
in the tree is negative; then it is read as the tree, and its compilation gives it once more.
-/

namespace StyleLang

namespace Stylesheet

open Css

/-! ## Negative numbers -/

/-- No number in the tree is negative, wherever it stands. -/
def NonNegative (sheet : Stylesheet) : Prop :=
  ∀ path pos m n, sheet.toNode.at? path = some (.literal pos (.number m n)) → 0 ≤ n

theorem isNegativeLine_eq (n : Node) :
    isNegativeLine n = (lineValue? n).any Value.isNegative := by
  cases n with
  | declaration pos property e => cases e <;> rfl
  | _ => rfl

theorem hasNegativeLine_eq (n : Node) :
    hasNegativeLine n = (ruleValues n).any Value.isNegative := by
  cases n with
  | rule pos selectors body =>
    show body.any isNegativeLine = (body.filterMap lineValue?).any Value.isNegative
    rw [List.any_filterMap]
    exact congrArg body.any (funext isNegativeLine_eq)
  | _ => rfl

theorem nonNegative_iff {sheet : Stylesheet} (h : ∀ n ∈ sheet.items, FlatRule n) :
    sheet.NonNegative ↔ ∀ n ∈ sheet.items, hasNegativeLine n = false := by
  constructor
  · intro hall n hn
    rw [hasNegativeLine_eq]
    refine List.any_eq_false.2 fun value hvalue hneg => ?_
    obtain ⟨path, pos, hat⟩ := (literal_at_iff h).2 (List.mem_flatMap.2 ⟨n, hn, hvalue⟩)
    cases value with
    | number m k =>
      have hk : k < 0 := of_decide_eq_true hneg
      have := hall path pos m k hat
      omega
    | color code => cases hneg
    | bool b => cases hneg
  · intro hall path pos m k hat
    obtain ⟨n, hn, hvalue⟩ := List.mem_flatMap.1 ((literal_at_iff h).1 ⟨path, pos, hat⟩)
    have hnone := hall n hn
    rw [hasNegativeLine_eq] at hnone
    have hk : ¬ k < 0 := fun hk => List.any_eq_false.1 hnone _ hvalue (decide_eq_true hk)
    omega

/-! ## Reading -/

section Reading

variable {sheet : Stylesheet} {indent css : String}

theorem rules_of_css (hcss : sheet.css indent = .ok css) :
    ∀ n ∈ sheet.items, ∃ text, rule indent n = .ok text := by
  obtain ⟨rules, hrules, -⟩ := bind_eq_ok.1 hcss
  exact fun n hn => exists_of_mapM hrules hn

/-- Without negative numbers the CSS of a flat tree is read as the tree. -/
theorem parse_css (h : ∀ n ∈ sheet.items, FlatRule n)
    (hindent : ∀ c ∈ indent.toList, isSpace c = true) (hcss : sheet.css indent = .ok css)
    (hneg : ∀ n ∈ sheet.items, hasNegativeLine n = false) :
    ∃ read, Stylesheet.parse css = .ok read ∧ read.toNode.same sheet.toNode = true := by
  obtain ⟨body, gap, hbody, hgap, htext⟩ := spelled_css h hindent hcss
  have hitems := items_of_rules h (rules_of_css hcss) hneg
  exact Grammar.parse_of_spells ⟨_, body, gap, hitems, hbody, hgap, htext⟩

/-- With a negative number the CSS of a flat tree is not read. -/
theorem not_parse_css (h : ∀ n ∈ sheet.items, FlatRule n)
    (hindent : ∀ c ∈ indent.toList, isSpace c = true) (hcss : sheet.css indent = .ok css)
    (hneg : ∃ n ∈ sheet.items, hasNegativeLine n = true) (read : Stylesheet) :
    Stylesheet.parse css ≠ .ok read := by
  obtain ⟨body, gap, hbody, -, htext⟩ := spelled_css h hindent hcss
  obtain ⟨e, he⟩ := refuses_rules h (rules_of_css hcss) hneg body gap hbody {} {}
  intro hread
  unfold Stylesheet.parse at hread
  rw [htext, he] at hread
  cases hread

theorem bareAll_of_same {a b : Stylesheet} (h : a.toNode.same b.toNode = true) :
    Node.bareAll a.items = Node.bareAll b.items := by
  rw [Node.same_iff_bare] at h
  exact (Node.sheet.inj h).2

/-- The compilation of a source that is read as a flat tree writes that tree. -/
theorem compile_flat {config : Config} {source : String}
    (hread : Stylesheet.parse source = .ok sheet) (h : ∀ n ∈ sheet.items, FlatRule n)
    (hcss : sheet.css config.indent = .ok css)
    (hstrict : config.strict = true → sheet.check = .ok []) :
    (StyleLang.compile config source).result = .ok css := by
  obtain ⟨findings, hcheck⟩ := check_flat h
  have hpassed : config.strict = true → findings = [] := fun hs =>
    Except.ok.inj (hcheck.symm.trans (hstrict hs))
  rw [compile_of_parse hread, compile_of_evaluated hcheck hpassed (evaluate_flat h), hcss]

/-- A tree without findings is evaluated to a settled one. -/
theorem settled_of_check {e : Evaluation} (he : sheet.evaluate = .ok e)
    (hcheck : sheet.check = .ok []) : ∀ n ∈ e.stylesheet.items, n.Settled :=
  (evaluate_of_check_nil hcheck he).2

end Reading

/-- **CSS reads back.** A source that is read is evaluated. The CSS of what it is evaluated to, with
an indent of spaces, is read if and only if no number there is negative. Then it is read as the tree
that it was written from; and its compilation gives it once more, a strict one as well if the
checker found nothing in the first source. -/
theorem css_reads_back {source : String} {sheet : Stylesheet}
    (h : Stylesheet.parse source = .ok sheet) :
    ∃ e, sheet.evaluate = .ok e ∧ ∀ indent css, (∀ c ∈ indent.toList, isSpace c = true) →
      e.stylesheet.css indent = .ok css →
      ((∃ read, Stylesheet.parse css = .ok read) ↔ e.stylesheet.NonNegative) ∧
      (e.stylesheet.NonNegative →
        (∃ read, Stylesheet.parse css = .ok read ∧
          read.toNode.same e.stylesheet.toNode = true) ∧
        (StyleLang.compile { indent, strict := false } css).result = .ok css ∧
        (sheet.check = .ok [] →
          (StyleLang.compile { indent, strict := true } css).result = .ok css)) := by
  obtain ⟨e, he, hflat⟩ := evaluate_of_parse h
  refine ⟨e, he, fun indent css hindent hcss => ?_⟩
  have hread : e.stylesheet.NonNegative →
      ∃ read, Stylesheet.parse css = .ok read ∧ read.toNode.same e.stylesheet.toNode = true :=
    fun hneg => parse_css hflat hindent hcss ((nonNegative_iff hflat).1 hneg)
  refine ⟨⟨fun ⟨read, hcssRead⟩ => ?_, fun hneg => ?_⟩, fun hneg => ⟨hread hneg, ?_⟩⟩
  · rw [nonNegative_iff hflat]
    intro n hn
    rw [← Bool.not_eq_true]
    exact fun hline => not_parse_css hflat hindent hcss ⟨n, hn, hline⟩ read hcssRead
  · obtain ⟨read, hcssRead, -⟩ := hread hneg
    exact ⟨read, hcssRead⟩
  · obtain ⟨read, hcssRead, hsame⟩ := hread hneg
    have hbare := bareAll_of_same hsame
    have hreadFlat : ∀ n ∈ read.items, FlatRule n := by
      intro n hn
      obtain ⟨m, hm, hmn⟩ := mem_of_bareAll_eq hbare.symm hn
      exact flatRule_of_bare (hflat m hm) hmn
    have hreadCss : read.css indent = .ok css := by rw [css_congr hbare, hcss]
    constructor
    · exact compile_flat hcssRead hreadFlat hreadCss fun hs => by cases hs
    · intro hcheck
      refine compile_flat hcssRead hreadFlat hreadCss fun _ => check_settled_sheet fun n hn => ?_
      obtain ⟨m, hm, hmn⟩ := mem_of_bareAll_eq hbare.symm hn
      exact settled_of_bare (settled_of_check he hcheck m hm) hmn

/-- A selector that is spelled like a keyword, and a product: the CSS is compiled to itself. -/
theorem css_reads_back_if :
    let source := "Wide := FALSE; p, if \x7b width: 2px * 03; if [Wide] \x7b \x7d \x7d"
    let css := "p, if \x7b\n  width: 6px;\n\x7d\n"
    ∃ sheet e, Stylesheet.parse source = .ok sheet ∧ sheet.evaluate = .ok e ∧
      e.stylesheet.css = .ok css ∧ e.stylesheet.NonNegative ∧ sheet.check = .ok [] ∧
      (StyleLang.compile {} css).result = .ok css := by
  intro source css
  have hsource : (match Stylesheet.parse source with
      | .ok sheet =>
        match sheet.evaluate, sheet.check with
        | .ok e, .ok findings => findings.isEmpty && decide (e.stylesheet.css = .ok css)
        | _, _ => false
      | .error _ => false) = true := by decide +kernel
  have hcssRead : (match Stylesheet.parse css with
      | .ok _ => true
      | .error _ => false) = true := by decide +kernel
  have hindent : ∀ c ∈ "  ".toList, isSpace c = true := by
    intro c hc
    obtain rfl | rfl : c = ' ' ∨ c = ' ' := by simpa using hc
    · rfl
    · rfl
  split at hsource
  · next sheet hsheet =>
    split at hsource
    · next e findings he hcheck =>
      obtain ⟨hnil, hcss⟩ := Bool.and_eq_true_iff.1 hsource
      rw [List.isEmpty_iff.1 hnil] at hcheck
      obtain ⟨e', he', hback⟩ := css_reads_back hsheet
      obtain rfl := Except.ok.inj (he.symm.trans he')
      obtain ⟨hiff, hthen⟩ := hback _ _ hindent (of_decide_eq_true hcss)
      split at hcssRead
      · next read hread =>
        have hneg := hiff.1 ⟨read, hread⟩
        obtain ⟨-, -, hstrict⟩ := hthen hneg
        exact ⟨sheet, e, hsheet, he, of_decide_eq_true hcss, hneg, hcheck, hstrict hcheck⟩
      · cases hcssRead
    · cases hsource
  · cases hsource

end Stylesheet

end StyleLang
