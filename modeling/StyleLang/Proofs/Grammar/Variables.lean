import StyleLang.Proofs.Compile.Stages
import StyleLang.Proofs.Grammar.Replacing
import StyleLang.Proofs.Pass.Arrival

/-!
# Using variables

A variable may have a name that no expression can refer to: a name is looked for where an assignment
may start, and there the words for truth values are names. Main statement: the name of a variable,
put in the place of an expression after the assignment, is read as a reference and stands for what
was assigned if and only if it is none of these words.
-/

namespace StyleLang

open Grammar

/-- The words for truth values. -/
def truthWords : List String := ["FALSE", "false", "TRUE", "true"]

theorem keywords_operand_iff {name : String} :
    Reserve.keywords .operand name.toList ↔ name ∈ truthWords := by
  have hword : ∀ word : String, name.toList = word.toList ↔ name = word :=
    fun word => String.toList_inj
  have hFALSE := hword "FALSE"
  have hfalse := hword "false"
  have hTRUE := hword "TRUE"
  have htrue := hword "true"
  rw [show "FALSE".toList = ['F', 'A', 'L', 'S', 'E'] by decide] at hFALSE
  rw [show "false".toList = ['f', 'a', 'l', 's', 'e'] by decide] at hfalse
  rw [show "TRUE".toList = ['T', 'R', 'U', 'E'] by decide] at hTRUE
  rw [show "true".toList = ['t', 'r', 'u', 'e'] by decide] at htrue
  simp only [Reserve.keywords, hFALSE, hfalse, hTRUE, htrue, truthWords, List.mem_cons,
    List.not_mem_nil, or_false]

/-- The word of a truth value is an atom. -/
theorem exists_atom_of_keywords {name : String} (h : Reserve.keywords .operand name.toList) :
    ∃ b, Atom .keywords (.literal {} (.bool b)) name.toList := by
  rcases h with h | h | h | h
  · exact ⟨false, .bool (by rw [h]; decide)⟩
  · exact ⟨false, .bool (by rw [h]; decide)⟩
  · exact ⟨true, .bool (by rw [h]; decide)⟩
  · exact ⟨true, .bool (by rw [h]; decide)⟩

namespace Stylesheet

/-- The second tree is the first one with a reference to the name in a place of the statement at the
site. Wherever a run looks names up at that statement, it has looked them up at the assignment, and
if the name is not assigned again in between, the reference folds to what was assigned. -/
structure Uses (sheet read : Stylesheet) (name : String) (assigned site rest : Path) : Prop where
  tree : read.toNode.same (sheet.graft (site ++ rest) (.reference {} name)).toNode = true
  reference : ∃ pos, read.toNode.at? (site ++ rest) = some (.reference pos name)
  value : ∃ pos e, read.toNode.at? assigned = some (.assignment pos name e) ∧
    ∀ later, (site, later) ∈ read.readings →
      (∀ q, Path.Before assigned q → Path.Before q site → ∀ pos e,
        read.toNode.at? q ≠ some (.assignment pos name e)) →
      ∃ values c, (assigned, values) ∈ read.readings ∧ (Evaluate.fold values e).result = .ok c ∧
        ∀ pos, Evaluate.fold later (.reference pos name) = .ok c

variable {text : String} {sheet read : Stylesheet} {name : String} {path assigned site rest : Path}
  {pos : Position} {e n : Node}

theorem ne_toNode (hn : n.PlacedExpression) : n ≠ sheet.toNode := by
  rintro rfl
  exact hn

theorem graft_at? (m : Node) (hat : sheet.toNode.at? path = some n) (hn : n.PlacedExpression) :
    (sheet.graft path m).toNode.at? path = some m := by
  rw [toNode_graft hat (ne_toNode hn)]
  exact Node.at?_graft_self m hat

/-- A statement before the site is as it was. -/
theorem graft_at?_before (m : Node) (hat : sheet.toNode.at? (site ++ rest) = some n)
    (hn : n.PlacedExpression) (hbefore : Path.Before assigned site) :
    (sheet.graft (site ++ rest) m).toNode.at? assigned = sheet.toNode.at? assigned := by
  rw [toNode_graft hat (ne_toNode hn)]
  obtain ⟨block, edge, i, j, rest', hedge, hij, rfl, rfl⟩ := hbefore
  rw [List.append_assoc, List.cons_append]
  exact Node.at?_graft_beside (hedge.ne (Nat.ne_of_lt hij)) m block _ [] _

theorem uses_of_same (hplaced : read.Placed)
    (ha : sheet.toNode.at? assigned = some (.assignment pos name e))
    (hat : sheet.toNode.at? (site ++ rest) = some n) (hn : n.PlacedExpression)
    (hbefore : Path.Before assigned site)
    (hsame : read.toNode.same (sheet.graft (site ++ rest) (.reference {} name)).toNode = true) :
    Uses sheet read name assigned site rest := by
  obtain ⟨m, hm, hbare⟩ := Node.exists_at?_of_same hsame (graft_at? _ hat hn)
  obtain ⟨pos', rfl⟩ := Node.exists_reference_of_bare hbare
  obtain ⟨m, hassigned, hbare⟩ := Node.exists_at?_of_same hsame
    ((graft_at?_before _ hat hn hbefore).trans ha)
  obtain ⟨pos', e', rfl, -⟩ := Node.exists_assignment_of_bare hbare
  refine ⟨hsame, ⟨_, hm⟩, _, e', hassigned, fun later hlater hkeep => ?_⟩
  obtain ⟨values, hvalues⟩ := exists_reading_before hplaced hassigned hbefore hlater
  obtain ⟨c, hc, hname⟩ := (arrives_of_readings hvalues).binds (arrives_of_readings hlater)
    hassigned hbefore hkeep
  refine ⟨values, c, hvalues, hc, fun pos => ?_⟩
  rw [Evaluate.fold, hname]
  rfl

/-- A rule with an assignment of the word and a declaration of the value. -/
def halved (w : List Char) (value : Value) : Stylesheet :=
  { items := [.rule {} [.selector {} .tag "p"]
    [.assignment {} (String.ofList w) (.literal {} (.number .percentage 50)),
      .declaration {} "width" (.literal {} value)]] }

/-- The text of the rule, with the words of the assigned name and the value. -/
def halvedText (w v : List Char) : List Char :=
  ['p', ' ', '{', ' '] ++ (w ++ ([' ', ':', '=', ' ', '5', '0', '%', ';', ' '] ++
    (['w', 'i', 'd', 't', 'h', ':', ' '] ++ (v ++ [';', ' ', '}']))))

theorem spelled_halved (w v : List Char) :
    Spelled [['p'], ['{'], w, [':', '='], ['5', '0', '%'], [';'], ['w', 'i', 'd', 't', 'h'], [':'],
      v, [';'], ['}']] (halvedText w v) := by
  have hatom : Spelled [v, [';'], ['}']] (v ++ [';', ' ', '}']) :=
    .cons (.cons (.space (.word ['}'])))
  have hassigned : Spelled [w, [':', '='], ['5', '0', '%'], [';'], ['w', 'i', 'd', 't', 'h'], [':'],
      v, [';'], ['}']] _ :=
    .cons (.space (.cons (.space (.cons (.cons (.space (.cons (.cons (.space hatom)))))))))
  exact .cons (.space (.cons (.space hassigned)))

theorem parse_halved {w v : List Char} {value : Value} (hw : IsVariable w) (hif : w ≠ ['i', 'f'])
    (hv : Atom .keywords (.literal {} value) v) (htext : text.toList = halvedText w v) :
    ∃ read, Stylesheet.parse text = .ok read ∧
      (∃ pos e, read.toNode.at? [.item 0, .body 0] =
        some (.assignment pos (String.ofList w) e)) ∧
      ∃ pos, read.toNode.at? [.item 0, .body 1, .expression] = some (.literal pos value) := by
  have hselector : Selector (.selector {} .tag "p") ['p'] :=
    .tag ⟨'p', [], rfl, rfl, List.all_eq_true.1 rfl⟩
  have hhalf : Atom .keywords (.literal {} (.number .percentage 50)) ['5', '0', '%'] :=
    @Atom.number _ .percentage ['5', '0'] ⟨List.cons_ne_nil _ _, List.all_eq_true.1 rfl⟩ (by decide)
  have hassignment : Statement .keywords .statement
      (.assignment {} (String.ofList w) (.literal {} (.number .percentage 50)))
      [w, [':', '='], ['5', '0', '%'], [';']] := .assignment (.mk hw hif (.product (.atom hhalf)))
  have hwidth : IsName ['w', 'i', 'd', 't', 'h'] :=
    ⟨'w', ['i', 'd', 't', 'h'], rfl, rfl, List.all_eq_true.1 rfl⟩
  have hdeclaration : Statement .keywords .statement
      (.declaration {} "width" (.literal {} value)) [['w', 'i', 'd', 't', 'h'], [':'], v, [';']] :=
    .declaration hwidth (by simp [Reserve.keywords]) (.product (.atom hv))
  have hrule := @Item.rule .keywords .item _ _ _ _ (.one hselector) (fun _ _ => id)
    (.snoc (.snoc .nil hassignment) hdeclaration)
  obtain ⟨body, gap, hbody, hgap, hspelled⟩ := spelled_halved w v
  obtain ⟨read, hread, hsame⟩ := @parse_of_spells text (halved w value)
    ⟨_, body, gap, .snoc .nil hrule, hbody, hgap, htext.trans hspelled⟩
  obtain ⟨m, hassigned, hm⟩ := @Node.exists_at?_of_same _ _ _ [.item 0, .body 0] hsame rfl
  obtain ⟨pos, e, rfl, -⟩ := Node.exists_assignment_of_bare hm
  obtain ⟨m, hplace, hm⟩ :=
    @Node.exists_at?_of_same _ _ _ [.item 0, .body 1, .expression] hsame rfl
  obtain ⟨pos', rfl⟩ := Node.exists_literal_of_bare hm
  exact ⟨read, hread, ⟨pos, e, hassigned⟩, pos', hplace⟩

/-- A variable is used through its name if and only if the name is no word for a truth value. -/
theorem variable_usable_iff (h : Stylesheet.parse text = .ok sheet)
    (ha : sheet.toNode.at? assigned = some (.assignment pos name e))
    (hat : sheet.toNode.at? (site ++ rest) = some n) (hn : n.PlacedExpression)
    (hbefore : Path.Before assigned site) :
    ∃ before words after, Spelled (before ++ words ++ after) text.toList ∧
      Expression .keywords n.bare words ∧
      ∀ text', Spelled (before ++ name.toList :: after) text'.toList →
        ∃ read, Stylesheet.parse text' = .ok read ∧
          (Uses sheet read name assigned site rest ↔ name ∉ truthWords) := by
  obtain ⟨before, words, after, htext, hwords, hatom⟩ := parse_graft h hat hn
  refine ⟨before, words, after, htext, hwords, fun text' htext' => ?_⟩
  by_cases hword : name ∈ truthWords
  · obtain ⟨b, hb⟩ := exists_atom_of_keywords (keywords_operand_iff.2 hword)
    obtain ⟨read, hread, hsame⟩ := hatom hb htext'
    refine ⟨read, hread, fun huses => ?_, fun hnot => absurd hword hnot⟩
    -- a literal is read in the place
    obtain ⟨m, hm, hbare⟩ := Node.exists_at?_of_same hsame (graft_at? _ hat hn)
    obtain ⟨pos, hreference⟩ := huses.reference
    obtain rfl := Option.some.inj (hm.symm.trans hreference)
    cases hbare
  · have hvariable := isVariable_of_parse h ha
    have hreference := Atom.reference hvariable fun hk => hword (keywords_operand_iff.1 hk)
    rw [String.ofList_toList] at hreference
    obtain ⟨read, hread, hsame⟩ := hatom hreference htext'
    exact ⟨read, hread, fun _ => hword,
      fun _ => uses_of_same (placed_of_parse hread) ha hat hn hbefore hsame⟩

/-- The variable of a rule is used in the rule. -/
theorem variable_usable_half :
    ∃ sheet, Stylesheet.parse "p { Half := 50%; width: 1px; }" = .ok sheet ∧
      ∃ before words after,
        Spelled (before ++ words ++ after) "p { Half := 50%; width: 1px; }".toList ∧
        ∀ text', Spelled (before ++ "Half".toList :: after) text'.toList →
          ∃ read, Stylesheet.parse text' = .ok read ∧
            Uses sheet read "Half" [.item 0, .body 0] [.item 0, .body 1] [.expression] := by
  have hpixel : Atom .keywords (.literal {} (.number .pixel 1)) ['1', 'p', 'x'] :=
    @Atom.number _ .pixel ['1'] ⟨List.cons_ne_nil _ _, List.all_eq_true.1 rfl⟩ (by decide)
  have hname : IsVariable ['H', 'a', 'l', 'f'] :=
    ⟨'H', ['a', 'l', 'f'], rfl, rfl, List.all_eq_true.1 rfl⟩
  obtain ⟨sheet, hparse, ⟨pos, e, ha⟩, pos', hat⟩ :=
    @parse_halved "p { Half := 50%; width: 1px; }" _ _ _ hname (by decide) hpixel rfl
  have hbefore : Path.Before [.item 0, .body 0] [.item 0, .body 1] :=
    ⟨[.item 0], .body, 0, 1, [], .inr (.inl rfl), by decide, rfl, rfl⟩
  obtain ⟨before, words, after, htext, -, huses⟩ :=
    variable_usable_iff (n := .literal pos' _) hparse ha hat trivial hbefore
  refine ⟨sheet, hparse, before, words, after, htext, fun text' htext' => ?_⟩
  obtain ⟨read, hread, hiff⟩ := huses text' htext'
  exact ⟨read, hread, hiff.2 (by decide)⟩

/-- The word for a truth value is read as one, also where it is the name of a variable. -/
theorem true_unusable :
    ∃ sheet, Stylesheet.parse "p { true := 50%; width: true; }" = .ok sheet ∧
      (∃ pos e, sheet.toNode.at? [.item 0, .body 0] = some (.assignment pos "true" e)) ∧
      Spelled [['p'], ['{'], "true".toList, [':', '='], ['5', '0', '%'], [';'],
        ['w', 'i', 'd', 't', 'h'], [':'], "true".toList, [';'], ['}']]
        "p { true := 50%; width: true; }".toList ∧
      (∃ pos, sheet.toNode.at? [.item 0, .body 1, .expression] =
        some (.literal pos (.bool true))) ∧
      ¬ Uses sheet sheet "true" [.item 0, .body 0] [.item 0, .body 1] [.expression] := by
  have htrue : Atom .keywords (.literal {} (.bool true)) ['t', 'r', 'u', 'e'] := .bool (by decide)
  have hname : IsVariable ['t', 'r', 'u', 'e'] :=
    ⟨'t', ['r', 'u', 'e'], rfl, rfl, List.all_eq_true.1 rfl⟩
  obtain ⟨sheet, hparse, hassigned, pos, hat⟩ :=
    @parse_halved "p { true := 50%; width: true; }" _ _ _ hname (by decide) htrue rfl
  refine ⟨sheet, hparse, hassigned, spelled_halved _ _, ⟨pos, hat⟩, fun huses => ?_⟩
  obtain ⟨pos', hreference⟩ := huses.reference
  cases hat.symm.trans hreference

end Stylesheet

end StyleLang
