import StyleLang.Proofs.Grammar.Acceptance
import StyleLang.Proofs.Grammar.Holding
import StyleLang.Proofs.Grammar.Tokens

/-!
# The reader and the grammar

What is read without an error is spelled by the text. Main statement: a text is read as a tree if
and only if it spells the tree, no name in it being spelled like a keyword that is looked for there.
-/

namespace StyleLang

namespace Grammar

open Reading (Reads)

/-! ## Runs -/

/-- Tokens lead from a reading that holds some words to one that holds theirs too. Whether there was
a flaw before is known only when there is none at the end. -/
theorem holds_reads {r r' : Reading} {place : Cursor} {cs : List Char} {ts : List Token}
    (hreads : Reads r place cs ts r') {ws : List (List Char)} (h : r.flaw = none → Holds r ws)
    (hflaw : r'.flaw = none) : r.flaw = none ∧ Holds r' (ws ++ ts.map Token.chars) := by
  induction hreads generalizing ws with
  | stop =>
    rw [List.map_nil, List.append_nil]
    exact ⟨hflaw, h hflaw⟩
  | @token r next r' place start cs m ts _ hmatch hstep _ ih =>
    obtain ⟨hword, hfree⟩ := Match.ofText?_sound hmatch
    -- a step that leads to a reading without a flaw starts from one
    have hfirst : next.flaw = none → r.flaw = none := fun hf =>
      (Option.or_eq_none_iff.1 ((Reading.flaw_step hstep).symm.trans hf)).1
    have hnext : next.flaw = none → Holds next (ws ++ [m.lexeme]) := fun hf =>
      holds_step (h (hfirst hf)) hword hfree hstep hf
    obtain ⟨hf, hholds⟩ := ih hnext hflaw
    rw [List.append_assoc] at hholds
    exact ⟨hfirst hf, hholds⟩

/-- What a complete reading holds are the words of its items. -/
theorem items_of_holds {r : Reading} {ws : List (List Char)} (h : Holds r ws)
    (hcomplete : r.isComplete = true) :
    Items Reserve.keywords (Node.bareAll r.items.reverse) ws := by
  obtain ⟨before, since, haround, hsince, rfl⟩ := h
  obtain ⟨items, blocks, place, flaw⟩ := r
  unfold Reading.isComplete at hcomplete
  have hitems : blocks = [] → Items Reserve.keywords (Node.bareAll items.reverse) before := by
    rintro rfl
    cases haround with
    | top hitems => exact hitems
  cases hsince with
  | item _ _ =>
    rw [List.append_nil]
    exact hitems (List.isEmpty_iff.1 hcomplete)
  | afterAssignment _ _ =>
    rw [List.append_nil]
    exact hitems (List.isEmpty_iff.1 hcomplete)
  | _ => cases hcomplete

/-- A text spells the tree that it is read as. -/
theorem spells_of_parse {text : String} {read : Stylesheet}
    (h : Stylesheet.parse text = .ok read) : Spells Reserve.keywords text read := by
  unfold Stylesheet.parse at h
  split at h
  · cases h
  · next r hrun =>
    split at h
    · cases h
    · next hflaw =>
      obtain rfl := Except.ok.inj h
      obtain ⟨⟨ts, hts⟩, hcomplete⟩ := Reading.reads_of_run hrun
      obtain ⟨-, body, gap, hbody, hgap, htext⟩ := hts.spaced
      obtain ⟨-, hholds⟩ := holds_reads hts (fun _ => holds_start) hflaw
      exact ⟨_, body, gap, items_of_holds hholds hcomplete, hbody, hgap, htext⟩

/-- Whether a text spells a tree does not depend on positions. -/
theorem spells_of_same {R : Reserve} {text : String} {a b : Stylesheet} (h : Spells R text a)
    (hsame : a.toNode.same b.toNode = true) : Spells R text b := by
  obtain ⟨ws, body, gap, hitems, hbody, hgap, htext⟩ := h
  rw [Node.same_iff_bare] at hsame
  have hbare : Node.bareAll a.items = Node.bareAll b.items := by
    unfold Stylesheet.toNode Node.bare at hsame
    exact (Node.sheet.inj hsame).2
  exact ⟨ws, body, gap, hbare ▸ hitems, hbody, hgap, htext⟩

end Grammar

open Grammar

/-- A text is read as a tree, up to positions, if and only if it spells the tree, where no name is
spelled like a keyword that is looked for at its spot. -/
theorem Stylesheet.parse_iff_spells (text : String) (sheet : Stylesheet) :
    (∃ read, Stylesheet.parse text = .ok read ∧ read.toNode.same sheet.toNode = true) ↔
      Spells Reserve.keywords text sheet := by
  constructor
  · rintro ⟨read, hread, hsame⟩
    exact spells_of_same (spells_of_parse hread) hsame
  · exact parse_of_spells

/-- Without reserved words the grammar has spellings that are not read: the name of a property is
not looked for where a conditional can start. -/
theorem Stylesheet.property_if_unread : ¬
    ((∃ read, Stylesheet.parse "p { if: 1px; }" = .ok read ∧
      read.toNode.same (Stylesheet.toNode { items := [.rule {} [.selector {} .tag "p"]
        [.declaration {} "if" (.literal {} (.number .pixel 1))]] }) = true) ↔
    Spells Reserve.nothing "p { if: 1px; }" { items := [.rule {} [.selector {} .tag "p"]
        [.declaration {} "if" (.literal {} (.number .pixel 1))]] }) := by
  intro h
  have hone : ∀ (p : Char → Bool) (c : Char), p c = true → ∀ d ∈ [c], p d = true := by
    intro p c hc d hd
    rwa [List.mem_singleton.1 hd]
  have hselector : Selector (.selector {} .tag "p") ['p'] :=
    .tag ⟨'p', [], rfl, by decide, fun d hd => absurd hd List.not_mem_nil⟩
  have hatom : Atom Reserve.nothing (.literal {} (.number .pixel 1)) ['1', 'p', 'x'] :=
    @Atom.number _ .pixel ['1'] ⟨List.cons_ne_nil _ _, hone _ '1' (by decide)⟩ (by decide)
  have hdeclaration : Statement Reserve.nothing .statement
      (.declaration {} "if" (.literal {} (.number .pixel 1)))
      [['i', 'f'], [':'], ['1', 'p', 'x'], [';']] :=
    .declaration ⟨'i', ['f'], rfl, by decide, hone _ 'f' (by decide)⟩ id (.product (.atom hatom))
  have hrule := @Item.rule Reserve.nothing .item _ _ _ _ (.one hselector) (fun _ _ => id)
    (.snoc .nil hdeclaration)
  obtain ⟨read, hread, hsame⟩ := h.2 ⟨_, _, [], .snoc .nil hrule,
    .cons .nil (.cons (.space rfl .nil) (.cons (.space rfl .nil) (.cons .nil
      (.cons (.space rfl .nil) (.cons .nil (.cons (.space rfl .nil) .nil)))))), .nil, rfl⟩
  obtain ⟨ws, body, gap, hitems, -⟩ := spells_of_same (spells_of_parse hread) hsame
  obtain ⟨us, vs, -, -, hitem⟩ := @Items.last _ [] _ _ hitems
  cases hitem with
  | assignment h => cases h
  | rule _ _ hbody =>
    obtain ⟨us, vs, -, -, hstatement⟩ := @Body.last _ [] _ _ hbody
    exact hstatement.property_free rfl

end StyleLang
