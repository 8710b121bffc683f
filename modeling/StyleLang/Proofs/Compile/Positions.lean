import Mathlib.Algebra.Group.Nat.Defs
import Mathlib.Data.List.Forall2
import Mathlib.Logic.Relation
import StyleLang.Proofs.Compile.Stages
import StyleLang.Proofs.Grammar.FirstTokens
import StyleLang.Proofs.Pass.Relabeling
import StyleLang.Proofs.Pass.Sites

/-!
# Positions

A position is kept for messages only. Main statement: trees that are the same but for their
positions are checked, evaluated, printed and compiled alike; of the lines of the two logs and of
the words of a refusal those about findings may differ, in the brackets that say where a finding is.
Only if a number in a position is over the limit on digits, there are no words for a refusal that
would show it; a source that is not astronomically long is always refused in words.
-/

namespace StyleLang

/-! ## Without positions -/

/-- The finding without the position of its node. -/
def Finding.bare (f : Finding) : Finding := { f with pos := {} }

namespace Relabeling

theorem unplace_finding : unplace.finding = Finding.bare := by
  funext f
  obtain ⟨severity, problem, pos, path⟩ := f
  cases problem <;> rfl

end Relabeling

namespace Stylesheet

/-- The tree without positions. -/
def bare (sheet : Stylesheet) : Stylesheet := { items := Node.bareAll sheet.items }

theorem same_iff_bare {a b : Stylesheet} :
    a.toNode.same b.toNode = true ↔ a.bare = b.bare := by
  rw [Node.same_iff_bare, toNode, toNode, Node.bare, Node.bare, bare, bare]
  simp

theorem relabel_unplace (sheet : Stylesheet) : sheet.relabel .unplace = sheet.bare :=
  congrArg (Stylesheet.mk {}) (Node.relabelAll_unplace sheet.items)

end Stylesheet

/-- The evaluated tree and the defects without positions. -/
def Evaluation.bare (e : Evaluation) : Evaluation :=
  { stylesheet := e.stylesheet.bare, defects := e.defects.map Finding.bare }

namespace LogEvent

/-- The event without the position of a finding. -/
def bare : LogEvent → LogEvent
  | diagnostic f => diagnostic f.bare
  | defect f => defect f.bare
  | event => event

end LogEvent

/-- The error without the positions of findings. -/
def CompileError.bare : CompileError → CompileError
  | rejected findings => rejected (findings.map Finding.bare)
  | error => error

/-- The log and the outcome without positions. -/
def Compilation.bare (c : Compilation) : Compilation :=
  { log := c.log.map LogEvent.bare, result := c.result.mapError CompileError.bare }

/-! ## What is done with a tree without positions -/

namespace Stylesheet

theorem check_bare (sheet : Stylesheet) :
    sheet.bare.check = sheet.check.map (List.map Finding.bare) := by
  rw [← relabel_unplace, check_relabel Relabeling.unplace_faithful, Relabeling.unplace_finding]

theorem evaluate_bare (sheet : Stylesheet) :
    sheet.bare.evaluate = sheet.evaluate.map Evaluation.bare := by
  rw [← relabel_unplace, evaluate_relabel Relabeling.unplace_faithful, Relabeling.unplace_finding]
  simp only [relabel_unplace]
  rfl

theorem css_bare (sheet : Stylesheet) (indent : String) :
    sheet.bare.css indent = sheet.css indent := by
  have hrules : sheet.bare.items.mapM (Css.rule indent) = sheet.items.mapM (Css.rule indent) :=
    Css.mapM_bareAll (Css.rule_bare indent) sheet.items
  rw [css, css, hrules]

theorem length_bare (sheet : Stylesheet) : sheet.bare.items.length = sheet.items.length := by
  rw [bare, Node.bareAll_eq_map, List.length_map]

end Stylesheet

namespace Compilation

theorem evaluationLog_bare (defects : List Finding) :
    evaluationLog (defects.map Finding.bare) = (evaluationLog defects).map LogEvent.bare := by
  unfold evaluationLog
  cases defects with
  | nil => rfl
  | cons f fs => simp [LogEvent.bare]

theorem finish_bare (config : Config) (log : List LogEvent) (sheet : Stylesheet) :
    finish config (log.map LogEvent.bare) sheet.bare = (finish config log sheet).bare := by
  unfold finish
  rw [Stylesheet.evaluate_bare]
  cases sheet.evaluate with
  | error e => rfl
  | ok e =>
    simp only [Except.map, Evaluation.bare, Stylesheet.css_bare, evaluationLog_bare,
      Stylesheet.length_bare]
    cases e.stylesheet.css config.indent with
    | error reason => simp [bare, Except.mapError, CompileError.bare]
    | ok css => simp [bare, Except.mapError, LogEvent.bare]

end Compilation

namespace Stylesheet

theorem checkLog_bare (sheet : Stylesheet) (findings : List Finding) :
    sheet.bare.checkLog (findings.map Finding.bare) =
      (sheet.checkLog findings).map LogEvent.bare := by
  simp [checkLog, LogEvent.bare, length_bare]

/-- Without positions a tree is compiled as with them, and nothing that is said has one. -/
theorem compile_bare (config : Config) (sheet : Stylesheet) :
    sheet.bare.compile config = (sheet.compile config).bare := by
  have hbare := sheet.check_bare
  cases hcheck : sheet.check with
  | error e =>
    rw [hcheck] at hbare
    unfold compile
    rw [hcheck, hbare, length_bare]
    rfl
  | ok findings =>
    rw [hcheck] at hbare
    rw [compile_of_check hcheck, compile_of_check hbare, List.isEmpty_map,
      checkLog_bare]
    split
    · rfl
    · exact Compilation.finish_bare config _ sheet

end Stylesheet

/-! ## Log lines -/

theorem forall₂_of_map_eq {α β : Type} {f : α → β} {xs ys : List α} (h : xs.map f = ys.map f) :
    List.Forall₂ (fun x y => f x = f y) xs ys := by
  have heq := List.forall₂_eq_eq_eq ▸ h
  rwa [List.forall₂_map_left_iff, List.forall₂_map_right_iff] at heq

/-- The texts are the same, but at one place each may say where a finding is. -/
def DifferInLocation (s t : String) : Prop :=
  ∃ before after pos pos', s = before ++ Finding.location pos ++ after ∧
    t = before ++ Finding.location pos' ++ after

theorem differInLocation_refl (s : String) : DifferInLocation s s :=
  ⟨s, "", {}, {}, by simp [Finding.location]⟩

theorem DifferInLocation.surround {s t : String} (h : DifferInLocation s t)
    (left right : String) : DifferInLocation (left ++ s ++ right) (left ++ t ++ right) := by
  obtain ⟨before, after, pos, pos', rfl, rfl⟩ := h
  exact ⟨left ++ before, after ++ right, pos, pos', by simp [String.append_assoc]⟩

namespace Finding

theorem text_of_bare {f g : Finding} (h : f.bare = g.bare) : DifferInLocation f.text g.text := by
  obtain ⟨severity, problem, pos, path⟩ := f
  obtain ⟨severity', problem', pos', path'⟩ := g
  simp only [bare, mk.injEq, true_and] at h
  obtain ⟨rfl, rfl, rfl⟩ := h
  exact ⟨severity.label, ": " ++ problem.message, pos, pos',
    by simp [text, message, String.append_assoc]⟩

end Finding

theorem LogEvent.line_of_bare {x y : LogEvent} (h : x.bare = y.bare) :
    DifferInLocation x.line y.line := by
  have hfinding : ∀ {f g : Finding} (opening : String), f.bare = g.bare →
      DifferInLocation (opening ++ f.text) (opening ++ g.text) := by
    intro f g opening hfg
    have htext := (Finding.text_of_bare hfg).surround opening ""
    rwa [String.append_empty, String.append_empty] at htext
  cases x with
  | diagnostic f =>
    cases y with
    | diagnostic g => exact hfinding "DEBUG icss.compiler: " (diagnostic.inj h)
    | _ => cases h
  | defect f =>
    cases y with
    | defect g => exact hfinding "WARNING icss.compiler: " (defect.inj h)
    | _ => cases h
  | _ =>
    cases y <;> cases h
    exact differInLocation_refl _

/-! ## Words of refusals -/

namespace Finding

theorem mapM_print? (fs : List Finding) :
    fs.mapM print? = if fs.all printable then some (fs.map text) else none := by
  induction fs with
  | nil => rfl
  | cons f fs ih =>
    rw [List.mapM_cons, ih, List.all_cons, print?]
    by_cases hf : f.printable = true
    · rw [if_pos hf, hf, Bool.true_and]
      split <;> rfl
    · rw [if_neg hf, Bool.eq_false_iff.2 hf]
      rfl

end Finding

/-- What is said of a tree with such findings, whether it can be written or not. -/
def rejection (fs : List Finding) : String :=
  let summary := "; ".intercalate (fs.map Finding.text)
  s!"Compilation failed with {fs.length} error(s): {summary}"

theorem rejection?_eq (fs : List Finding) :
    rejection? fs = if fs.all Finding.printable then some (rejection fs) else none := by
  rw [rejection?, Finding.summary?, Finding.mapM_print?]
  split <;> rfl

/-- The texts are the same, but at some places each may say where a finding is. -/
def DifferInLocations : String → String → Prop := Relation.ReflTransGen DifferInLocation

theorem DifferInLocations.surround {s t : String} (h : DifferInLocations s t)
    (left right : String) : DifferInLocations (left ++ s ++ right) (left ++ t ++ right) :=
  Relation.ReflTransGen.lift (fun s => left ++ s ++ right)
    (fun _ _ hst => DifferInLocation.surround hst left right) _ _ h

theorem differInLocations_intercalate (separator : String) {ss ts : List String}
    (h : List.Forall₂ DifferInLocation ss ts) :
    DifferInLocations (separator.intercalate ss) (separator.intercalate ts) := by
  induction h with
  | nil => exact .refl
  | @cons s t ss ts hst hrest ih =>
    cases hrest with
    | nil => exact .single hst
    | @cons s' t' ss ts _ _ =>
      rw [String.intercalate_cons_cons, String.intercalate_cons_cons]
      have hhead := hst.surround "" (separator ++ separator.intercalate (s' :: ss))
      have htail := ih.surround (t ++ separator) ""
      simp only [String.empty_append, String.append_empty, ← String.append_assoc] at hhead htail
      exact Relation.ReflTransGen.head hhead htail

theorem rejection_of_bare {fs gs : List Finding} (h : fs.map Finding.bare = gs.map Finding.bare) :
    DifferInLocations (rejection fs) (rejection gs) := by
  have hlength : fs.length = gs.length := by simpa using congrArg List.length h
  have htexts : List.Forall₂ DifferInLocation (fs.map Finding.text) (gs.map Finding.text) := by
    rw [List.forall₂_map_left_iff, List.forall₂_map_right_iff]
    exact (forall₂_of_map_eq h).imp fun _ _ => Finding.text_of_bare
  have hwords := (differInLocations_intercalate "; " htexts).surround
    s!"Compilation failed with {gs.length} error(s): " ""
  rw [String.append_empty, String.append_empty] at hwords
  unfold rejection
  rwa [hlength]

/-- The callers get the same, but for positions; of two refusals there may be words for one and none
for the other one. -/
inductive Reply.Agree : Reply → Reply → Prop where
  | css (text : String) : Agree (.css text) (.css text)
  | refused {fs gs : List Finding} {words words' : String}
      (hfindings : fs.map Finding.bare = gs.map Finding.bare)
      (hwords : DifferInLocations words words') : Agree (.refused fs words) (.refused gs words')
  | unwritable : Agree .unwritable .unwritable
  | unwritable_left (fs : List Finding) (words : String) : Agree .unwritable (.refused fs words)
  | unwritable_right (fs : List Finding) (words : String) : Agree (.refused fs words) .unwritable
  | failed (reason : CompileError) : Agree (.failed reason) (.failed reason)

namespace Compilation

theorem reply_rejected (log : List LogEvent) (fs : List Finding) :
    reply ⟨log, .error (.rejected fs)⟩ =
      if fs.all Finding.printable then .refused fs (rejection fs) else .unwritable := by
  simp only [reply, rejection?_eq]
  by_cases hfs : fs.all Finding.printable = true
  · rw [if_pos hfs, if_pos hfs]
  · rw [if_neg hfs, if_neg hfs]

theorem reply_rejected_eq_unwritable_iff {log : List LogEvent} {fs : List Finding} :
    reply ⟨log, .error (.rejected fs)⟩ = .unwritable ↔ ∃ f ∈ fs, f.printable = false := by
  rw [reply_rejected, ite_eq_right_iff]
  simp

/-- A compilation that evaluates refuses nothing. -/
theorem reply_finish_ne (config : Config) (log : List LogEvent) (sheet : Stylesheet) :
    (finish config log sheet).reply ≠ .unwritable := by
  unfold finish
  cases sheet.evaluate with
  | error reason => simp [reply]
  | ok e => cases hcss : e.stylesheet.css config.indent <;> simp [reply, hcss]

theorem agree_of_bare {c d : Compilation} (h : c.bare = d.bare) : c.reply.Agree d.reply := by
  obtain ⟨log, result⟩ := c
  obtain ⟨log', result'⟩ := d
  have hresult : result.mapError CompileError.bare = result'.mapError CompileError.bare :=
    congrArg Compilation.result h
  cases result with
  | ok css =>
    cases result' with
    | ok css' => cases hresult; exact .css css
    | error reason => cases hresult
  | error reason =>
    cases result' with
    | ok css => cases hresult
    | error reason' =>
      have hreason : reason.bare = reason'.bare := Except.error.inj hresult
      cases reason with
      | rejected fs =>
        cases reason' with
        | rejected gs =>
          have hfindings := CompileError.rejected.inj hreason
          rw [reply_rejected, reply_rejected]
          split <;> split
          · exact .refused hfindings (rejection_of_bare hfindings)
          · exact .unwritable_right _ _
          · exact .unwritable_left _ _
          · exact .unwritable
        | _ => cases hreason
      | _ =>
        cases reason' <;> cases hreason
        exact .failed _

end Compilation

/-! ## Two trees -/

namespace Stylesheet

/-- There are no words for a refusal if a finding has a position that cannot be written. -/
theorem reply_eq_unwritable_iff {config : Config} {sheet : Stylesheet} :
    (sheet.compile config).reply = .unwritable ↔ config.strict = true ∧
      ∃ findings, sheet.check = .ok findings ∧ ∃ f ∈ findings, f.printable = false := by
  cases hcheck : sheet.check with
  | error reason =>
    unfold compile
    rw [hcheck]
    exact ⟨nofun, nofun⟩
  | ok findings =>
    rw [compile_of_check hcheck]
    split
    · next hrefused =>
      rw [Compilation.reply_rejected_eq_unwritable_iff]
      constructor
      · exact fun hlong => ⟨(Bool.and_eq_true_iff.1 hrefused).1, findings, rfl, hlong⟩
      · rintro ⟨-, _, hfound, hlong⟩
        obtain rfl := Except.ok.inj hfound
        exact hlong
    · next hkept =>
      refine ⟨fun hreply => absurd hreply (Compilation.reply_finish_ne _ _ _), ?_⟩
      rintro ⟨hstrict, _, hfound, f, hf, -⟩
      obtain rfl := Except.ok.inj hfound
      refine absurd ?_ hkept
      rw [hstrict, Bool.true_and, Bool.not_eq_true', List.isEmpty_eq_false_iff]
      exact List.ne_nil_of_mem hf

/-- **Positions do not matter.** Let two trees be the same but for their positions. The checker
stops at the same fault, or finds the same problems at the same places in the same order. The
evaluator stops at the same fault, or leaves trees that are the same, with the same defects at the
same places. The printer gives the same text or the same error. A compilation ends alike and logs
the same events; between two lines of the logs, only what is said of a position differs. The callers
get the same, and in the words of a refusal only what is said of positions differs; there are none
if the refusal is about a position that cannot be written. -/
theorem positions_do_not_matter {a b : Stylesheet} (h : a.toNode.same b.toNode = true) :
    a.check.map (List.map Finding.bare) = b.check.map (List.map Finding.bare) ∧
    a.evaluate.map Evaluation.bare = b.evaluate.map Evaluation.bare ∧
    (∀ indent, a.css indent = b.css indent) ∧
    ∀ config, (a.compile config).bare = (b.compile config).bare ∧
      List.Forall₂ (fun x y => x.printable → y.printable → DifferInLocation x.line y.line)
        (a.compile config).log (b.compile config).log ∧
      (a.compile config).reply.Agree (b.compile config).reply ∧
      ((a.compile config).reply = .unwritable ↔ config.strict = true ∧
        ∃ findings, a.check = .ok findings ∧ ∃ f ∈ findings, f.printable = false) := by
  have hbare : a.bare = b.bare := same_iff_bare.1 h
  refine ⟨?_, ?_, fun indent => ?_, fun config => ?_⟩
  · rw [← check_bare, hbare, check_bare]
  · rw [← evaluate_bare, hbare, evaluate_bare]
  · rw [← css_bare, hbare, css_bare]
  · have hcompile : (a.compile config).bare = (b.compile config).bare := by
      rw [← compile_bare, hbare, compile_bare]
    have hlog : (a.compile config).log.map LogEvent.bare =
        (b.compile config).log.map LogEvent.bare := congrArg Compilation.log hcompile
    exact ⟨hcompile, (forall₂_of_map_eq hlog).imp fun _ _ hxy _ _ => LogEvent.line_of_bare hxy,
      Compilation.agree_of_bare hcompile, reply_eq_unwritable_iff⟩

/-- A name that stands for nothing, on the first line and on the second one. -/
theorem positions_do_not_matter_unknown :
    let sheet (line : Int) : Stylesheet :=
      { items := [.rule ⟨some line, some 1⟩ [.selector ⟨some line, some 1⟩ .tag "p"]
          [.declaration ⟨some line, some 5⟩ "width" (.reference ⟨some line, some 12⟩ "B")]] }
    let log (line : String) : List String :=
      ["INFO icss.compiler: Checking stylesheet with 1 top-level item(s)",
        "DEBUG icss.validation.checker: Checked stylesheet: 1 diagnostic(s)",
        "DEBUG icss.compiler: ERROR [line " ++ line ++ ":12]: unknown variable: B"]
    (sheet 1).toNode.same (sheet 2).toNode = true ∧
      ((sheet 1).compile {}).log.map LogEvent.line = log "1" ∧
      ((sheet 2).compile {}).log.map LogEvent.line = log "2" ∧
      ((sheet 1).compile {}).reply.Agree ((sheet 2).compile {}).reply := by
  intro sheet log
  have hsame : (sheet 1).toNode.same (sheet 2).toNode = true := rfl
  have hfirst : ((sheet 1).compile {}).log.map LogEvent.line = log "1" := by decide +kernel
  have hsecond : ((sheet 2).compile {}).log.map LogEvent.line = log "2" := by decide +kernel
  obtain ⟨-, -, -, hcompile⟩ := positions_do_not_matter hsame
  exact ⟨hsame, hfirst, hsecond, (hcompile {}).2.2.1⟩

/-- A property that is not allowed, on two lines and on one with a number that is too long: the
words of the refusal show the line, and there are none in the last case. -/
theorem position_shows :
    let sheet (line : Int) : Stylesheet :=
      { items := [.declaration ⟨some line, some 1⟩ "margin" (.literal {} (.number .pixel 1))] }
    let words (line : String) : String :=
      "Compilation failed with 1 error(s): ERROR [line " ++ line ++
        ":1]: property 'margin' is not allowed"
    let long : Int := .ofNat (Nat.pow 10 digitLimit)
    (sheet 1).toNode.same (sheet 2).toNode = true ∧
      (sheet 1).toNode.same (sheet long).toNode = true ∧
      (∃ findings, ((sheet 1).compile {}).reply = .refused findings (words "1")) ∧
      (∃ findings, ((sheet 2).compile {}).reply = .refused findings (words "2")) ∧
      words "1" ≠ words "2" ∧ ((sheet long).compile {}).reply = .unwritable := by
  intro sheet words long
  let finding (line : Int) : Finding :=
    { severity := .error, problem := .unknownProperty "margin", pos := ⟨some line, some 1⟩
      path := [.item 0] }
  have hcheck : ∀ line, (sheet line).check = .ok [finding line] := fun _ => rfl
  have hrefused : ∀ line, (finding line).printable = true →
      ((sheet line).compile {}).reply = .refused [finding line] (rejection [finding line]) := by
    intro line hline
    rw [compile_of_rejected (hcheck line) rfl (List.cons_ne_nil _ _), Compilation.reply_rejected,
      List.all_cons, hline]
    rfl
  have hfirst : rejection [finding 1] = words "1" := by decide +kernel
  have hsecond : rejection [finding 2] = words "2" := by decide +kernel
  have hlong : (finding long).printable = false := by decide +kernel
  refine ⟨rfl, rfl, ⟨_, hfirst ▸ hrefused 1 (by decide +kernel)⟩,
    ⟨_, hsecond ▸ hrefused 2 (by decide +kernel)⟩, by decide, ?_⟩
  exact reply_eq_unwritable_iff.2
    ⟨rfl, _, hcheck long, finding long, List.mem_singleton_self _, hlong⟩

end Stylesheet

/-! ## Positions in sources -/

theorem withinLimit_natCast {n : Nat} (h : n < 10 ^ digitLimit) : withinLimit (n : Int) = true := by
  refine decide_eq_true ?_
  exact (Nat.length_toDigits_le_iff (by decide) (by decide)).2 h

/-- A token stands on a line and in a column of which there are no more than characters. -/
theorem Token.StandsIn.printable {t : Token} {source : String} (h : t.StandsIn source)
    (hshort : source.length + 1 < 10 ^ digitLimit) : t.position.printable = true := by
  obtain ⟨seen, rest, hsource, hstart⟩ := h
  have hlength : seen.length ≤ source.length := by
    rw [← String.length_toList, hsource, List.length_append]
    exact Nat.le_add_right _ _
  have hline : seen.count '\n' ≤ seen.length := List.count_le_length
  have hcolumn : (seen.reverse.takeWhile (· != '\n')).length ≤ seen.length :=
    Nat.le_trans (List.takeWhile_sublist _).length_le (Nat.le_of_eq List.length_reverse)
  have hline' : t.start.line < 10 ^ digitLimit := by
    rw [hstart]
    dsimp only
    omega
  have hcolumn' : t.start.column < 10 ^ digitLimit := by
    rw [hstart]
    dsimp only
    omega
  exact Bool.and_eq_true_iff.2 ⟨withinLimit_natCast hline', withinLimit_natCast hcolumn'⟩

namespace Stylesheet

theorem printable_of_parse {source : String} {sheet : Stylesheet} {findings : List Finding}
    (h : Stylesheet.parse source = .ok sheet) (hshort : source.length + 1 < 10 ^ digitLimit)
    (hcheck : sheet.check = .ok findings) : ∀ f ∈ findings, f.printable = true := by
  intro f hf
  obtain ⟨m, hat, hposition, hhave⟩ := sited_of_check hcheck f hf
  obtain ⟨ts, hderives, hpos, -⟩ := derives_of_parse h
  have hne : ∀ pos, m ≠ .sheet pos [] := by
    rintro pos rfl
    cases hproblem : f.problem <;> rw [hproblem] at hhave <;> exact hhave
  obtain ⟨own, hown, hpart⟩ := phrase_of_at? hderives.items hpos hat hne
  obtain ⟨t, us, rfl, -, hstart⟩ := hown.starts
  have ht := hderives.stands t (List.mem_of_getElem? hpart.getElem?)
  unfold Finding.printable
  rw [← hposition, hstart]
  exact ht.printable hshort

/-- There are always words for the refusal of a source that is not astronomically long. -/
theorem reply_compile_ne_unwritable {source : String} (config : Config)
    (hshort : source.length + 1 < 10 ^ digitLimit) :
    (StyleLang.compile config source).reply ≠ .unwritable := by
  cases hparse : Stylesheet.parse source with
  | error reason =>
    rw [compile_of_unread hparse]
    nofun
  | ok sheet =>
    rw [compile_of_parse hparse]
    intro hreply
    obtain ⟨-, findings, hcheck, f, hf, hlong⟩ := reply_eq_unwritable_iff.1 hreply
    exact absurd (printable_of_parse hparse hshort hcheck f hf) (Bool.eq_false_iff.1 hlong)

end Stylesheet

end StyleLang
