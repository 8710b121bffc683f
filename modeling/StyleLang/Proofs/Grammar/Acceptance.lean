import StyleLang.Proofs.Grammar.Taking

/-!
# Every spelling is read

A reading takes the words of an expression, of a statement and of an item, and then holds the tree
that they spell. The induction is on the grammar.
-/

namespace StyleLang.Grammar

open Reading (Takes takes_nil takes_word takes_mark goingTo_goingTo finish_goingTo noting_none
  blocks_finish_eq_nil_iff)

/-! ## Expressions -/

/-- A word is taken where an operand is expected, if its token is an operand without a flaw. -/
theorem takes_operand {r : Reading} {goal : Goal} {pending : Pending} {k : TokenKind} {n : Node}
    {w : List Char} (hr : r.place = .operand goal pending) (ha : r.place.allows k = true)
    (hw : k.Word w) (hstops : ∀ c, afterOperand c = true → k.stopsAt c = true)
    (hfree : k = .reference → ¬ Reserve.keywords .operand w)
    (hoperand : ∀ start, ∃ a : Node, Token.operand? ⟨k, w, start⟩ = some a ∧ a.bare = n ∧
      Token.numberFlaw ⟨k, w, start⟩ = none) :
    r.Takes [w] afterOperand fun r' => ∃ a : Node, a.bare = n ∧
      r' = r.goingTo (.operator goal pending.sum (.timesAfter pending.factor a)) := by
  have hat : r.place.At .operand := by
    rw [hr]
    exact .operand
  refine (takes_word ha hw (fun hk => ?_) fun start => ?_).mono hstops fun _ h => h
  · rcases hk with rfl | rfl
    · rw [hr] at ha
      cases ha
    · exact (hat.free_iff w).2 (hfree rfl)
  · obtain ⟨a, ha, hn, hflaw⟩ := hoperand start
    refine ⟨_, ?_, a, hn, rfl⟩
    unfold Reading.step
    simp only [hr, ha, hflaw, noting_none, Option.map_some]

/-- A number with not too many digits is an operand without a flaw. -/
theorem number_token {k : TokenKind} {m : Measure} {ds : List Char} (hds : IsDigits ds)
    (hl : ds.length ≤ digitLimit) (hmeasure : ∀ w start, Token.measure? ⟨k, w, start⟩ = some m)
    (hoperand : ∀ w start, Token.operand? ⟨k, w, start⟩ = some (.literal start.position
      (.number m (readDigits (Token.digits ⟨k, w, start⟩))))) (start : Cursor) :
    ∃ a : Node, Token.operand? ⟨k, ds ++ m.unit.toList, start⟩ = some a ∧
      a.bare = .literal {} (.number m (readDigits ds)) ∧
      Token.numberFlaw ⟨k, ds ++ m.unit.toList, start⟩ = none := by
  have hdigits : Token.digits ⟨k, ds ++ m.unit.toList, start⟩ = ds := takeWhile_isDigit hds m
  have hflaw : ¬ digitLimit < ds.length := by omega
  refine ⟨_, hoperand _ start, ?_, ?_⟩
  · rw [hdigits, Node.bare]
  · unfold Token.numberFlaw
    simp only [hmeasure, hdigits, hflaw, if_false]

theorem takes_atom {n : Node} {w : List Char} (h : Atom Reserve.keywords n w) {r : Reading}
    {goal : Goal} {pending : Pending} (hr : r.place = .operand goal pending) :
    r.Takes [w] afterOperand fun r' => ∃ a : Node, a.bare = n ∧
      r' = r.goingTo (.operator goal pending.sum (.timesAfter pending.factor a)) := by
  cases h with
  | @number m ds hds hl =>
    cases m with
    | pixel =>
      exact takes_operand (k := .pixel) hr (by rw [hr]; rfl) ⟨ds, hds, rfl⟩ (fun _ _ => rfl)
        (fun h => by cases h) (number_token hds hl (fun _ _ => rfl) fun _ _ => rfl)
    | percentage =>
      exact takes_operand (k := .percentage) hr (by rw [hr]; rfl) ⟨ds, hds, rfl⟩ (fun _ _ => rfl)
        (fun h => by cases h) (number_token hds hl (fun _ _ => rfl) fun _ _ => rfl)
    | scalar =>
      exact takes_operand (k := .scalar) hr (by rw [hr]; rfl) ⟨ds, hds, rfl⟩
        (fun c hc => (Bool.and_eq_true_iff.1 hc).2) (fun h => by cases h)
        (number_token hds hl (fun _ _ => rfl) fun _ _ => rfl)
  | color hw =>
    exact takes_operand (k := .color) hr (by rw [hr]; rfl) hw (fun _ _ => rfl)
      (fun h => by cases h) fun start => ⟨_, rfl, rfl, rfl⟩
  | @bool b w hw =>
    have hstops : ∀ c, afterOperand c = true → TokenKind.reference.stopsAt c = true :=
      fun c hc => (Bool.and_eq_true_iff.1 hc).1
    cases b with
    | true =>
      obtain rfl | rfl : w = _ ∨ w = _ := by simpa [boolWords] using hw
      · exact takes_operand (k := .trueCapital) hr (by rw [hr]; rfl) rfl hstops
          (fun h => by cases h) fun start => ⟨_, rfl, rfl, rfl⟩
      · exact takes_operand (k := .trueSmall) hr (by rw [hr]; rfl) rfl hstops
          (fun h => by cases h) fun start => ⟨_, rfl, rfl, rfl⟩
    | false =>
      obtain rfl | rfl : w = _ ∨ w = _ := by simpa [boolWords] using hw
      · exact takes_operand (k := .falseCapital) hr (by rw [hr]; rfl) rfl hstops
          (fun h => by cases h) fun start => ⟨_, rfl, rfl, rfl⟩
      · exact takes_operand (k := .falseSmall) hr (by rw [hr]; rfl) rfl hstops
          (fun h => by cases h) fun start => ⟨_, rfl, rfl, rfl⟩
  | reference hw hfree =>
    exact takes_operand (k := .reference) hr (by rw [hr]; rfl) hw
      (fun c hc => (Bool.and_eq_true_iff.1 hc).1) (fun _ => hfree) fun start => ⟨_, rfl, rfl, rfl⟩

theorem takes_product {n : Node} {ws : List (List Char)} (h : Product Reserve.keywords n ws)
    {r : Reading} {goal : Goal} {sum : Option (Node × Operator)}
    (hr : r.place = .operand goal { sum }) :
    r.Takes ws afterOperand fun r' => ∃ p : Node, p.bare = n ∧
      r' = r.goingTo (.operator goal sum p) := by
  induction h with
  | atom ha => exact takes_atom ha hr
  | times _ ha ih =>
    refine ih.append (opens_afterOperand (by decide) _ _) ?_
    rintro _ ⟨p, rfl, rfl⟩
    refine (takes_mark (k := .star) rfl (by decide) rfl fun _ => rfl).cons (opens_anything _) ?_
    rintro _ rfl
    refine (takes_atom ha rfl).mono (fun _ hc => hc) ?_
    rintro _ ⟨a, rfl, rfl⟩
    exact ⟨.timesAfter (some p) a, rfl, rfl⟩

/-- One more term is taken, if the mark before it leads to where it starts. -/
theorem takes_term {n : Node} {ws : List (List Char)} (h : Product Reserve.keywords n ws)
    {r s : Reading} {goal : Goal} {l : Node} {op : Operator} {mark : List Char}
    (hmark : r.Takes [mark] anything (· = s.goingTo (.operand goal { sum := some (l, op) }))) :
    r.Takes (mark :: ws) afterOperand fun r' => ∃ (sum : Option (Node × Operator)) (p : Node),
      (Node.addedTo sum p).bare = .operation {} op l.bare n ∧
        r' = s.goingTo (.operator goal sum p) := by
  refine hmark.cons (opens_anything _) ?_
  rintro _ rfl
  refine (takes_product h rfl).mono (fun _ hc => hc) ?_
  rintro _ ⟨p, rfl, rfl⟩
  exact ⟨some (l, op), p, rfl, rfl⟩

theorem takes_expression {n : Node} {ws : List (List Char)} (h : Expression Reserve.keywords n ws)
    {r : Reading} {goal : Goal} (hr : r.place = .operand goal {}) :
    r.Takes ws afterOperand fun r' => ∃ (sum : Option (Node × Operator)) (p : Node),
      (Node.addedTo sum p).bare = n ∧ r' = r.goingTo (.operator goal sum p) := by
  induction h with
  | product hp =>
    refine (takes_product hp hr).mono (fun _ hc => hc) ?_
    rintro _ ⟨p, rfl, rfl⟩
    exact ⟨none, p, rfl, rfl⟩
  | plus _ hp ih =>
    refine ih.append (opens_afterOperand (by decide) _ _) ?_
    rintro _ ⟨sum, p, rfl, rfl⟩
    exact takes_term hp (takes_mark (k := .plus) rfl (by decide) rfl fun _ => rfl)
  | minus _ hp ih =>
    refine ih.append (opens_afterOperand (by decide) _ _) ?_
    rintro _ ⟨sum, p, rfl, rfl⟩
    exact takes_term hp (takes_mark (k := .minus) rfl (by decide) rfl fun _ => rfl)

/-- A condition is taken between its brackets, if both lead on. -/
theorem takes_bracketed {n : Node} {ws : List (List Char)}
    (h : Expression Reserve.keywords n ws) {r : Reading} {pos : Position} {bracket : Bracket}
    {left right : List Char} (hleft : r.Takes [left] anything
      (· = r.goingTo (.operand (.condition pos bracket) {})))
    (hopens : Opens afterOperand [right])
    (hright : ∀ sum p, (r.goingTo (.operator (.condition pos bracket) sum p)).Takes [right] anything
      (· = r.goingTo (.thenBlock pos (.addedTo sum p)))) :
    r.Takes (left :: (ws ++ [right])) anything fun r' =>
      ∃ c : Node, c.bare = n ∧ r' = r.goingTo (.thenBlock pos c) := by
  refine hleft.cons (opens_anything _) ?_
  rintro _ rfl
  refine (takes_expression h rfl).append hopens ?_
  rintro _ ⟨sum, p, rfl, rfl⟩
  refine (hright sum p).mono (fun _ hc => hc) ?_
  rintro _ rfl
  exact ⟨.addedTo sum p, rfl, rfl⟩

theorem takes_condition {n : Node} {ws : List (List Char)} (h : Condition Reserve.keywords n ws)
    {r : Reading} {pos : Position} (hr : r.place = .condition pos) :
    r.Takes ws anything fun r' => ∃ c : Node, c.bare = n ∧ r' = r.goingTo (.thenBlock pos c) := by
  cases h with
  | square he =>
    have hleft := takes_mark (r := r) (k := .leftBracket) (by rw [hr]; rfl) (by decide) rfl
      fun _ => by unfold Reading.step; rw [hr]
    exact takes_bracketed he hleft (opens_afterOperand (by decide) _ _)
      fun _ _ => takes_mark (k := .rightBracket) rfl (by decide) rfl fun _ => rfl
  | round he =>
    have hleft := takes_mark (r := r) (k := .leftParen) (by rw [hr]; rfl) (by decide) rfl
      fun _ => by unfold Reading.step; rw [hr]
    exact takes_bracketed he hleft (opens_afterOperand (by decide) _ _)
      fun _ _ => takes_mark (k := .rightParen) rfl (by decide) rfl fun _ => rfl

/-! ## Statements -/

theorem closeBlock_goingTo (r : Reading) (p : Place) :
    (r.goingTo p).closeBlock = r.closeBlock := by
  obtain ⟨items, blocks, place, flaw⟩ := r
  cases blocks with
  | nil => rfl
  | cons b bs =>
    obtain ⟨holder, done⟩ := b
    cases holder <;> cases bs <;> rfl

theorem stepStatement_goingTo (r : Reading) (p : Place) (t : Token) :
    (r.goingTo p).stepStatement t = r.stepStatement t := by
  unfold Reading.stepStatement
  rw [closeBlock_goingTo]
  rfl

theorem Atom.word {R : Reserve} {n : Node} {w : List Char} (h : Atom R n w) :
    ∃ k : TokenKind, k.Word w := by
  cases h with
  | @number m ds hds hl =>
    cases m with
    | pixel => exact ⟨.pixel, ds, hds, rfl⟩
    | percentage => exact ⟨.percentage, ds, hds, rfl⟩
    | scalar => exact ⟨.scalar, ds, hds, rfl⟩
  | color hw => exact ⟨.color, hw⟩
  | @bool b w hw =>
    have hkey : ∀ v ∈ boolWords b, ∃ k, (k, v) ∈ TokenKind.keywords := by
      cases b <;> simp [boolWords, TokenKind.keywords]
    obtain ⟨k, hk⟩ := hkey w hw
    exact ⟨k, (TokenKind.mem_keywords ⟨w, hk⟩ w).1 hk⟩
  | reference hw _ => exact ⟨.reference, hw⟩

theorem Product.head_word {R : Reserve} {n : Node} {ws : List (List Char)} (h : Product R n ws) :
    ∃ (k : TokenKind) (w : List Char) (vs : List (List Char)), ws = w :: vs ∧ k.Word w := by
  induction h with
  | atom ha =>
    obtain ⟨k, hk⟩ := ha.word
    exact ⟨k, _, [], rfl, hk⟩
  | times _ _ ih =>
    obtain ⟨k, w, vs, rfl, hk⟩ := ih
    exact ⟨k, w, _, rfl, hk⟩

theorem Expression.head_word {R : Reserve} {n : Node} {ws : List (List Char)}
    (h : Expression R n ws) :
    ∃ (k : TokenKind) (w : List Char) (vs : List (List Char)), ws = w :: vs ∧ k.Word w := by
  induction h with
  | product hp => exact hp.head_word
  | plus _ _ ih | minus _ _ ih =>
    obtain ⟨k, w, vs, rfl, hk⟩ := ih
    exact ⟨k, w, _, rfl, hk⟩

/-- No word starts with the character that would make another mark of a colon. -/
theorem opens_colon {R : Reserve} {n : Node} {ws : List (List Char)} (h : Expression R n ws)
    (vs : List (List Char)) : Opens TokenKind.colon.stopsAt (ws ++ vs) := by
  obtain ⟨k, w, us, rfl, hk⟩ := h.head_word
  obtain ⟨c, cs, rfl, hc⟩ := TokenKind.start_of_word hk
  refine opens_stopsAt ?_ _ _
  have hequals : k.start.has '=' = false := by cases k <;> decide
  by_cases he : c = '='
  · rw [he, hequals] at hc
    cases hc
  · exact bne_iff_ne.2 he

theorem nameFlaw_eq_none {t : Token} (h : IsVariable t.chars) : t.nameFlaw = none := by
  obtain ⟨c, cs, hcs, hc, hall⟩ := h
  have hhyphen : isWordChar '-' = false := by decide
  have hmem : '-' ∉ t.chars := by
    rw [hcs]
    intro hmem
    rcases List.mem_cons.1 hmem with rfl | hmem
    · rw [isWordChar_of_isWordStart hc] at hhyphen
      cases hhyphen
    · rw [hall _ hmem] at hhyphen
      cases hhyphen
  exact if_neg hmem

/-- From where the name of an assignment leads on to `s`. -/
theorem takes_assignment {spot : Spot} {n : Node} {ws : List (List Char)}
    (h : Assignment Reserve.keywords spot n ws) {r s : Reading} {next : Token → Place}
    (hat : r.place.At spot) (hname : r.place.allows .name = true)
    (hnext : next = .named ∨ next = .label)
    (hstep : ∀ t : Token, t.kind = .name → r.step t = some (s.goingTo (next t))) :
    r.Takes ws anything fun r' => ∃ n' : Node, n'.bare = n ∧
      r' = (s.finish n').goingTo .afterAssignment := by
  obtain @⟨w, e, ws, hw, hfree, he⟩ := h
  refine (takes_word (P := fun r' => ∃ start, r' = s.goingTo (next ⟨.name, w, start⟩)) hname
    hw.isName (fun _ => (hat.free_iff _).2 hfree)
    fun start => ⟨_, hstep _ rfl, start, rfl⟩).cons (opens_stopsAt (by decide) _ _) ?_
  rintro _ ⟨start, rfl⟩
  have hbecomes : (s.goingTo (next ⟨.name, w, start⟩)).Takes [[':', '=']] anything
      (· = s.goingTo (.operand (.assignment ⟨.name, w, start⟩) {})) := by
    rcases hnext with rfl | rfl
    · exact takes_mark (k := .becomes) rfl (by decide) rfl fun _ => rfl
    · exact takes_mark (k := .becomes) rfl (by decide) rfl fun _ => rfl
  refine hbecomes.cons (opens_anything _) ?_
  rintro _ rfl
  refine (takes_expression he rfl).append (opens_afterOperand (by decide) _ _) ?_
  rintro _ ⟨sum, p, rfl, rfl⟩
  refine (takes_mark (k := .semicolon) rfl (by decide) rfl fun _ => rfl).mono (fun _ hc => hc) ?_
  rintro _ rfl
  have hflaw : Token.nameFlaw ⟨.name, w, start⟩ = none := nameFlaw_eq_none hw
  refine ⟨.assignment start.position (String.ofList w) (.addedTo sum p), rfl, ?_⟩
  unfold Reading.endExpression
  simp only [hflaw, noting_none, goingTo_goingTo, finish_goingTo]
  rfl

/-- `r` stands between two statements of a block, and `s` is the reading with all statements before
finished. A conditional is not finished before it is known to have no second branch. -/
inductive Between : Reading → Spot → Reading → Prop where
  | statement {s : Reading} : Between (s.goingTo .statement) .statement s
  | assigned {s : Reading} : s.blocks ≠ [] → Between (s.goingTo .afterAssignment) .statement s
  | decided {s : Reading} {pos : Position} {condition : Node} {body : List Node} :
    Between (s.goingTo (.afterThen pos condition body)) .afterThen
      (s.finish (.conditional pos condition body none))

namespace Between

variable {r s : Reading} {spot : Spot}

theorem stands (h : Between r spot s) : r.place.At spot := by
  cases h with
  | statement => exact .statement
  | assigned _ => exact .afterInnerAssignment
  | decided => exact .afterThen

theorem allows (h : Between r spot s) {k : TokenKind}
    (hk : k = .name ∨ k = .ifWord ∨ k = .rightBrace) : r.place.allows k = true := by
  cases h <;> rcases hk with rfl | rfl | rfl <;> rfl

theorem step (h : Between r spot s) {k : TokenKind} (hk : k ≠ .elseWord) (w : List Char)
    (start : Cursor) : r.step ⟨k, w, start⟩ = s.stepStatement ⟨k, w, start⟩ := by
  generalize ht : Token.mk k w start = t
  have hkind : t.kind ≠ .elseWord := by
    rw [← ht]
    exact hk
  cases h with
  | statement => exact stepStatement_goingTo s _ t
  | assigned hb =>
    have hopen : s.blocks.isEmpty = false := List.isEmpty_eq_false_iff.2 hb
    have hstep : (s.goingTo .afterAssignment).step t = if s.blocks.isEmpty then
        (s.goingTo .afterAssignment).stepItem t
      else (s.goingTo .afterAssignment).stepStatement t := rfl
    rw [hstep, hopen, if_neg (by decide), stepStatement_goingTo]
  | @decided s pos condition body =>
    have hstep : (s.goingTo (.afterThen pos condition body)).step t =
        ((s.goingTo (.afterThen pos condition body)).finish
          (.conditional pos condition body none)).stepStatement t := by
      unfold Reading.step
      simp only [Reading.goingTo]
    rw [hstep, finish_goingTo, stepStatement_goingTo]

theorem takes_close (h : Between r spot s) {s' : Reading} (hs : s.closeBlock = some s') :
    r.Takes [['}']] anything (· = s') :=
  takes_mark (k := .rightBrace) (h.allows (.inr (.inr rfl))) (by decide) rfl
    fun _ => (h.step (by decide) _ _).trans hs

end Between

/-- The reading with a block of some statements inside all its blocks. -/
def within (s : Reading) (holder : Holder) (done : List Node) : Reading :=
  { s with blocks := ⟨holder, done⟩ :: s.blocks }

theorem openBlock_eq (s : Reading) (holder : Holder) :
    s.openBlock holder = (within s holder []).goingTo .statement := rfl

/-- The words of the body are taken in every block that has just been opened. -/
def TakesBody (ns : List Node) (ws : List (List Char)) : Prop :=
  ∀ (s : Reading) (holder : Holder), (s.openBlock holder).Takes ws anything fun r =>
    ∃ done, Node.bareAll done.reverse = ns ∧
      Between r (Spot.afterStatement ns.getLast?) (within s holder done)

/-- A block is taken from its opening brace to its closing one. -/
theorem TakesBody.block {ns : List Node} {ws : List (List Char)} (h : TakesBody ns ws)
    {r : Reading} {P : Reading → Prop} (s : Reading) (holder : Holder)
    (ha : r.place.allows .leftBrace = true)
    (hstep : ∀ start, r.step ⟨.leftBrace, ['{'], start⟩ = some (s.openBlock holder))
    (hclose : ∀ done, Node.bareAll done.reverse = ns →
      ∃ s', (within s holder done).closeBlock = some s' ∧ P s') :
    r.Takes (['{'] :: (ws ++ [['}']])) anything P := by
  refine (takes_mark (k := .leftBrace) ha (by decide) rfl hstep).cons (opens_anything _) ?_
  rintro _ rfl
  refine (h s holder).append (opens_anything _) ?_
  rintro r' ⟨done, hdone, hbetween⟩
  obtain ⟨s', hs', hP⟩ := hclose done hdone
  refine (hbetween.takes_close hs').mono (fun _ hc => hc) ?_
  rintro _ rfl
  exact hP

/-- The first branch of a conditional is taken, with the condition before it. -/
theorem takes_thenBranch {c : Node} {b : List Node} {cs bs : List (List Char)}
    (hc : Condition Reserve.keywords c cs) (hb : TakesBody b bs) {r s : Reading} {spot : Spot}
    (h : Between r spot s) :
    r.Takes (['i', 'f'] :: (cs ++ ['{'] :: (bs ++ [['}']]))) anything fun r' =>
      ∃ (pos : Position) (c' : Node) (body : List Node), c'.bare = c ∧ Node.bareAll body = b ∧
        r' = s.goingTo (.afterThen pos c' body) := by
  refine (takes_word (k := .ifWord) (P := fun r' => ∃ pos, r' = s.goingTo (.condition pos))
    (h.allows (.inr (.inl rfl))) rfl (fun h => by cases h <;> contradiction)
    fun start => ⟨_, (h.step (by decide) _ start).trans rfl, start.position, rfl⟩).cons
    (by cases hc <;> exact opens_stopsAt (by decide) _ _) ?_
  rintro _ ⟨pos, rfl⟩
  refine (takes_condition hc rfl).append (opens_anything _) ?_
  rintro _ ⟨c', rfl, rfl⟩
  refine hb.block (s.goingTo (.thenBlock pos c')) (.thenBranch pos c') rfl (fun _ => rfl)
    fun done hdone => ?_
  exact ⟨_, rfl, pos, c', done.reverse, rfl, hdone, rfl⟩

/-- The name of a property is taken, with the colon after it. -/
theorem takes_property {w : List Char} (hw : IsName w) {r s : Reading} {spot : Spot}
    (hr : Between r spot s) (hfree : ¬ Reserve.keywords spot w) :
    r.Takes [w, [':']] TokenKind.colon.stopsAt fun r' =>
      ∃ start, r' = s.goingTo (.operand (.declaration ⟨.name, w, start⟩) {}) := by
  refine (takes_word (P := fun r' => ∃ start, r' = s.goingTo (.label ⟨.name, w, start⟩))
    (hr.allows (.inl rfl)) hw (fun _ => (hr.stands.free_iff _).2 hfree)
    fun start => ⟨_, (hr.step (by decide) _ start).trans rfl, start, rfl⟩).cons
    (opens_stopsAt (by decide) _ _) ?_
  rintro _ ⟨start, rfl⟩
  refine (takes_mark (k := .colon) rfl (by decide) rfl fun _ => rfl).mono (fun _ hc => hc) ?_
  rintro _ rfl
  exact ⟨start, rfl⟩

mutual

theorem takes_statement {spot : Spot} {n : Node} {ws : List (List Char)}
    (h : Statement Reserve.keywords spot n ws) {r s : Reading} (hr : Between r spot s)
    (hs : s.blocks ≠ []) :
    r.Takes ws anything fun r' => ∃ n' : Node, n'.bare = n ∧
      Between r' (Spot.afterStatement (some n)) (s.finish n') := by
  match h with
  | .assignment ha =>
    have hname : ∀ t : Token, t.kind = .name → r.step t = some (s.goingTo (.label t)) := by
      rintro ⟨k, w, start⟩ rfl
      exact (hr.step (by decide) w start).trans rfl
    have hspot : Spot.afterStatement (some n) = .statement := by
      cases ha
      rfl
    refine (takes_assignment ha hr.stands (hr.allows (.inl rfl)) (.inr rfl) hname).mono
      (fun _ hc => hc) ?_
    rintro _ ⟨n', hn', rfl⟩
    refine ⟨n', hn', ?_⟩
    rw [hspot]
    exact .assigned fun h => hs ((blocks_finish_eq_nil_iff s n').1 h)
  | @Statement.declaration _ _ w e ws hw hfree he =>
    refine (takes_property hw hr hfree).append (opens_colon he _) ?_
    rintro _ ⟨start, rfl⟩
    refine (takes_expression he rfl).append (opens_afterOperand (by decide) _ _) ?_
    rintro _ ⟨sum, p, rfl, rfl⟩
    refine (takes_mark (k := .semicolon) rfl (by decide) rfl fun _ => rfl).mono
      (fun _ hc => hc) ?_
    rintro _ rfl
    refine ⟨.declaration start.position (String.ofList w) (.addedTo sum p), rfl, ?_⟩
    unfold Reading.endExpression
    simp only [goingTo_goingTo, finish_goingTo]
    exact .statement
  | .conditional hc hb =>
    refine (takes_thenBranch hc (takes_body hb) hr).mono (fun _ hc => hc) ?_
    rintro _ ⟨pos, c, body, rfl, rfl, rfl⟩
    exact ⟨.conditional pos c body none, rfl, .decided⟩
  | @Statement.branching _ _ c b e cs bs es hc hb he =>
    have hwords : ['i', 'f'] :: (cs ++ ['{'] :: (bs ++
        ['}'] :: ['e', 'l', 's', 'e'] :: ['{'] :: (es ++ [['}']]))) =
        (['i', 'f'] :: (cs ++ ['{'] :: (bs ++ [['}']]))) ++
          ['e', 'l', 's', 'e'] :: (['{'] :: (es ++ [['}']])) := by
      simp
    rw [hwords]
    refine (takes_thenBranch hc (takes_body hb) hr).append (opens_anything _) ?_
    rintro _ ⟨pos, c, body, rfl, rfl, rfl⟩
    refine (takes_mark (k := .elseWord) rfl (by decide) rfl fun _ => rfl).cons
      (opens_stopsAt (by decide) _ _) ?_
    rintro _ rfl
    refine (takes_body he).block (s.goingTo (.elseBlock pos c body)) (.elseBranch pos c body) rfl
      (fun _ => rfl) fun done hdone => ?_
    let n' := Node.conditional pos c body (some done.reverse)
    have hclosed : (within (s.goingTo (.elseBlock pos c body)) (.elseBranch pos c body)
        done).closeBlock = some ((s.finish n').goingTo .statement) :=
      congrArg some (congrArg (·.goingTo .statement) (finish_goingTo s _ n'))
    refine ⟨_, hclosed, n', ?_, .statement⟩
    rw [← hdone]
    rfl

theorem takes_body {ns : List Node} {ws : List (List Char)}
    (h : Body Reserve.keywords ns ws) : TakesBody ns ws := by
  intro s holder
  match h with
  | .nil =>
    have hopen : Between (s.openBlock holder) .statement (within s holder []) := by
      rw [openBlock_eq]
      exact .statement
    exact takes_nil ⟨[], rfl, hopen⟩ _
  | @Body.snoc _ ns n ws vs hb hn =>
    have ihn := @takes_statement _ _ _ hn
    refine (takes_body hb s holder).append (opens_anything _) ?_
    rintro r ⟨done, hdone, hbetween⟩
    refine (ihn hbetween (List.cons_ne_nil _ _)).mono (fun _ hc => hc) ?_
    rintro r' ⟨n', hn', hbetween'⟩
    refine ⟨n' :: done, ?_, ?_⟩
    · rw [List.reverse_cons, Node.bareAll_append, hdone, ← hn']
      rfl
    · rw [List.getLast?_concat]
      exact hbetween'

end

/-! ## Items -/

/-- `r` stands between two items, and `s` is the reading with all items before finished. -/
inductive Amid : Reading → Spot → Reading → Prop where
  | item {s : Reading} : s.blocks = [] → Amid (s.goingTo .item) .item s
  | assigned {s : Reading} : s.blocks = [] → Amid (s.goingTo .afterAssignment) .afterAssignment s

namespace Amid

variable {r s : Reading} {spot : Spot}

theorem stands (h : Amid r spot s) : r.place.At spot := by
  cases h with
  | item _ => exact .item
  | assigned _ => exact .afterAssignment

theorem allows (h : Amid r spot s) {k : TokenKind}
    (hk : k = .name ∨ k = .classSelector ∨ k = .idSelector) : r.place.allows k = true := by
  cases h <;> rcases hk with rfl | rfl | rfl <;> rfl

theorem step (h : Amid r spot s) (t : Token) : r.step t = s.stepItem t := by
  cases h with
  | item _ => rfl
  | assigned hb =>
    have hopen : s.blocks.isEmpty = true := List.isEmpty_iff.2 hb
    have hstep : (s.goingTo .afterAssignment).step t = if s.blocks.isEmpty then
        (s.goingTo .afterAssignment).stepItem t
      else (s.goingTo .afterAssignment).stepStatement t := rfl
    rw [hstep, hopen, if_pos rfl]
    rfl

end Amid

/-- `r` stands after some selectors of a rule, the latest first, and `s` is the reading before the
rule. -/
inductive Selected : Reading → List Node → Reading → Prop where
  | named {s : Reading} {t : Token} :
    Selected (s.goingTo (.named t)) [.selector t.position .tag t.text] s
  | more {s : Reading} {selectors : List Node} :
    Selected (s.goingTo (.afterSelector selectors)) selectors s

namespace Selected

variable {r s : Reading} {selectors : List Node}

theorem takes_comma (h : Selected r selectors s) :
    r.Takes [[',']] anything (· = s.goingTo (.selector selectors)) := by
  cases h with
  | named => exact takes_mark (k := .comma) rfl (by decide) rfl fun _ => rfl
  | more => exact takes_mark (k := .comma) rfl (by decide) rfl fun _ => rfl

theorem allows_leftBrace (h : Selected r selectors s) : r.place.allows .leftBrace = true := by
  cases h <;> rfl

theorem step_leftBrace (h : Selected r selectors s) : ∃ pos, ∀ start,
    r.step ⟨.leftBrace, ['{'], start⟩ = some (s.openBlock (.rule pos selectors.reverse)) := by
  cases h with
  | named => exact ⟨_, fun _ => rfl⟩
  | more => exact ⟨_, fun _ => rfl⟩

end Selected

theorem Selector.token {n : Node} {w : List Char} (h : Selector n w) :
    ∃ k : TokenKind, (k = .name ∨ k = .classSelector ∨ k = .idSelector) ∧ k.Word w ∧
      ∀ start, ∃ n' : Node, n'.bare = n ∧ Token.selector? ⟨k, w, start⟩ = some n' := by
  cases h with
  | tag hw => exact ⟨.name, .inl rfl, hw, fun _ => ⟨_, rfl, rfl⟩⟩
  | className hw => exact ⟨.classSelector, .inr (.inl rfl), ⟨_, hw, rfl⟩, fun _ => ⟨_, rfl, rfl⟩⟩
  | id hw => exact ⟨.idSelector, .inr (.inr rfl), ⟨_, hw, rfl⟩, fun _ => ⟨_, rfl, rfl⟩⟩

theorem stopsAt_selector {k : TokenKind} (h : k = .name ∨ k = .classSelector ∨ k = .idSelector) :
    k.stopsAt = TokenKind.name.stopsAt := by
  rcases h with rfl | rfl | rfl <;> rfl

theorem takes_selector {n : Node} {w : List Char} (h : Selector n w) (s : Reading)
    (selectors : List Node) : (s.goingTo (.selector selectors)).Takes [w] TokenKind.name.stopsAt
      fun r => ∃ n' : Node, n'.bare = n ∧ Selected r (n' :: selectors) s := by
  obtain ⟨k, hk, hw, htoken⟩ := h.token
  have hfree : ∀ k', (k', w) ∈ TokenKind.keywords →
      (Place.selector selectors).allows k' = false := by
    intro k' hk'
    cases k' <;> first | rfl | simp [TokenKind.keywords] at hk'
  rw [← stopsAt_selector hk]
  refine takes_word (by rcases hk with rfl | rfl | rfl <;> rfl) hw (fun _ => hfree) fun start => ?_
  obtain ⟨n', hn', hselector⟩ := htoken start
  refine ⟨s.goingTo (.afterSelector (n' :: selectors)), ?_, n', hn', .more⟩
  unfold Reading.step
  simp only [Reading.goingTo, hselector, Option.map_some]

theorem takes_firstSelector {n : Node} {w : List Char} (h : Selector n w) {r s : Reading}
    {spot : Spot} (hr : Amid r spot s) (hfree : ¬ Reserve.keywords spot w) :
    r.Takes [w] TokenKind.name.stopsAt fun r' => ∃ n' : Node, n'.bare = n ∧
      Selected r' [n'] s := by
  obtain ⟨k, hk, hw, htoken⟩ := h.token
  rw [← stopsAt_selector hk]
  refine takes_word (hr.allows hk) hw (fun _ => (hr.stands.free_iff w).2 hfree) fun start => ?_
  obtain ⟨n', hn', hselector⟩ := htoken start
  rw [hr.step]
  rcases hk with rfl | rfl | rfl
  · obtain rfl := Option.some.inj hselector
    exact ⟨_, rfl, _, hn', .named⟩
  · refine ⟨s.goingTo (.afterSelector [n']), ?_, n', hn', .more⟩
    unfold Reading.stepItem
    simp only [hselector, Option.map_some]
  · refine ⟨s.goingTo (.afterSelector [n']), ?_, n', hn', .more⟩
    unfold Reading.stepItem
    simp only [hselector, Option.map_some]

theorem takes_selectors {ns : List Node} {ws : List (List Char)} (h : Selectors ns ws)
    {r s : Reading} {spot : Spot} (hr : Amid r spot s)
    (hfree : ∀ w ∈ ws.head?, ¬ Reserve.keywords spot w) :
    r.Takes ws TokenKind.name.stopsAt fun r' => ∃ selectors, Node.bareAll selectors.reverse = ns ∧
      Selected r' selectors s := by
  induction h with
  | one hn =>
    refine (takes_firstSelector hn hr (hfree _ rfl)).mono (fun _ hc => hc) ?_
    rintro r' ⟨n', rfl, hr'⟩
    exact ⟨[n'], rfl, hr'⟩
  | @snoc ns n ws w hns hn ih =>
    rw [hns.head?_append] at hfree
    refine (ih hfree).append (opens_stopsAt (by decide) _ _) ?_
    rintro r' ⟨selectors, rfl, hr'⟩
    refine hr'.takes_comma.cons (opens_anything _) ?_
    rintro _ rfl
    refine (takes_selector hn s selectors).mono (fun _ hc => hc) ?_
    rintro r'' ⟨n', rfl, hr''⟩
    refine ⟨n' :: selectors, ?_, hr''⟩
    rw [List.reverse_cons, Node.bareAll_append]
    rfl

theorem takes_item {spot : Spot} {n : Node} {ws : List (List Char)}
    (h : Item Reserve.keywords spot n ws) {r s : Reading} (hr : Amid r spot s)
    (hs : s.blocks = []) :
    r.Takes ws anything fun r' => ∃ n' : Node, n'.bare = n ∧
      Amid r' (Spot.afterItem (some n)) (s.finish n') := by
  have hblocks : ∀ n', (s.finish n').blocks = [] := by
    intro n'
    unfold Reading.finish
    rw [hs]
  cases h with
  | assignment ha =>
    have hname : ∀ t : Token, t.kind = .name → r.step t = some (s.goingTo (.named t)) := by
      rintro ⟨k, w, start⟩ rfl
      exact (hr.step _).trans rfl
    have hspot : Spot.afterItem (some n) = .afterAssignment := by
      cases ha
      rfl
    refine (takes_assignment ha hr.stands (hr.allows (.inl rfl)) (.inl rfl) hname).mono
      (fun _ hc => hc) ?_
    rintro _ ⟨n', hn', rfl⟩
    refine ⟨n', hn', ?_⟩
    rw [hspot]
    exact .assigned (hblocks n')
  | rule hss hfree hb =>
    refine (takes_selectors hss hr hfree).append (opens_stopsAt (by decide) _ _) ?_
    rintro r' ⟨selectors, rfl, hr'⟩
    obtain ⟨pos, hbrace⟩ := hr'.step_leftBrace
    refine (takes_body hb).block _ _ hr'.allows_leftBrace hbrace fun done hdone => ?_
    refine ⟨_, rfl, .rule pos selectors.reverse done.reverse, ?_, .item (hblocks _)⟩
    rw [← hdone]
    rfl

theorem takes_items {ns : List Node} {ws : List (List Char)} (h : Items Reserve.keywords ns ws) :
    ({} : Reading).Takes ws anything fun r => ∃ items, Node.bareAll items.reverse = ns ∧
      Amid r (Spot.afterItem ns.getLast?) { items } := by
  induction h with
  | nil =>
    have hstart : Amid (Reading.goingTo {} .item) .item {} := .item rfl
    exact takes_nil ⟨[], rfl, hstart⟩ _
  | @snoc ns n ws vs _ hn ih =>
    refine ih.append (opens_anything _) ?_
    rintro r ⟨items, rfl, hr⟩
    refine (takes_item hn hr rfl).mono (fun _ hc => hc) ?_
    rintro r' ⟨n', rfl, hr'⟩
    refine ⟨n' :: items, ?_, ?_⟩
    · rw [List.reverse_cons, Node.bareAll_append]
      rfl
    · rw [List.getLast?_concat]
      exact hr'

/-- Every spelling of a tree is read as the tree. -/
theorem parse_of_spells {text : String} {sheet : Stylesheet}
    (h : Spells Reserve.keywords text sheet) :
    ∃ read, Stylesheet.parse text = .ok read ∧ read.toNode.same sheet.toNode = true := by
  obtain ⟨ws, body, gap, hitems, hbody, hgap, htext⟩ := h
  obtain ⟨r, last, place, ⟨items, hbare, hr⟩, hrun⟩ :=
    takes_items hitems body gap hbody (fun _ _ => rfl) {} {}
  generalize Spot.afterItem (Node.bareAll sheet.items).getLast? = spot at hr
  have hskip : skip gap = (gap, []) := by
    have := skip_gap hgap (follows_nil _)
    rwa [List.append_nil] at this
  have hcomplete : r.isComplete = true := by
    cases hr <;> rfl
  have hend : r.run last place gap = .ok r := by
    rw [Reading.run_eq, hskip]
    simp only [hcomplete, if_true]
  have hresult : r.flaw = none ∧ r.items = items := by
    cases hr <;> exact ⟨rfl, rfl⟩
  refine ⟨r.sheet, ?_, ?_⟩
  · unfold Stylesheet.parse
    rw [htext, hrun, hend]
    simp only [hresult.1]
  · rw [Node.same_iff_bare]
    unfold Stylesheet.toNode Reading.sheet Node.bare
    rw [hresult.2, hbare]

end StyleLang.Grammar
