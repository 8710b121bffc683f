import StyleLang.Proofs.Grammar.Replacing
import StyleLang.Proofs.Pass.Sites
import StyleLang.Proofs.Text.Ascii

/-!
# Texts of findings

A finding names a variable or a property of the source, an operator or types. Main statement: the
text of a finding in a tree that was read is one line.
-/

namespace StyleLang

/-- There is no line feed in the text. -/
def IsOneLine (s : String) : Prop := '\n' ∉ s.toList

instance (s : String) : Decidable (IsOneLine s) := inferInstanceAs (Decidable ('\n' ∉ s.toList))

@[simp] theorem isOneLine_append {s t : String} :
    IsOneLine (s ++ t) ↔ IsOneLine s ∧ IsOneLine t := by
  simp [IsOneLine, String.toList_append, not_or]

theorem isOneLine_intercalate {separator : String} {parts : List String}
    (hseparator : IsOneLine separator) (hparts : ∀ s ∈ parts, IsOneLine s) :
    IsOneLine (separator.intercalate parts) := by
  have hne : ∀ {s : String}, IsOneLine s → ∀ c ∈ s.toList, c ≠ '\n' := fun h c hc heq =>
    h (heq ▸ hc)
  intro hmem
  exact forall_mem_intercalate (hne hseparator) (fun s hs => hne (hparts s hs)) _ hmem rfl

/-! ## Parts of messages -/

theorem isOneLine_int (n : Int) : IsOneLine (toString n) := by
  have hdigits : ∀ n : Nat, '\n' ∉ Nat.toDigits 10 n := fun n hn =>
    absurd (Nat.isDigit_of_mem_toDigits (by decide) (by decide) hn) (by decide)
  unfold IsOneLine
  cases n with
  | ofNat n =>
    rw [Int.toString_eq_repr, Int.repr, Nat.toList_repr]
    exact hdigits n
  | negSucc n =>
    rw [Int.toString_eq_repr, Int.repr, String.toList_append, Nat.toList_repr]
    simpa using hdigits (n + 1)

theorem IsName.isOneLine {name : String} (h : IsName name.toList) : IsOneLine name := by
  obtain ⟨c, cs, heq, hc, hcs⟩ := h
  unfold IsOneLine
  rw [heq]
  intro hmem
  rcases List.mem_cons.1 hmem with rfl | hmem
  · exact absurd hc (by decide)
  · exact absurd (hcs _ hmem) (by decide)

theorem smallLetter_ne {c : Char} (h : c ≠ '\n') : smallLetter c ≠ '\n' := by
  unfold smallLetter
  split
  · decide
  · unfold Char.toLower
    split
    · next hupper =>
      -- A small letter is a capital letter and 32, which is more than a line feed.
      intro heq
      have hval := congrArg (fun c : Char => c.val.toNat) heq
      have hlow := UInt32.le_iff_toNat_le.1 hupper.1
      have hhigh := UInt32.le_iff_toNat_le.1 hupper.2
      simp at hval hlow hhigh
      omega
    · exact h

theorem isOneLine_canonical {property : String} (h : IsOneLine property) :
    IsOneLine (Property.canonical property) := by
  unfold IsOneLine Property.canonical
  rw [String.toList_ofList]
  intro hmem
  obtain ⟨c, hc, heq⟩ := List.mem_map.1 hmem
  refine smallLetter_ne ?_ heq
  rintro rfl
  exact h hc

theorem isOneLine_name (t : ValueType) : IsOneLine t.name := by
  cases t with
  | number m => cases m <;> decide
  | _ => decide

theorem isOneLine_nameOrUnknown (t : Option ValueType) :
    IsOneLine (ValueType.nameOrUnknown t) := by
  cases t with
  | none => decide
  | some t => exact isOneLine_name t

theorem isOneLine_describe (types : List ValueType) : IsOneLine (ValueType.describe types) := by
  refine isOneLine_intercalate (by decide) fun s hs => ?_
  obtain ⟨t, -, rfl⟩ := List.mem_map.1 hs
  exact isOneLine_name t

theorem isOneLine_symbol (op : Operator) : IsOneLine op.symbol := by
  cases op <;> decide

theorem isOneLine_of_sumMeasure {symbol : String} {l r : ValueType} {reason : OperandError}
    (hsymbol : IsOneLine symbol) (h : sumMeasure symbol l r = .error reason) :
    IsOneLine reason.message := by
  have hmixed : IsOneLine (OperandError.mixedTerms l symbol r).message := by
    change IsOneLine ("invalid addition/subtraction: " ++ l.name ++ " " ++ symbol ++ " " ++
      r.name ++ " are not compatible")
    simp only [isOneLine_append, isOneLine_name, hsymbol, and_true]
    decide
  unfold sumMeasure at h
  split at h
  · obtain rfl := Except.error.inj h
    decide
  · split at h
    · split at h
      · cases h
      · obtain rfl := Except.error.inj h
        exact hmixed
    · obtain rfl := Except.error.inj h
      exact hmixed

theorem isOneLine_of_productMeasure {l r : ValueType} {reason : OperandError}
    (h : productMeasure l r = .error reason) : IsOneLine reason.message := by
  unfold productMeasure at h
  split at h
  · cases h
  · cases h
  · split at h
    · obtain rfl := Except.error.inj h
      decide
    · obtain rfl := Except.error.inj h
      change IsOneLine ("invalid multiplication: " ++ l.name ++ " * " ++ r.name)
      simp only [isOneLine_append, isOneLine_name, and_true]
      decide

theorem isOneLine_of_measure {op : Operator} {l r : ValueType} {reason : OperandError}
    (h : op.measure l r = .error reason) : IsOneLine reason.message := by
  cases op with
  | add => exact isOneLine_of_sumMeasure (isOneLine_symbol .add) h
  | subtract => exact isOneLine_of_sumMeasure (isOneLine_symbol .subtract) h
  | multiply => exact isOneLine_of_productMeasure h

/-- The message of the problem is one line. -/
def Problem.IsOneLine (problem : Problem) : Prop := StyleLang.IsOneLine problem.message

namespace Finding

theorem isOneLine_location (pos : Position) : IsOneLine (location pos) := by
  obtain ⟨line, column⟩ := pos
  cases line with
  | none => exact List.not_mem_nil
  | some line =>
    cases column with
    | none =>
      simp only [location, isOneLine_append]
      exact ⟨⟨by decide, isOneLine_int line⟩, by decide⟩
    | some column =>
      simp only [location, isOneLine_append]
      exact ⟨⟨⟨⟨by decide, isOneLine_int line⟩, by decide⟩, isOneLine_int column⟩, by decide⟩

theorem isOneLine_text {f : Finding} (h : f.problem.IsOneLine) : IsOneLine f.text := by
  have hlabel : IsOneLine f.severity.label := by cases f.severity <;> decide
  simp only [text, isOneLine_append]
  exact ⟨⟨⟨hlabel, isOneLine_location f.pos⟩, by decide⟩, h⟩

theorem text_ne_empty (f : Finding) : f.text ≠ "" := by
  intro h
  have hlabel : f.severity.label = "" := by
    simp only [text, String.append_eq_empty_iff] at h
    exact h.1.1.1
  cases hs : f.severity <;> rw [hs] at hlabel <;> exact absurd hlabel (by decide)

end Finding

/-! ## What is said about a tree -/

/-- A node that names what it names in the letters of the grammar has problems of one line only. -/
theorem Node.CanHave.isOneLine {n : Node} {problem : Problem} (hworded : n.Worded)
    (h : n.CanHave problem) : problem.IsOneLine := by
  cases n with
  | reference pos name =>
    cases problem with
    | unknownVariable name' =>
      obtain rfl : name' = name := h
      change IsOneLine ("unknown variable: " ++ name')
      simp only [isOneLine_append, (IsVariable.isName hworded).isOneLine, and_true]
      decide
    | _ => exact h.elim
  | operation pos op lhs rhs =>
    cases problem with
    | operands reason =>
      obtain ⟨l, r, hreason⟩ := h
      exact isOneLine_of_measure hreason
    | untypedOperand op' =>
      change IsOneLine ("invalid operand(s) for " ++ op'.symbol)
      simp only [isOneLine_append, isOneLine_symbol, and_true]
      decide
    | _ => exact h.elim
  | assignment pos name e =>
    cases problem with
    | untypedAssignment name' =>
      obtain rfl : name' = name := h
      change IsOneLine
        ("cannot determine the type of the expression assigned to '" ++ name' ++ "'")
      simp only [isOneLine_append, (IsVariable.isName hworded).isOneLine, and_true]
      decide
    | _ => exact h.elim
  | declaration pos property e =>
    have hproperty : IsOneLine property := IsName.isOneLine hworded
    cases problem with
    | unknownProperty property' =>
      obtain rfl : property' = property := h
      change IsOneLine ("property '" ++ property' ++ "' is not allowed")
      simp only [isOneLine_append, hproperty, and_true]
      decide
    | propertyType property' got =>
      obtain rfl : property' = property := h
      change IsOneLine ("property '" ++ Property.canonical property' ++ "' expects " ++
        ValueType.describe (Property.expectedTypes property') ++ ", got " ++
        ValueType.nameOrUnknown got)
      simp only [isOneLine_append, isOneLine_canonical hproperty, isOneLine_describe,
        isOneLine_nameOrUnknown, and_true]
      decide
    | _ => exact h.elim
  | conditional pos c body elseBody =>
    cases problem with
    | conditionType got =>
      change IsOneLine ("if-condition must be bool, got " ++ ValueType.nameOrUnknown got)
      simp only [isOneLine_append, isOneLine_nameOrUnknown, and_true]
      decide
    | _ => exact h.elim
  | _ => cases problem <;> exact h.elim

namespace Stylesheet

variable {text : String} {sheet : Stylesheet} {findings : List Finding}

theorem isOneLine_of_sited (h : Stylesheet.parse text = .ok sheet) {f : Finding}
    (hsited : f.Sited sheet.toNode) : IsOneLine f.text := by
  obtain ⟨m, hat, -, hhave⟩ := hsited
  exact Finding.isOneLine_text (hhave.isOneLine (worded_of_parse h hat))

/-- In a tree that was read the text of every finding of the checker is one line. -/
theorem isOneLine_of_check (h : Stylesheet.parse text = .ok sheet)
    (hcheck : sheet.check = .ok findings) : ∀ f ∈ findings, IsOneLine f.text :=
  fun f hf => isOneLine_of_sited h (sited_of_check hcheck f hf)

end Stylesheet

end StyleLang
