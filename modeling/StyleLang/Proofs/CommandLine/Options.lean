import StyleLang.CommandLine.Usage

/-!
# How arguments are written

Options and operands, as relations to the arguments that they are written in: an option by its long
name, or by its letter among others after one dash, with its value after it or in the next argument.
Main statement: arguments are read as options and operands exactly if these are written in them.
-/

namespace StyleLang

/-- An argument that cannot be taken for options: there is no dash at its start, or nothing else. -/
def IsOperand (argument : String) : Prop := ∀ c cs, argument.toList ≠ '-' :: c :: cs

namespace OptionTable

variable {κ : Type} {table : OptionTable κ}

/-- Options in letters that are run together. The last one may take a value: the rest of the letters
or the first of the arguments after them. The other arguments are left. -/
inductive WritesShort (table : OptionTable κ) :
    List Char → List (κ × String) → List String → List String → Prop where
  | nil (arguments : List String) : WritesShort table [] [] arguments arguments
  | flag {c : Char} {key : κ} {cs : List Char} {given : List (κ × String)}
      {arguments left : List String} :
    table.short.lookup c = some key → table.takesValue key = false →
    WritesShort table cs given arguments left →
    WritesShort table (c :: cs) ((key, "") :: given) arguments left
  | joined {c : Char} {key : κ} {cs : List Char} {arguments : List String} :
    table.short.lookup c = some key → table.takesValue key = true → cs ≠ [] →
    WritesShort table (c :: cs) [(key, String.ofList cs)] arguments arguments
  | apart {c : Char} {key : κ} {value : String} {left : List String} :
    table.short.lookup c = some key → table.takesValue key = true →
    WritesShort table [c] [(key, value)] (value :: left) left

/-- Options in one argument, and what is left of the arguments after it. -/
inductive WritesOption (table : OptionTable κ) :
    String → List (κ × String) → List String → List String → Prop where
  | flag {name : String} {key : κ} {arguments : List String} :
    table.long.lookup name = some key → table.takesValue key = false →
    WritesOption table name [(key, "")] arguments arguments
  | joined {name value : String} {key : κ} {arguments : List String} :
    table.long.lookup name = some key → table.takesValue key = true →
    WritesOption table (name ++ "=" ++ value) [(key, value)] arguments arguments
  | apart {name value : String} {key : κ} {left : List String} :
    table.long.lookup name = some key → table.takesValue key = true →
    WritesOption table name [(key, value)] (value :: left) left
  | short {c : Char} {cs : List Char} {given : List (κ × String)}
      {arguments left : List String} :
    c ≠ '-' → WritesShort table (c :: cs) given arguments left →
    WritesOption table (String.ofList ('-' :: c :: cs)) given arguments left

/-- Options and operands in arguments. If options may not stand between operands, all arguments from
the first operand on are operands. -/
inductive Writes (table : OptionTable κ) (interspersed : Bool) :
    List String → List (κ × String) → List String → Prop where
  | nil : Writes table interspersed [] [] []
  | dashes (operands : List String) : Writes table interspersed ("--" :: operands) [] operands
  | operand {a : String} {arguments : List String} {given : List (κ × String)}
      {operands : List String} :
    interspersed = true → IsOperand a → Writes table interspersed arguments given operands →
    Writes table interspersed (a :: arguments) given (a :: operands)
  | operands {a : String} {arguments : List String} :
    interspersed = false → IsOperand a →
    Writes table interspersed (a :: arguments) [] (a :: arguments)
  | option {a : String} {arguments left : List String} {given more : List (κ × String)}
      {operands : List String} :
    WritesOption table a given arguments left → Writes table interspersed left more operands →
    Writes table interspersed (a :: arguments) (given ++ more) operands

/-- Long names start with two dashes and go on, without an equals sign. -/
def Proper (table : OptionTable κ) : Prop :=
  ∀ name key, table.long.lookup name = some key →
    ∃ c cs, name.toList = '-' :: '-' :: c :: cs ∧ '=' ∉ name.toList

theorem proper_of_mem
    (h : ∀ option ∈ table.long,
      ∃ c cs, option.1.toList = '-' :: '-' :: c :: cs ∧ '=' ∉ option.1.toList) :
    table.Proper := fun name key hname => h (name, key) (mem_of_lookup hname)

/-! ## One argument -/

/-- The arguments that are left after a value was taken from them, if one was. -/
def left (used : Bool) (arguments : List String) : List String :=
  if used then arguments.tail else arguments

theorem fromNext_eq_ok {name : String} {key : κ} {arguments : List String}
    {given : List (κ × String)} {used : Bool}
    (h : fromNext name key arguments.head? = .ok (given, used)) :
    ∃ value rest, arguments = value :: rest ∧ given = [(key, value)] ∧ used = true := by
  cases arguments with
  | nil => cases h
  | cons value rest =>
    obtain ⟨rfl, rfl⟩ := Prod.mk.inj (Except.ok.inj h)
    exact ⟨value, rest, rfl, rfl, rfl⟩

theorem writesShort_of_read {cs : List Char} {arguments : List String}
    {given : List (κ × String)} {used : Bool}
    (h : table.readShort arguments.head? cs = .ok (given, used)) :
    table.WritesShort cs given arguments (left used arguments) := by
  induction cs generalizing given with
  | nil =>
    obtain ⟨rfl, rfl⟩ := Prod.mk.inj (Except.ok.inj h)
    exact .nil arguments
  | cons c cs ih =>
    unfold readShort at h
    dsimp only at h
    split at h
    · cases h
    · next key hkey =>
      split at h
      · next hvalue =>
        split at h
        · next hempty =>
          obtain rfl := List.isEmpty_iff.1 hempty
          obtain ⟨value, rest, rfl, rfl, rfl⟩ := fromNext_eq_ok h
          exact .apart hkey hvalue
        · next hletters =>
          obtain ⟨rfl, rfl⟩ := Prod.mk.inj (Except.ok.inj h)
          exact .joined hkey hvalue fun hempty => hletters (List.isEmpty_iff.2 hempty)
      · next hflag =>
        split at h
        · cases h
        · next given' used' hrest =>
          obtain ⟨rfl, rfl⟩ := Prod.mk.inj (Except.ok.inj h)
          exact .flag hkey (Bool.eq_false_iff.2 hflag) (ih hrest)

theorem WritesShort.read {cs : List Char} {given : List (κ × String)}
    {arguments rest : List String} (h : table.WritesShort cs given arguments rest) :
    ∃ used, table.readShort arguments.head? cs = .ok (given, used) ∧
      rest = left used arguments := by
  induction h with
  | nil arguments => exact ⟨false, rfl, rfl⟩
  | flag hkey hflag _ ih =>
    obtain ⟨used, hread, hrest⟩ := ih
    refine ⟨used, ?_, hrest⟩
    simp only [readShort, hkey, hflag, hread, Bool.false_eq_true, if_false]
  | joined hkey hvalue hletters =>
    refine ⟨false, ?_, rfl⟩
    simp only [readShort, hkey, hvalue, if_true, List.isEmpty_iff, if_neg hletters]
  | apart hkey hvalue =>
    refine ⟨true, ?_, rfl⟩
    simp only [readShort, hkey, hvalue, if_true, List.isEmpty_nil, fromNext, List.head?_cons]

/-! ## Names and values in one argument -/

/-- Before an equals sign that is the first one stands the name, and after it the value. -/
theorem cut_at_equals {name : List Char} (h : '=' ∉ name) (value : List Char) :
    (name ++ '=' :: value).takeWhile (fun c => c != '=') = name ∧
      (name ++ '=' :: value).dropWhile (fun c => c != '=') = '=' :: value := by
  have hname : ∀ c ∈ name, (c != '=') = true := fun c hc => bne_iff_ne.2 fun heq => h (heq ▸ hc)
  constructor
  · rw [List.takeWhile_append_of_pos hname, List.takeWhile_cons_of_neg (by simp), List.append_nil]
  · rw [List.dropWhile_append_of_pos hname, List.dropWhile_cons_of_neg (by simp)]

theorem no_equals {name : List Char} (h : '=' ∉ name) :
    name.takeWhile (fun c => c != '=') = name ∧ name.dropWhile (fun c => c != '=') = [] := by
  have hname : ∀ c ∈ name, (c != '=') = true := fun c hc => bne_iff_ne.2 fun heq => h (heq ▸ hc)
  constructor
  · simpa using @List.takeWhile_append_of_pos _ (fun c => c != '=') name [] hname
  · simpa using @List.dropWhile_append_of_pos _ (fun c => c != '=') name [] hname

theorem head_of_dropWhile {cs value : List Char} {c : Char}
    (h : cs.dropWhile (fun c => c != '=') = c :: value) : c = '=' := by
  have hhead := List.head?_dropWhile_not (fun c => c != '=') cs
  rw [h] at hhead
  simpa using hhead

/-- An argument with its name cut off is the name, or the name before an equals sign and a value. -/
theorem name_of_argument (a : String) :
    (a.toList.dropWhile (fun c => c != '=') = [] ∧
      String.ofList (a.toList.takeWhile fun c => c != '=') = a) ∨
    ∃ value, a.toList.dropWhile (fun c => c != '=') = '=' :: value ∧
      a = String.ofList (a.toList.takeWhile fun c => c != '=') ++ "=" ++ String.ofList value := by
  have hself := @List.takeWhile_append_dropWhile _ (fun c => c != '=') a.toList
  cases h : a.toList.dropWhile (fun c => c != '=') with
  | nil =>
    rw [h, List.append_nil] at hself
    exact .inl ⟨rfl, by rw [hself, String.ofList_toList]⟩
  | cons c value =>
    have hc := head_of_dropWhile h
    subst hc
    refine .inr ⟨value, rfl, String.toList_inj.1 ?_⟩
    rw [h] at hself
    simpa using hself.symm

theorem writesOption_of_read {a : String} {c : Char} {cs : List Char} {arguments : List String}
    {given : List (κ × String)} {used : Bool} (ha : a.toList = '-' :: c :: cs)
    (h : table.readOption a.toList arguments.head? = .ok (given, used)) :
    table.WritesOption a given arguments (left used arguments) := by
  unfold readOption at h
  dsimp only at h
  cases hkey : table.long.lookup (String.ofList (a.toList.takeWhile fun c => c != '=')) with
  | some key =>
    rw [hkey] at h
    dsimp only at h
    rcases name_of_argument a with ⟨hnone, hname⟩ | ⟨value, hsome, hname⟩
    · rw [hnone] at h
      rw [hname] at h hkey
      cases hvalue : table.takesValue key with
      | true =>
        rw [hvalue] at h
        obtain ⟨value, rest, rfl, rfl, rfl⟩ := fromNext_eq_ok h
        exact .apart hkey hvalue
      | false =>
        rw [hvalue] at h
        obtain ⟨rfl, rfl⟩ := Prod.mk.inj (Except.ok.inj h)
        exact .flag hkey hvalue
    · rw [hsome] at h
      cases hvalue : table.takesValue key with
      | true =>
        rw [hvalue] at h
        obtain ⟨rfl, rfl⟩ := Prod.mk.inj (Except.ok.inj h)
        rw [hname]
        exact .joined hkey hvalue
      | false =>
        rw [hvalue] at h
        cases h
  | none =>
    rw [hkey, ha] at h
    dsimp only at h
    split at h
    · cases h
    · next hletters =>
      rw [← String.ofList_toList (s := a), ha]
      exact .short (fun hc => hletters cs (hc ▸ rfl)) (writesShort_of_read h)

/-- What starts with one dash is not a long name, also before an equals sign. -/
theorem Proper.lookup_eq_none (hproper : table.Proper) {c : Char} (hc : c ≠ '-')
    (cs : List Char) : table.long.lookup
      (String.ofList (('-' :: c :: cs).takeWhile fun c => c != '=')) = none := by
  refine Option.eq_none_iff_forall_ne_some.2 fun key hkey => ?_
  obtain ⟨d, ds, hname, -⟩ := hproper _ _ hkey
  rw [String.toList_ofList, List.takeWhile_cons_of_pos (by decide)] at hname
  have hsecond : ((c :: cs).takeWhile fun c => c != '=').head? = some '-' := by
    rw [(List.cons.inj hname).2]
    rfl
  rw [List.head?_takeWhile] at hsecond
  exact hc (Option.some.inj (Option.filter_eq_some_iff.1 hsecond).1)

theorem WritesOption.read (hproper : table.Proper) {a : String} {given : List (κ × String)}
    {arguments rest : List String} (h : table.WritesOption a given arguments rest) :
    ∃ c cs used, a.toList = '-' :: c :: cs ∧ (c = '-' → cs ≠ []) ∧
      table.readOption a.toList arguments.head? = .ok (given, used) ∧
      rest = left used arguments := by
  unfold readOption
  dsimp only
  cases h with
  | flag hkey hflag =>
    obtain ⟨c, cs, hname, hequals⟩ := hproper _ _ hkey
    refine ⟨'-', c :: cs, false, hname, fun _ => List.cons_ne_nil c cs, ?_, rfl⟩
    rw [(no_equals hequals).1, (no_equals hequals).2, String.ofList_toList, hkey]
    simp only [hflag]
  | @joined name value key _ hkey hvalue =>
    obtain ⟨c, cs, hname, hequals⟩ := hproper _ _ hkey
    have hlist : (name ++ "=" ++ value).toList = name.toList ++ '=' :: value.toList := by simp
    refine ⟨'-', c :: cs ++ '=' :: value.toList, false, by rw [hlist, hname]; rfl,
      fun _ => by simp, ?_, rfl⟩
    rw [hlist, (cut_at_equals hequals _).1, (cut_at_equals hequals _).2, String.ofList_toList,
      hkey]
    simp only [hvalue, String.ofList_toList]
  | apart hkey hvalue =>
    obtain ⟨c, cs, hname, hequals⟩ := hproper _ _ hkey
    refine ⟨'-', c :: cs, true, hname, fun _ => List.cons_ne_nil c cs, ?_, rfl⟩
    rw [(no_equals hequals).1, (no_equals hequals).2, String.ofList_toList, hkey]
    simp only [hvalue, fromNext, List.head?_cons]
  | @short c cs _ _ _ hc hletters =>
    obtain ⟨used, hread, hrest⟩ := hletters.read
    refine ⟨c, cs, used, String.toList_ofList, fun h => absurd h hc, ?_, hrest⟩
    rw [String.toList_ofList]
    rw [hproper.lookup_eq_none hc cs]
    dsimp only
    split
    · next heq => exact absurd (List.cons.inj (List.cons.inj heq).2).1 hc
    · exact hread

/-! ## All arguments -/

theorem length_left_le (used : Bool) (arguments : List String) :
    (left used arguments).length ≤ arguments.length := by
  unfold left
  split
  · rw [List.length_tail]
    exact Nat.sub_le _ _
  · exact Nat.le_refl _

/-- An argument that is not a dash with more after it is an operand, and so are all after it, unless
options may stand between operands. -/
theorem read_operand {a : String} {arguments : List String} (h : IsOperand a)
    (interspersed : Bool) :
    table.read interspersed (a :: arguments) =
      if interspersed then
        (table.read interspersed arguments).map fun more =>
          { more with operands := a :: more.operands }
      else .ok { operands := a :: arguments } := by
  rw [read]
  split
  · next heq => exact absurd heq (h '-' [])
  · next c cs _ heq => exact absurd heq (h c cs)
  · cases table.read interspersed arguments <;> rfl

/-- An argument with a dash and more, which is not just two dashes, is read as options. -/
theorem read_option {interspersed : Bool} {a : String} {arguments : List String} {c : Char}
    {cs : List Char} (ha : a.toList = '-' :: c :: cs) (hdashes : c = '-' → cs ≠ []) :
    table.read interspersed (a :: arguments) =
      match table.readOption a.toList arguments.head? with
      | .error e => .error e
      | .ok (given, used) =>
        (table.read interspersed (left used arguments)).map fun more =>
          { more with given := given ++ more.given } := by
  rw [read]
  split
  · next heq =>
    obtain ⟨-, h⟩ := List.cons.inj (ha.symm.trans heq)
    obtain ⟨rfl, rfl⟩ := List.cons.inj h
    exact absurd rfl (hdashes rfl)
  · next c' cs' _ heq =>
    rw [heq]
    cases table.readOption ('-' :: c' :: cs') arguments.head? with
    | error e => rfl
    | ok reading =>
      dsimp only
      unfold left
      cases table.read interspersed (if reading.2 then arguments.tail else arguments) <;> rfl
  · next _ hother => exact absurd ha (hother c cs)

/-- Two dashes, options or an operand. -/
theorem argument_cases (a : String) :
    a = "--" ∨ (∃ c cs, a.toList = '-' :: c :: cs ∧ (c = '-' → cs ≠ [])) ∨ IsOperand a := by
  by_cases hdashes : a = "--"
  · exact .inl hdashes
  · by_cases hoption : ∃ c cs, a.toList = '-' :: c :: cs
    · obtain ⟨c, cs, ha⟩ := hoption
      refine .inr (.inl ⟨c, cs, ha, ?_⟩)
      rintro rfl rfl
      exact hdashes (String.toList_inj.1 ha)
    · exact .inr (.inr fun c cs ha => hoption ⟨c, cs, ha⟩)

theorem writes_of_read {interspersed : Bool} {arguments : List String} {a : Arguments κ}
    (h : table.read interspersed arguments = .ok a) :
    table.Writes interspersed arguments a.given a.operands := by
  -- The arguments that are left may be more than one fewer, so the induction is on their number.
  induction hn : arguments.length using Nat.strongRecOn generalizing arguments a with
  | ind n ih =>
    subst hn
    cases arguments with
    | nil =>
      rw [read] at h
      cases h
      exact .nil
    | cons first rest =>
      rcases argument_cases first with rfl | ⟨c, cs, hfirst, hdashes⟩ | hoperand
      · rw [read] at h
        cases h
        exact .dashes rest
      · rw [read_option hfirst hdashes] at h
        split at h
        · cases h
        · next given used hoption =>
          cases hrest : table.read interspersed (left used rest) with
          | error e =>
            rw [hrest] at h
            cases h
          | ok more =>
            rw [hrest] at h
            cases h
            exact .option (writesOption_of_read hfirst hoption)
              (ih _ (Nat.lt_succ_of_le (length_left_le used rest)) hrest rfl)
      · rw [read_operand hoperand] at h
        split at h
        · next hinterspersed =>
          cases hrest : table.read interspersed rest with
          | error e =>
            rw [hrest] at h
            cases h
          | ok more =>
            rw [hrest] at h
            cases h
            exact .operand hinterspersed hoperand
              (ih _ (Nat.lt_succ_self _) hrest rfl)
        · next hinterspersed =>
          cases h
          exact .operands (Bool.eq_false_iff.2 hinterspersed) hoperand

theorem Writes.read (hproper : table.Proper) {interspersed : Bool} {arguments : List String}
    {given : List (κ × String)} {operands : List String}
    (h : table.Writes interspersed arguments given operands) :
    table.read interspersed arguments = .ok { given, operands } := by
  induction h with
  | nil => rw [OptionTable.read]
  | dashes operands =>
    rw [OptionTable.read]
    rfl
  | operand hinterspersed ha _ ih =>
    rw [read_operand ha, if_pos hinterspersed, ih]
    rfl
  | operands hinterspersed ha =>
    rw [read_operand ha, hinterspersed]
    rfl
  | option hoption _ ih =>
    obtain ⟨c, cs, used, ha, hdashes, hread, rfl⟩ := hoption.read hproper
    rw [read_option ha hdashes, hread]
    dsimp only
    rw [ih]
    rfl

/-- **What arguments are read as is what is written in them**, options in order and operands in
order. -/
theorem read_eq_ok_iff (hproper : table.Proper) {interspersed : Bool} {arguments : List String}
    {given : List (κ × String)} {operands : List String} :
    table.read interspersed arguments = .ok { given, operands } ↔
      table.Writes interspersed arguments given operands :=
  ⟨fun h => writes_of_read h, fun h => h.read hproper⟩

/-! ## Options that are words -/

theorem WritesShort.short_of_mem {cs : List Char} {given : List (κ × String)}
    {arguments rest : List String} (h : table.WritesShort cs given arguments rest) :
    rest <:+ arguments ∧ ∀ option ∈ given, ∃ c, table.short.lookup c = some option.1 := by
  induction h with
  | nil arguments => exact ⟨List.suffix_refl _, by simp⟩
  | flag hkey _ _ ih =>
    refine ⟨ih.1, List.forall_mem_cons.2 ⟨⟨_, hkey⟩, ih.2⟩⟩
  | joined hkey _ _ => exact ⟨List.suffix_refl _, by simpa using ⟨_, hkey⟩⟩
  | apart hkey _ => exact ⟨List.suffix_cons _ _, by simpa using ⟨_, hkey⟩⟩

/-- An option without a letter and without a value is given by its long name, as one argument. -/
theorem Writes.name_mem {key : κ} (hshort : ∀ c, table.short.lookup c ≠ some key)
    (hflag : table.takesValue key = false) {interspersed : Bool} {arguments operands : List String}
    {given : List (κ × String)} (h : table.Writes interspersed arguments given operands)
    (hkey : ∃ option ∈ given, option.1 = key) :
    ∃ name ∈ arguments, table.long.lookup name = some key := by
  induction h with
  | nil | dashes | operands => simp at hkey
  | operand _ _ _ ih =>
    obtain ⟨name, hname, hlong⟩ := ih hkey
    exact ⟨name, List.mem_cons_of_mem _ hname, hlong⟩
  | @option a arguments rest given more operands hoption _ ih =>
    have hrest : rest <:+ arguments := by
      cases hoption with
      | flag => exact List.suffix_refl _
      | joined => exact List.suffix_refl _
      | apart => exact List.suffix_cons _ _
      | short _ hletters => exact hletters.short_of_mem.1
    obtain ⟨option, hmem, rfl⟩ := hkey
    rcases List.mem_append.1 hmem with hmem | hmem
    · cases hoption with
      | flag hlong _ =>
        rw [List.mem_singleton.1 hmem]
        exact ⟨a, List.mem_cons_self, hlong⟩
      | joined _ hvalue =>
        rw [List.mem_singleton.1 hmem, hvalue] at hflag
        cases hflag
      | apart _ hvalue =>
        rw [List.mem_singleton.1 hmem, hvalue] at hflag
        cases hflag
      | short _ hletters =>
        obtain ⟨c, hc⟩ := hletters.short_of_mem.2 option hmem
        exact absurd hc (hshort c)
    · obtain ⟨name, hname, hlong⟩ := ih ⟨option, hmem, rfl⟩
      exact ⟨name, List.mem_cons_of_mem _ (hrest.subset hname), hlong⟩

end OptionTable

end StyleLang
