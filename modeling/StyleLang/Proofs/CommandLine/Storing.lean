import StyleLang.CommandLine.Run

/-!
# Files that are written

A run writes at most one file. Main statements: a file that is written has its text, all else is as
it was before, and a path that led to a file is the path of the same file when it is written to.
-/

namespace StyleLang

namespace Disk

/-- The disk with a text in the file that has the key. -/
def put (disk : Disk) (key : List String) (text : String) : Disk :=
  { entries := (key, .file text.toUTF8) :: disk.entries }

/-- The working directory is a directory, and so is what is around a directory. -/
structure Orderly (disk : Disk) : Prop where
  working : disk.find [] = .directory []
  outer : ∀ key, disk.find key = .directory key → disk.find (outer key) = .directory (outer key)

/-- Whether a key that has no entry leads to a directory. -/
def isThrough (disk : Disk) (key : List String) : Bool :=
  isOuter key || disk.entries.any fun e => key.isPrefixOf e.1

/-- Names lead to a directory with the key: to the working directory, or to one that is found. -/
def Entered (disk : Disk) (key : List String) : Prop := key = [] ∨ disk.find key = .directory key

variable {disk : Disk} {key other : List String} {path text : String}

/-! ## What has a key -/

theorem find_eq (disk : Disk) (key : List String) :
    disk.find key =
      match disk.entries.lookup key with
      | some (.file bytes) => .file key bytes
      | some .directory => .directory key
      | none => if disk.isThrough key then .directory key else .missing := rfl

theorem key_of_find_directory {found : List String} (h : disk.find key = .directory found) :
    found = key := by
  rw [find_eq] at h
  split at h
  · cases h
  · exact (Destination.directory.inj h).symm
  · split at h
    · exact (Destination.directory.inj h).symm
    · cases h

theorem entered_of_find {found : List String} (h : disk.find key = .directory found) :
    disk.Entered found := by
  obtain rfl := key_of_find_directory h
  exact .inr h

theorem key_of_find_file {found : List String} {bytes : ByteArray}
    (h : disk.find key = .file found bytes) : found = key := by
  rw [find_eq] at h
  split at h
  · exact (Destination.file.inj h).1.symm
  · cases h
  · split at h <;> cases h

theorem isOuter_of_start (h : other <+: key) (hkey : isOuter key = true) :
    isOuter other = true := by
  unfold isOuter at hkey ⊢
  rcases Bool.or_eq_true_iff.1 hkey with hroot | hdots
  · rw [of_decide_eq_true hroot] at h
    rcases List.prefix_cons_iff.1 h with rfl | ⟨rest, rfl, hrest⟩
    · rfl
    · rw [List.prefix_nil.1 hrest]
      rfl
  · refine Bool.or_eq_true_iff.2 (.inr (List.all_eq_true.2 fun name hname => ?_))
    exact List.all_eq_true.1 hdots name (h.subset hname)

/-- The key of a directory has an entry, or it is known without one. -/
theorem isThrough_of_entered (h : disk.Entered key) : disk.isThrough key = true := by
  rcases h with rfl | h
  · rfl
  · rw [find_eq] at h
    split at h
    · cases h
    · next hentry =>
      refine Bool.or_eq_true_iff.2 (.inr (List.any_eq_true.2 ⟨_, mem_of_lookup hentry, ?_⟩))
      exact List.isPrefixOf_iff_prefix.2 (List.prefix_refl key)
    · split at h
      · next hkey => exact hkey
      · cases h

theorem isThrough_of_start (h : other <+: key) (hkey : disk.isThrough key = true) :
    disk.isThrough other = true := by
  unfold isThrough at hkey ⊢
  rcases Bool.or_eq_true_iff.1 hkey with houter | hentry
  · rw [isOuter_of_start h houter, Bool.true_or]
  · obtain ⟨e, he, hprefix⟩ := List.any_eq_true.1 hentry
    refine Bool.or_eq_true_iff.2 (.inr (List.any_eq_true.2 ⟨e, he, ?_⟩))
    exact List.isPrefixOf_iff_prefix.2 (h.trans (List.isPrefixOf_iff_prefix.1 hprefix))

/-! ## Where names lead -/

theorem enter_directory (disk : Disk) (name : List Char) (dir : List String) :
    disk.enter name (.directory dir) =
      if name = [] ∨ name = ['.'] then .directory dir
      else if name = ['.', '.'] then disk.find (outer dir)
      else if nameLimit < (String.ofList name).utf8ByteSize then .longName
      else disk.find (dir ++ [String.ofList name]) := rfl

/-- Further names from a place on the disk. -/
def walk (disk : Disk) (start : Destination) (names : List (List Char)) : Destination :=
  names.foldl (fun d name => disk.enter name d) start

theorem walk_cons (disk : Disk) (start : Destination) (name : List Char)
    (names : List (List Char)) :
    disk.walk start (name :: names) = disk.walk (disk.enter name start) names := rfl

theorem walk_append (disk : Disk) (start : Destination) (names more : List (List Char)) :
    disk.walk start (names ++ more) = disk.walk (disk.walk start names) more :=
  List.foldl_append

theorem walk_pastFile (disk : Disk) (names : List (List Char)) :
    disk.walk .pastFile names = .pastFile := by
  induction names with
  | nil => rfl
  | cons name names ih => exact ih

/-- Names lead from the root if the first one is empty, and else from the working directory. -/
theorem follow_cons (disk : Disk) (name : List Char) (names : List (List Char)) :
    disk.follow (name :: names) =
      if name = [] then disk.walk (disk.find ["/"]) names
      else disk.walk (.directory []) (name :: names) := by
  cases name <;> rfl

theorem entered_of_enter {name : List Char} {d : Destination} {found : List String}
    (hd : ∀ dir, d = .directory dir → disk.Entered dir)
    (h : disk.enter name d = .directory found) : disk.Entered found := by
  cases d with
  | directory dir =>
    rw [enter_directory] at h
    split at h
    · exact hd found h
    · split at h
      · exact entered_of_find h
      · split at h
        · cases h
        · exact entered_of_find h
  | _ => cases h

theorem entered_of_walk {names : List (List Char)} {d : Destination} {found : List String}
    (hd : ∀ dir, d = .directory dir → disk.Entered dir)
    (h : disk.walk d names = .directory found) : disk.Entered found := by
  induction names generalizing d with
  | nil => exact hd found h
  | cons name names ih => exact ih (fun dir hdir => entered_of_enter hd hdir) h

theorem entered_of_follow {names : List (List Char)} {found : List String}
    (h : disk.follow names = .directory found) : disk.Entered found := by
  have hworking : ∀ dir, Destination.directory [] = .directory dir → disk.Entered dir :=
    fun dir hdir => .inl (Destination.directory.inj hdir).symm
  cases names with
  | nil => exact hworking found h
  | cons name names =>
    rw [follow_cons] at h
    split at h
    · exact entered_of_walk (fun dir hdir => entered_of_find hdir) h
    · exact entered_of_walk hworking h

/-! ## Where a file can be written -/

/-- A file can be written in a directory, under a name that leads to no other directory. -/
theorem place_eq_ok {names : List (List Char)} (h : disk.place names = .ok key) :
    ∃ dir name, disk.follow names.dropLast = .directory dir ∧ names.getLast? = some name ∧
      key = dir ++ [String.ofList name] ∧
      ∀ found, disk.enter name (.directory dir) ≠ .directory found := by
  unfold place at h
  split at h
  · cases h
  · cases h
  · cases h
  · cases h
  · cases h
  · next dir name hdir hname =>
    split at h
    · cases h
    · cases h
    · next hfound _ =>
      exact ⟨dir, name, hdir, hname, (Except.ok.inj h).symm, fun found => hfound found⟩

theorem writable_eq_ok (h : disk.writable path = .ok key) :
    disk.place (plainNames path) = .ok key := by
  unfold writable at h
  split at h
  · cases h
  · split at h
    · cases h
    · exact h

/-! ## What a file that is written changes -/

theorem find_put_self (disk : Disk) (key : List String) (text : String) :
    (disk.put key text).find key = .file key text.toUTF8 := by
  rw [find_eq, put, List.lookup_cons_self]

/-- A file that is written leaves everything else as it was. The directories that its key leads
through were there before. -/
theorem find_put_of_ne (h : disk.writable path = .ok key) (hother : other ≠ key) :
    (disk.put key text).find other = disk.find other := by
  obtain ⟨dir, name, hdir, -, rfl, -⟩ := place_eq_ok (writable_eq_ok h)
  have hthrough : (disk.put (dir ++ [String.ofList name]) text).isThrough other =
      disk.isThrough other := by
    -- The new entry adds no directory: what its key leads through, the directory around it does.
    by_cases hprefix : other <+: dir ++ [String.ofList name]
    · have hother' : other <+: dir := (List.prefix_concat_iff.1 hprefix).resolve_left hother
      have hbefore :=
        isThrough_of_start hother' (isThrough_of_entered (entered_of_follow hdir))
      rw [hbefore]
      unfold isThrough put at *
      rw [List.any_cons, Bool.or_left_comm, hbefore, Bool.or_true]
    · have hnot : other.isPrefixOf (dir ++ [String.ofList name]) = false :=
        Bool.eq_false_iff.2 fun h => hprefix (List.isPrefixOf_iff_prefix.1 h)
      unfold isThrough put
      rw [List.any_cons, hnot, Bool.false_or]
  have hentry : (other == dir ++ [String.ofList name]) = false := beq_eq_false_iff_ne.2 hother
  rw [find_eq, find_eq, hthrough, put, List.lookup_cons, hentry]

/-! ## A path that led to a file -/

/-- The names that lead elsewhere. -/
def moving (names : List (List Char)) : List (List Char) :=
  names.filter fun n => decide (n ≠ [] ∧ n ≠ ['.'])

/-- On the way to a file the names that lead nowhere else can be left out. -/
theorem walk_moving {names : List (List Char)} {d : Destination} {found : List String}
    {bytes : ByteArray} (h : disk.walk d names = .file found bytes) :
    disk.walk d (moving names) = .file found bytes := by
  induction names generalizing d with
  | nil => exact h
  | cons name names ih =>
    rw [walk_cons] at h
    by_cases hstays : name = [] ∨ name = ['.']
    · have hleft : moving (name :: names) = moving names :=
        List.filter_cons_of_neg (by simpa using hstays.resolve_left)
      rw [hleft]
      cases d with
      | directory dir =>
        rw [enter_directory, if_pos hstays] at h
        exact ih h
      | file k b =>
        have hpast : disk.walk .pastFile names = .file found bytes := h
        rw [walk_pastFile] at hpast
        cases hpast
      | _ => exact ih h
    · have hkept : moving (name :: names) = name :: moving names :=
        List.filter_cons_of_pos (by simpa [not_or] using hstays)
      rw [hkept, walk_cons]
      exact ih h

theorem follow_moving {names : List (List Char)} {found : List String} {bytes : ByteArray}
    (h : disk.walk (.directory []) names = .file found bytes) :
    disk.follow (moving names) = .file found bytes := by
  have hwalk := walk_moving h
  cases hmoving : moving names with
  | nil =>
    rw [hmoving] at hwalk
    cases hwalk
  | cons name more =>
    have hname : name ∈ moving names := by rw [hmoving]; exact List.mem_cons_self
    obtain ⟨hne, -⟩ := of_decide_eq_true (List.mem_filter.1 hname).2
    rw [follow_cons, if_neg hne, ← hmoving]
    exact hwalk

/-- A path that leads to a file leads there by its plain names. -/
theorem follow_plainNames {found : List String} {bytes : ByteArray}
    (h : disk.locate path = .file found bytes) :
    disk.follow (plainNames path) = .file found bytes := by
  unfold locate at h
  split at h
  · cases h
  · unfold plainNames
    split
    · next names hnames =>
      rw [hnames] at h
      exact walk_moving h
    · next hnames =>
      cases hcases : pathNames path.toList with
      | nil =>
        rw [hcases] at h
        cases h
      | cons name names =>
        rw [hcases, follow_cons, if_neg] at h
        · exact follow_moving h
        · rintro rfl
          exact hnames names hcases

theorem follow_last {names : List (List Char)} {name : List Char} {dir : List String}
    (hdir : disk.follow names.dropLast = .directory dir) (hlast : names.getLast? = some name)
    (hname : name ≠ []) : disk.follow names = disk.enter name (.directory dir) := by
  obtain ⟨before, rfl⟩ := List.getLast?_eq_some_iff.1 hlast
  rw [List.dropLast_concat] at hdir
  cases before with
  | nil =>
    rw [List.nil_append, follow_cons, if_neg hname]
    exact congrArg (disk.enter name) hdir
  | cons first before =>
    rw [follow_cons] at hdir
    rw [List.cons_append, follow_cons]
    split at hdir
    · next hfirst =>
      rw [if_pos hfirst, walk_append, hdir]
      rfl
    · next hfirst =>
      rw [if_neg hfirst, ← List.cons_append, walk_append, hdir]
      rfl

/-- The path of a file is where that file is written again. -/
theorem key_of_writable (hdisk : disk.Orderly) {found : List String} {bytes : ByteArray}
    (hfile : disk.locate path = .file found bytes) (h : disk.writable path = .ok key) :
    found = key := by
  obtain ⟨dir, name, hdir, hlast, rfl, hother⟩ := place_eq_ok (writable_eq_ok h)
  have hstays : ¬ (name = [] ∨ name = ['.']) := fun hstays => by
    refine hother dir ?_
    rw [enter_directory, if_pos hstays]
  -- Two dots would lead to a directory again, and no file is written there.
  have hout : name ≠ ['.', '.'] := by
    rintro rfl
    have hfound : disk.find dir = .directory dir :=
      (entered_of_follow hdir).elim (fun h => h ▸ hdisk.working) id
    refine hother (outer dir) ?_
    rw [enter_directory, if_neg hstays, if_pos rfl]
    exact hdisk.outer dir hfound
  have hfollow := follow_plainNames hfile
  rw [follow_last hdir hlast fun hname => hstays (.inl hname), enter_directory, if_neg hstays,
    if_neg hout] at hfollow
  split at hfollow
  · cases hfollow
  · exact key_of_find_file hfollow

/-! ## Files in the working directory -/

theorem isOuter_outer (h : isOuter key = true) : isOuter (outer key) = true := by
  unfold outer
  split
  · exact h
  · next hroot =>
    have hdots : key.all (· = "..") = true :=
      (Bool.or_eq_true_iff.1 h).resolve_left fun h => hroot (of_decide_eq_true h)
    refine Bool.or_eq_true_iff.2 (.inr ?_)
    split
    · rw [List.all_append, hdots]
      rfl
    · refine List.all_eq_true.2 fun name hname => ?_
      exact List.all_eq_true.1 hdots name (List.dropLast_subset key hname)

/-- A disk is in order if it has files in the working directory and nothing else. -/
theorem orderly_of_files (h : ∀ e ∈ disk.entries,
    ∃ name bytes, e = ([name], .file bytes) ∧ isOuter [name] = false) : disk.Orderly := by
  have houter : ∀ key, isOuter key = true → disk.find key = .directory key := by
    intro key hkey
    have hnone : disk.entries.lookup key = none := by
      refine List.lookup_eq_none_iff.2 fun e he => bne_iff_ne.2 ?_
      rintro rfl
      obtain ⟨name, bytes, rfl, hname⟩ := h e he
      exact absurd hkey (Bool.eq_false_iff.1 hname)
    rw [find_eq, hnone]
    exact if_pos (Bool.or_eq_true_iff.2 (.inl hkey))
  have hdirectory : ∀ key, disk.find key = .directory key → isOuter key = true := by
    intro key hkey
    rw [find_eq] at hkey
    split at hkey
    · cases hkey
    · next hentry =>
      obtain ⟨name, bytes, heq, -⟩ := h (key, .directory) (mem_of_lookup hentry)
      cases heq
    · next hnone =>
      split at hkey
      · next hthrough =>
        rcases Bool.or_eq_true_iff.1 hthrough with hkey | hentry
        · exact hkey
        · obtain ⟨e, he, hprefix⟩ := List.any_eq_true.1 hentry
          obtain ⟨name, bytes, rfl, -⟩ := h e he
          rcases List.prefix_cons_iff.1 (List.isPrefixOf_iff_prefix.1 hprefix) with
            rfl | ⟨rest, rfl, hrest⟩
          · rfl
          · rw [List.prefix_nil.1 hrest] at hnone
            exact absurd (List.lookup_eq_none_iff.1 hnone _ he) (by simp)
      · cases hkey
  exact ⟨houter [] rfl, fun key hkey => houter _ (isOuter_outer (hdirectory key hkey))⟩

end Disk

/-- The disk after a run. -/
def Outcome.leaves (o : Outcome) (disk : Disk) : Disk :=
  match o.written with
  | none => disk
  | some (key, text) => disk.put key text

end StyleLang
