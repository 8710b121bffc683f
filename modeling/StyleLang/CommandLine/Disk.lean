/-!
# The disk

The files and directories that a run can see, by their keys: the names that lead to them. The root
and the directories around the working directory are always there. A path as it is typed leads to a
file, to a directory or to neither. A file is written where its directory exists and no directory
has its name. The lengths of names and of paths are limited, and counted in bytes; no path has a
character NUL in it.
-/

namespace StyleLang

inductive DiskEntry where
  | file (bytes : ByteArray)
  | directory

structure Disk where
  entries : List (List String × DiskEntry) := []

/-- Where a path leads. -/
inductive Destination where
  | missing
  /-- Past a file, as if it were a directory. -/
  | pastFile
  /-- To a name that no file can have. -/
  | longName
  | directory (key : List String)
  | file (key : List String) (bytes : ByteArray)

/-- Why a path is of no use. -/
inductive PathError where
  | nul
  | tooLong
  | missing
  | notDirectory
  | isDirectory
  deriving DecidableEq, Repr

/-- The names in a path, the empty ones between two slashes and at the ends counted. -/
def pathNames : List Char → List (List Char)
  | [] => [[]]
  | c :: cs =>
    if c = '/' then [] :: pathNames cs
    else
      match pathNames cs with
      | [] => [[c]]
      | name :: names => (c :: name) :: names

def hasNul (path : String) : Bool := path.toList.contains '\x00'

namespace Disk

def nameLimit : Nat := 255

def pathLimit : Nat := 4095

/-- Whether a key leads to the root, to the working directory or to a directory around it. -/
def isOuter (key : List String) : Bool := key = ["/"] || key.all (· = "..")

/-- Whether a key leads to something in the working directory. -/
def isInner (key : List String) : Bool := key.head? != some "/" && key.head? != some ".."

/-- What has the key: an entry, or a directory that some key leads through. -/
def find (disk : Disk) (key : List String) : Destination :=
  match disk.entries.lookup key with
  | some (.file bytes) => .file key bytes
  | some .directory => .directory key
  | none =>
    if isOuter key || disk.entries.any (fun e => key.isPrefixOf e.1) then .directory key
    else .missing

/-- The key of the directory around a directory. The root is around itself, and what is around the
working directory is entered like any other name. -/
def outer (key : List String) : List String :=
  if key = ["/"] then key
  else if key.isEmpty || key.getLast? = some ".." then key ++ [".."]
  else key.dropLast

/-- One name further. -/
def enter (disk : Disk) (name : List Char) : Destination → Destination
  | .directory key =>
    if name = [] ∨ name = ['.'] then .directory key
    else if name = ['.', '.'] then disk.find (outer key)
    else if nameLimit < (String.ofList name).utf8ByteSize then .longName
    else disk.find (key ++ [String.ofList name])
  | .file _ _ => .pastFile
  | other => other

/-- Where names lead from the working directory, or from the root if the first one is empty. -/
def follow (disk : Disk) : List (List Char) → Destination
  | [] => .directory []
  | [] :: names => names.foldl (fun d name => disk.enter name d) (disk.find ["/"])
  | names => names.foldl (fun d name => disk.enter name d) (.directory [])

/-- Where a path leads. The empty path leads nowhere, and neither does one over the limit. -/
def locate (disk : Disk) (path : String) : Destination :=
  if path = "" ∨ pathLimit < path.utf8ByteSize then .missing
  else disk.follow (pathNames path.toList)

/-- A path without the names that lead nowhere else; a slash at its start stays. -/
def plainNames (path : String) : List (List Char) :=
  match pathNames path.toList with
  | [] :: names => [] :: names.filter fun n => decide (n ≠ [] ∧ n ≠ ['.'])
  | names => names.filter fun n => decide (n ≠ [] ∧ n ≠ ['.'])

/-- The last name of a path. -/
def baseName (path : String) : String :=
  String.ofList ((plainNames path).getLast?.getD [])

/-- The length of a path that is written with its plain names only. -/
def plainLength (path : String) : Nat :=
  ("/".intercalate ((plainNames path).map String.ofList)).utf8ByteSize

/-- The key under which a file can be written at the end of some names. -/
def place (disk : Disk) (names : List (List Char)) : Except PathError (List String) :=
  match disk.follow names.dropLast, names.getLast? with
  | .missing, _ => .error .missing
  | .longName, _ => .error .tooLong
  | .pastFile, _ => .error .notDirectory
  | .file _ _, _ => .error .notDirectory
  | .directory _, none => .error .isDirectory
  | .directory key, some name =>
    match disk.enter name (.directory key) with
    | .directory _ => .error .isDirectory
    | .longName => .error .tooLong
    | _ => .ok (key ++ [String.ofList name])

/-- The key under which a file can be written at a path. -/
def writable (disk : Disk) (path : String) : Except PathError (List String) :=
  if hasNul path then .error .nul
  else if pathLimit < plainLength path then .error .tooLong
  else disk.place (plainNames path)

end Disk

end StyleLang
