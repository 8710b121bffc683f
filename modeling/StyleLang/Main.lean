import StyleLang.CommandLine.Run

/-!
# The program

Looks at the paths that the arguments name, runs the command line on what is there, and does what
the outcome says.
-/

namespace StyleLang

/-- What stands at a path. -/
def lookAt (path : String) : IO (Option DiskEntry) := do
  try
    return some (.file (← IO.FS.readBinFile path))
  catch
    | .noFileOrDirectory .. => return none
    | .noSuchThing .. => return none
    | _ => return some .directory

/-- The keys that a path leads through, the last one first. -/
def keysOn (path : String) : List (List String) :=
  (Disk.plainNames path).foldl (fun keys name =>
    let key := keys.headD []
    let next :=
      if name = ['.', '.'] then Disk.outer key
      else key ++ [if name.isEmpty then "/" else String.ofList name]
    next :: keys) []

/-- The path of a key. -/
def pathOf (key : List String) : String :=
  match key with
  | [] => "."
  | "/" :: names => "/" ++ "/".intercalate names
  | names => "/".intercalate names

/-- The entries on the way to a path. -/
def survey (path : String) : IO (List (List String × DiskEntry)) := do
  let mut found := []
  for key in keysOn path do
    match ← lookAt (pathOf key) with
    | some entry => found := (key, entry) :: found
    | none => pure ()
  return found

/-- What a crash is called when a person reads it. -/
def Crash.words : Crash → String
  | encoding => "the source is not UTF-8"
  | build reason => reason.message
  | fault .unprintable => overLimit
  | fault _ => "a node is out of place"
  | css reason => reason.message
  | path .nul => "a path has a character NUL in it"
  | path .tooLong => "the path of the output file is too long"
  | path .missing => "the directory of the output file does not exist"
  | path .notDirectory => "the directory of the output file is a file"
  | path .isDirectory => "the output file is a directory"
  | indent .tooWide => "the indent is wider than any text"
  | indent .noMemory => "the indent does not fit into memory"

end StyleLang

open StyleLang in
def main (args : List String) : IO UInt32 := do
  let entries ← args.mapM survey
  let outcome := run { entries := entries.flatten } args
  match outcome.written with
  | some (key, css) =>
    IO.FS.writeFile (pathOf key) css
  | none => pure ()
  IO.print outcome.stdout
  IO.eprint outcome.stderr
  if outcome.exit = 2 then IO.eprintln ""
  match outcome.crash with
  | some reason => IO.eprintln reason.words
  | none => pure ()
  return outcome.exit.toUInt32
