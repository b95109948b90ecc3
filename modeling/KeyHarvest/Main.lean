import KeyHarvest.Command.Run

/-!
# The program

The program takes a picture of the working directory and of all that the plan of an extraction names
outside of it, runs the command line on it, and carries the changes back: directories that are new
are made, and files that are new or different are written. The picture has names from the root of
the file system. A link is kept by where it leads; where that is not in the picture it leads
nowhere.
-/

namespace KeyHarvest.Program

/-- The path of names. -/
def pathOf (names : Names) : String :=
  "/" ++ "/".intercalate names

/-- The names on a path from the top without dots. -/
def namesOf (path : String) : Names :=
  (Path.mk path).pieces.filter (· != "")

/-- The path of what another path leads to, through all links, if it leads to anything. -/
def realPath? (path : String) : IO (Option String) := do
  try return some (← IO.FS.realPath path).toString catch _ => return none

/-- Add the directories that names lead through, and the one that they lead to. -/
def addWay (t : FileTree) (names : Names) : FileTree :=
  (List.range names.length).foldl (fun t n ↦ t.insert (names.take (n + 1)) .directory) t

/-- Add what a directory holds. -/
partial def addDirectory (t : FileTree) (names : Names) : IO FileTree := do
  let mut t := t
  for entry in ← (← IO.FS.realPath (pathOf names)).readDir do
    let below := names ++ [entry.fileName]
    match (← entry.path.symlinkMetadata).type with
    | .file => t := t.insert below (.file (← IO.FS.readBinFile entry.path))
    | .dir => t ← addDirectory (t.insert below .directory) below
    | .symlink => t := t.insert below (.link ((← realPath? (pathOf below)).getD ""))
    | .other => pure ()
  return t

/-- Add what a path leads to and the directories on the way, or as much of the way as there is. -/
partial def addPlace (t : FileTree) (p : Path) : IO FileTree := do
  match ← realPath? (if p.text = "" then "." else p.text) with
  | some real =>
    let names := namesOf real
    match (← (← IO.FS.realPath real).metadata).type with
    | .dir => addDirectory (addWay t names) names
    | .file =>
      let content ← IO.FS.readBinFile real
      return (addWay t names.dropLast).insert names (.file content)
    | _ => return addWay t names.dropLast
  | none =>
    match p.parent? with
    | some above =>
      match ← realPath? (if above.text = "" then "." else above.text) with
      | some real => return addWay t (namesOf real)
      | none => addPlace t above
    | none => return t

/-- What of a path leads to no more than its wildcards match. -/
def beforeWildcards (p : Path) : Path :=
  ⟨"/".intercalate (p.pieces.takeWhile fun piece ↦ !Glob.hasWildcard piece)⟩

/-- The paths that a command line names, as far as a picture tells. -/
def places (t : FileTree) (args : List String) : List Path :=
  match Command.parseArguments args with
  | .ok (.extract a) =>
    match Command.Plan.make t a with
    | .ok plan =>
      [plan.sourceDirectory, plan.dest] ++ plan.config.includes.map fun entry ↦
        beforeWildcards (plan.sourceDirectory.join ⟨entry⟩)
    | .error _ => []
  | _ => []

/-- The root of the project that a command line names. -/
def root? (args : List String) : Option Path :=
  match Command.parseArguments args with
  | .ok (.extract a) => a.sourceRoot.map Path.mk
  | _ => none

/-- The picture of what a command line works on. -/
def picture (args : List String) : IO FileTree := do
  let top ← IO.currentDir
  let working := namesOf top.toString
  let mut t ← addPlace { FileTree.empty with working } ⟨top.toString⟩
  -- The settings stand on the way up from the root of the project.
  let mut above := root? args
  while above.isSome do
    let p := above.getD ⟨""⟩
    t ← addPlace t (p.child Config.fileName)
    t ← addPlace t (p.child Config.repositoryMark)
    above := p.parent?
  for p in places t args do
    t ← addPlace t p
  return t

/-- Carry the changes between two pictures to the file system. -/
def carryBack (before after : FileTree) : IO Unit :=
  for (names, entry) in after.entries.entries do
    if before.entry? names != some entry then
      match entry with
      | .directory => IO.FS.createDir (pathOf names)
      | .file content => IO.FS.writeBinFile (pathOf names) content
      | .link _ => pure ()

/-- Whether colours are to be shown. -/
def wantsColor : IO Bool := do
  if (← IO.getEnv "NO_COLOR").isSome then return false
  else if ((← IO.getEnv "CLICOLOR_FORCE").getD "0") != "0" then return true
  else if (← IO.getEnv "CLICOLOR") == some "0" then return false
  else (← IO.getStdout).isTty

end KeyHarvest.Program

open KeyHarvest Program in
/-- Run the command line in the current directory. -/
def main (args : List String) : IO UInt32 := do
  let before ← picture args
  let outcome := Command.run before args (← wantsColor)
  carryBack before outcome.tree
  IO.eprint outcome.messages
  IO.print outcome.output
  return outcome.status.code.toUInt32
