import KeyHarvest.Config.Reader
import KeyHarvest.Files.Tree

/-!
# Finding settings

The settings of a project stand in the nearest directory on the way up that has a file of them. The
way up ends at a directory that is the top of a repository, and follows the text of the path.
-/

namespace KeyHarvest.Config

/-- The entry that marks the top of a repository. -/
def repositoryMark : String := ".git"

/-- Look for a file of settings in a directory, then in those above it. -/
def findFrom (t : FileTree) (here : Path) : Nat → Option Path
  | 0 => none
  | fuel + 1 =>
    if t.pathExists (here.child fileName) then some (here.child fileName)
    else if t.pathExists (here.child repositoryMark) then none
    else
      match here.parent? with
      | none => none
      | some above => findFrom t above fuel

/-- The path of the nearest file of settings. -/
def find? (t : FileTree) (start : Path) : Option Path :=
  findFrom t start (start.pieces.length + 2)

/-- Why settings could not be loaded. -/
inductive LoadError where
  /-- The file cannot be read. -/
  | unreadable (path : Path) (cause : FileError)
  /-- The file does not hold settings. -/
  | malformed (path : Path) (reason : String)
  deriving DecidableEq, Repr

/-- The words of an error, the cause last. -/
def LoadError.message : LoadError → String
  | .unreadable path cause =>
    "Failed to read config file: " ++ Text.quotedPath path.text ++ ": " ++ cause.message
  | .malformed path reason =>
    "Failed to parse config file: " ++ Text.quotedPath path.text ++ ": " ++ reason

/-- The settings of a project, and whether they come from a file; without one they are the
defaults. -/
def load (t : FileTree) (start : Path) : Except LoadError (Config × Bool) :=
  match find? t start with
  | none => .ok ({}, false)
  | some path =>
    match t.readText path with
    | .error e => .error (.unreadable path e)
    | .ok source =>
      match read source with
      | .error reason => .error (.malformed path reason)
      | .ok c => .ok (c, true)

end KeyHarvest.Config
