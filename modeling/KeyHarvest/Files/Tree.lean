import KeyHarvest.Files.Path
import KeyHarvest.KeyMap
import KeyHarvest.Text.Utf8

/-!
# File trees

A file tree holds the entries below the root of a file system: files with their bytes, directories,
and symbolic links with the text of their targets. Each entry is kept under the list of names that
leads to it from the root, so what changes at one list of names leaves all others alone.

A path is resolved piece by piece, an absolute one from the root and any other from the working
directory. A name must be looked up in a directory that may be entered, two dots lead to the
directory above, the root being above itself, and a link is followed by resolving its target from
where it stands.

The system may refuse an access to an entry, for want of permission or because a device fails. What
it refuses stays the same for the whole run, and what is refused changes nothing. Accesses come in
an order, each including those before it, so a file that may be written may also be read and a
directory that may be listed may also be entered.
-/

namespace KeyHarvest

instance instDecidableEqBytes : DecidableEq ByteArray := ByteArray.instDecidableEq

/-- An entry of a file tree. -/
inductive Entry where
  | file (content : ByteArray)
  | directory
  | link (target : String)
  deriving DecidableEq

/-- What can be asked of an entry. -/
inductive Access where
  /-- To look a name up in a directory. -/
  | enter
  /-- To read a file or list a directory. -/
  | read
  /-- To write a file, or to make an entry where there is none. -/
  | write
  deriving DecidableEq, Repr

/-- The place of an access in their order. -/
def Access.rank : Access → Nat
  | .enter => 0
  | .read => 1
  | .write => 2

/-- Why the system refuses an access. -/
inductive SystemFault where
  | notPermitted
  | brokenDevice
  | permissionDenied
  | fullDevice
  | readOnly
  | quotaExceeded
  deriving DecidableEq, Repr

/-- The words of a fault, with the system's number. -/
def SystemFault.message : SystemFault → String
  | .notPermitted => "Operation not permitted (os error 1)"
  | .brokenDevice => "Input/output error (os error 5)"
  | .permissionDenied => "Permission denied (os error 13)"
  | .fullDevice => "No space left on device (os error 28)"
  | .readOnly => "Read-only file system (os error 30)"
  | .quotaExceeded => "Disk quota exceeded (os error 122)"

/-- Why an operation on files fails. -/
inductive FileError where
  | notFound
  | alreadyExists
  | notADirectory
  | isADirectory
  | tooManyLinks
  | nameTooLong
  | nulInName
  | notUtf8
  /-- The system refuses an access that the operation needs. -/
  | refused (fault : SystemFault)
  deriving DecidableEq, Repr

/-- The words of a file error, with the system's number if it has one. -/
def FileError.message : FileError → String
  | .notFound => "No such file or directory (os error 2)"
  | .alreadyExists => "File exists (os error 17)"
  | .notADirectory => "Not a directory (os error 20)"
  | .isADirectory => "Is a directory (os error 21)"
  | .tooManyLinks => "Too many levels of symbolic links (os error 40)"
  | .nameTooLong => "File name too long (os error 36)"
  | .nulInName => "file name contained an unexpected NUL byte"
  | .notUtf8 => "stream did not contain valid UTF-8"
  | .refused fault => fault.message

/-- The names that lead to an entry from the root; none lead to the root itself. -/
abbrev Names := List String

/-- The entries of a file system, as a process sees them. -/
structure FileTree where
  /-- The entries by their names. -/
  entries : KeyMap Names Entry
  /-- The names of the working directory. -/
  working : Names := []
  /-- The first access that is refused under some names, if one is, and why. -/
  refused : Names → Option (Access × SystemFault) := fun _ ↦ none

namespace FileTree

/-- The tree without entries. -/
def empty : FileTree := { entries := .empty }

instance : Inhabited FileTree := ⟨empty⟩

/-- The entry under given names; the root is a directory. -/
def entry? (t : FileTree) (names : Names) : Option Entry :=
  if names = [] then some .directory else t.entries.get? names

/-- The tree with an entry put under given names. -/
def insert (t : FileTree) (names : Names) (e : Entry) : FileTree :=
  { t with entries := t.entries.insert names e }

/-- The tree without the entry under given names. -/
def erase (t : FileTree) (names : Names) : FileTree :=
  { t with entries := t.entries.erase names }

/-- Why an access is refused, if it is: because it is the first refused one or includes that. -/
def refusal? (t : FileTree) (a : Access) (names : Names) : Option SystemFault :=
  match t.refused names with
  | some (first, fault) => if first.rank ≤ a.rank then some fault else none
  | none => none

/-- Check that an access is not refused. -/
def checkAccess (t : FileTree) (a : Access) (names : Names) : Except FileError Unit :=
  match t.refusal? a names with
  | some fault => .error (.refused fault)
  | none => .ok ()

/-- The names in a directory, ascending. -/
def children (t : FileTree) (names : Names) : List String :=
  t.entries.keys.filterMap fun below ↦
    if below.dropLast = names then below.getLast? else none

/-! ### Resolving paths -/

/-- Where a path leads. -/
inductive Place where
  /-- To an entry. -/
  | found (names : Names)
  /-- To a free name in a directory. -/
  | free (names : Names)
  deriving DecidableEq, Repr

/-- The names that a path leads to, there or free. -/
def Place.names : Place → Names
  | .found names | .free names => names

/-- The most links that one path may lead through. -/
def maxLinks : Nat := 40

/-- The most bytes of a name. -/
def maxName : Nat := 255

/-- The most bytes of a path. -/
def maxPath : Nat := 4095

/-- Check that a piece of a path can be looked up in an entry, which has to be a directory. There is
nothing to look up for an empty piece. -/
def checkPiece (t : FileTree) (here : Names) (piece : String) : Except FileError Unit :=
  if t.entry? here ≠ some .directory then .error .notADirectory
  else if piece = "" then .ok ()
  else t.checkAccess .enter here

/-- Resolve pieces from a directory or entry. A link at the end is followed if `follow` holds;
`through` resolves pieces after one link more. -/
def resolveWith (t : FileTree) (follow : Bool)
    (through : Names → List String → Except FileError Place) :
    Names → List String → Except FileError Place
  | here, [] => .ok (.found here)
  | here, piece :: rest =>
    match t.checkPiece here piece with
    | .error e => .error e
    | .ok () =>
      if piece = "" ∨ piece = "." then resolveWith t follow through here rest
      else if piece = ".." then resolveWith t follow through here.dropLast rest
      else if maxName < piece.utf8ByteSize then .error .nameTooLong
      else
        let next := here ++ [piece]
        match t.entry? next with
        | none => if rest = [] then .ok (.free next) else .error .notFound
        | some (.link target) =>
          if rest = [] ∧ !follow then .ok (.found next)
          else if target = "" then .error .notFound
          else through ((Path.mk target).origin here) ((Path.mk target).pieces ++ rest)
        | some _ => resolveWith t follow through next rest

/-- Resolve pieces through at most so many links. -/
def resolvePieces (t : FileTree) (follow : Bool) :
    Nat → Names → List String → Except FileError Place
  | 0 => t.resolveWith follow fun _ _ ↦ .error .tooManyLinks
  | links + 1 => t.resolveWith follow (resolvePieces t follow links)

/-- Check that a path is one that the system looks up. -/
def checkPath (p : Path) : Except FileError Unit :=
  if p.text.toList.contains '\x00' then .error .nulInName
  else if p.text = "" then .error .notFound
  else if maxPath < p.text.utf8ByteSize then .error .nameTooLong
  else .ok ()

/-- The directory from which a path leads. -/
def origin (t : FileTree) (p : Path) : Names :=
  p.origin t.working

/-- Where a path leads. -/
def resolve (t : FileTree) (follow : Bool) (p : Path) : Except FileError Place := do
  checkPath p
  t.resolvePieces follow maxLinks (t.origin p) p.pieces

/-- The names of the entry that a path leads to. -/
def locate (t : FileTree) (follow : Bool) (p : Path) : Except FileError Names := do
  match ← t.resolve follow p with
  | .found names => .ok names
  | .free _ => .error .notFound

/-- The entry that a path leads to through all links. -/
def lookup (t : FileTree) (p : Path) : Except FileError Entry := do
  let names ← t.locate true p
  match t.entry? names with
  | some e => .ok e
  | none => .error .notFound

/-- Whether a path leads to an entry. -/
def pathExists (t : FileTree) (p : Path) : Bool :=
  match t.lookup p with
  | .ok _ => true
  | .error _ => false

/-- Whether a path leads to a directory. -/
def isDirectory (t : FileTree) (p : Path) : Bool :=
  match t.lookup p with
  | .ok .directory => true
  | _ => false

/-- Whether a path leads to a file. -/
def isFile (t : FileTree) (p : Path) : Bool :=
  match t.lookup p with
  | .ok (.file _) => true
  | _ => false

/-! ### Reading and writing -/

/-- The names of a directory that may be listed. -/
def openDirectory (t : FileTree) (p : Path) : Except FileError Names := do
  let names ← t.locate true p
  if t.entry? names = some .directory then
    t.checkAccess .read names
    .ok names
  else .error .notADirectory

/-- The bytes of a file. -/
def readBytes (t : FileTree) (p : Path) : Except FileError ByteArray := do
  let names ← t.locate true p
  t.checkAccess .read names
  match t.entry? names with
  | some (.file content) => .ok content
  | _ => .error .isADirectory

/-- The text of a file. -/
def readText (t : FileTree) (p : Path) : Except FileError String := do
  match Text.decode? (← t.readBytes p) with
  | some text => .ok text
  | none => .error .notUtf8

/-- The pieces before the last one, and the last one, slashes at the end apart. -/
def splitLast (p : Path) : List String × String :=
  let kept := (p.pieces.reverse.dropWhile (· == "")).reverse
  (kept.dropLast, kept.getLast?.getD "")

/-- Check that the pieces before the last one of a path lead to a directory that may be entered. -/
def checkAbove (t : FileTree) (p : Path) : Except FileError Names := do
  let above := (splitLast p).1
  match ← t.resolvePieces true maxLinks (t.origin p) above with
  | .found names =>
    if t.entry? names = some .directory then
      t.checkAccess .enter names
      .ok names
    else .error .notADirectory
  | .free _ => .error .notFound

/-- Whether the last piece of a path cannot be the name of a file. -/
def endsAsDirectory (p : Path) : Bool :=
  match p.pieces.getLast? with
  | some piece => piece == "" || piece == "." || piece == ".."
  | none => true

/-- Write a file, making it or replacing its bytes. Its directory must exist. -/
def write (t : FileTree) (p : Path) (content : ByteArray) : Except FileError FileTree := do
  checkPath p
  if endsAsDirectory p then
    let _ ← t.checkAbove p
    .error .isADirectory
  else
    let names := (← t.resolve true p).names
    match t.entry? names with
    | some .directory | some (.link _) => .error .isADirectory
    | _ =>
      t.checkAccess .write names
      .ok (t.insert names (.file content))

/-- Make a directory. The directory above it must exist, and its name must be free. -/
def makeDirectory (t : FileTree) (p : Path) : Except FileError FileTree := do
  checkPath p
  let above ← t.checkAbove p
  let last := (splitLast p).2
  let names := above ++ [last]
  if last = "." ∨ last = ".." ∨ last = "" then .error .alreadyExists
  else if maxName < last.utf8ByteSize then .error .nameTooLong
  else if (t.entry? names).isSome then .error .alreadyExists
  else
    t.checkAccess .write names
    .ok (t.insert names .directory)

/-- Make a link. Its directory must exist, and its name must be free. -/
def makeLink (t : FileTree) (p : Path) (target : String) : Except FileError FileTree := do
  checkPath p
  let names := (← t.checkAbove p) ++ [(splitLast p).2]
  if (t.entry? names).isSome then .error .alreadyExists
  else
    t.checkAccess .write names
    .ok (t.insert names (.link target))

/-- Remove the entry that a path leads to, a link itself being removed. -/
def remove (t : FileTree) (p : Path) : Except FileError FileTree := do
  let names ← t.locate false p
  t.checkAccess .write names
  .ok (t.erase names)

/-- Make a directory and those above it that are missing; one that exists is left as it is. Each
attempt that finds no directory to stand in makes that one first. The tree is returned with the
error, if there is one, for directories made before it stay. -/
def makeDirectoriesFrom (t : FileTree) (p : Path) : Nat → FileTree × Option FileError
  | 0 => (t, some .notFound)
  | fuel + 1 =>
    if p.text = "" then (t, none)
    else
      match t.makeDirectory p with
      | .ok t => (t, none)
      | .error .notFound =>
        match p.parent? with
        | none => (t, some .notFound)
        | some above =>
          match t.makeDirectoriesFrom above fuel with
          | (t, some e) => (t, some e)
          | (t, none) =>
            match t.makeDirectory p with
            | .ok t => (t, none)
            | .error e => (t, if t.isDirectory p then none else some e)
      | .error e => (t, if t.isDirectory p then none else some e)

/-- Make a directory and those above it that are missing. -/
def makeDirectories (t : FileTree) (p : Path) : FileTree × Option FileError :=
  t.makeDirectoriesFrom p (p.pieces.length + 1)

/-- The path of names, which leads from the working directory to what is in it. -/
def pathOf (t : FileTree) (names : Names) : String :=
  if t.working.isPrefixOf names then "/".intercalate (names.drop t.working.length)
  else "/" ++ "/".intercalate names

/-- The regular files, by their paths. -/
def files (t : FileTree) : List (String × ByteArray) :=
  t.entries.entries.filterMap fun (names, e) ↦
    match e with
    | .file content => some (t.pathOf names, content)
    | _ => none

end FileTree

end KeyHarvest
