import KeyHarvest.Extraction
import KeyHarvest.Files.Glob.Expand
import KeyHarvest.Files.Walk

/-!
# Source files

Scanning finds the source files of a project: everything below the included paths that no ignored
path or pattern covers and that has one of the extensions. Collecting reads them and extracts their
keys; where two files give one key different default texts, the later file wins.
-/

namespace KeyHarvest

/-- What to scan below a base directory. -/
structure ScanOptions where
  /-- Paths or patterns of what to scan; none mean the base directory. -/
  includes : List String
  /-- Paths or patterns of what to leave out. -/
  ignores : List String
  /-- The extensions of source files, without their dots. -/
  extensions : List String
  deriving DecidableEq, Repr

/-- What a scan passes over. -/
inductive ScanWarning where
  /-- An ignored pattern that is none. -/
  | badIgnore (pattern : String) (e : Glob.PatternError)
  /-- An included pattern that is none. -/
  | badInclude (pattern : String) (e : Glob.PatternError)
  /-- An included path that leads nowhere. -/
  | missingInclude (path : Path)
  /-- A path that cannot be walked. -/
  | inaccessible (e : FileTree.WalkError)
  deriving DecidableEq, Repr

/-- The words of a warning. -/
def ScanWarning.message : ScanWarning → String
  | .badIgnore pattern e => "Invalid ignore pattern '" ++ pattern ++ "': " ++ e.message
  | .badInclude pattern e => "Invalid glob pattern '" ++ pattern ++ "': " ++ e.message
  | .missingInclude path => "Include path does not exist: " ++ path.text
  | .inaccessible e => "Cannot access path: " ++ e.message

/-- The outcome of a scan. -/
structure ScanResult where
  /-- The source files, in the order of their components. -/
  files : List Path
  /-- The number of paths that could not be walked. -/
  skipped : Nat
  /-- What was passed over. -/
  warnings : List ScanWarning
  deriving DecidableEq, Repr

namespace ScanOptions

/-- The ignored patterns that can be read. -/
def ignoredGlobs (options : ScanOptions) : List Glob :=
  (options.ignores.filter Glob.hasWildcard).filterMap fun text ↦ (Glob.parse text).toOption

/-- The ignored paths. -/
def ignoredPaths (options : ScanOptions) (base : Path) : List Path :=
  (options.ignores.filter fun text ↦ !Glob.hasWildcard text).map fun text ↦ base.join ⟨text⟩

/-- The warnings about ignored patterns. -/
def ignoreWarnings (options : ScanOptions) : List ScanWarning :=
  (options.ignores.filter Glob.hasWildcard).filterMap fun text ↦
    match Glob.parse text with
    | .ok _ => none
    | .error e => some (.badIgnore text e)

/-- The paths that an included entry gives, or the warning that it gives none. -/
def includedBy (t : FileTree) (base : Path) (text : String) : Except ScanWarning (List Path) :=
  let path := base.join ⟨text⟩
  if Glob.hasWildcard text then
    match Glob.expand t path with
    | .ok paths => .ok paths
    | .error e => .error (.badInclude text e)
  else if t.pathExists path then .ok [path]
  else .error (.missingInclude path)

/-- Where to scan, and the warnings about included entries. -/
def roots (options : ScanOptions) (t : FileTree) (base : Path) : List Path × List ScanWarning :=
  if options.includes.isEmpty then ([base], [])
  else
    let found := options.includes.map (includedBy t base)
    (found.flatMap fun r ↦ r.toOption.getD [],
      found.filterMap fun
        | .ok _ => none
        | .error w => some w)

/-- Whether a path is ignored: it is one of the ignored paths or below one, or its text matches one
of the ignored patterns. -/
def ignored (paths : List Path) (globs : List Glob) (p : Path) : Bool :=
  paths.any p.startsWith || globs.any (·.accepts p.text)

/-- The text with its ASCII letters in lower case. -/
def asciiLower (s : String) : List Char :=
  s.toList.map Char.toLower

/-- Whether the extension of a path is one of some, case not counting among ASCII letters. -/
def hasExtension (extensions : List String) (p : Path) : Bool :=
  match p.extension? with
  | none => false
  | some e => extensions.any fun allowed ↦ asciiLower allowed == asciiLower e

/-- Paths in the order of their components; of paths with the same ones the first stays. -/
def sortPaths (paths : List Path) : List Path :=
  (paths.foldl (fun (sorted : KeyMap (List String) Path) p ↦
    if sorted.contains p.sortKey then sorted else sorted.insert p.sortKey p) .empty).values

end ScanOptions

open ScanOptions in
/-- Find the source files below a base directory. -/
def FileTree.scan (t : FileTree) (base : Path) (options : ScanOptions) : ScanResult :=
  let (roots, includeWarnings) := options.roots t base
  let walked := roots.flatMap t.walk
  let paths := walked.filterMap Except.toOption
  let failures := walked.filterMap fun
    | .ok _ => none
    | .error e => some (ScanWarning.inaccessible e)
  let ignoredPaths := options.ignoredPaths base
  let ignoredGlobs := options.ignoredGlobs
  let kept := paths.filter fun p ↦
    !ignored ignoredPaths ignoredGlobs p && t.isFile p && hasExtension options.extensions p
  { files := sortPaths kept
    skipped := failures.length
    warnings := options.ignoreWarnings ++ includeWarnings ++ failures }

/-- A source file that cannot be read. -/
structure Unreadable where
  /-- Its path. -/
  path : Path
  /-- Why it cannot be read. -/
  reason : String
  deriving DecidableEq, Repr

/-- The keys of a list of source files. -/
structure Harvest where
  /-- The keys. -/
  keys : Extracted
  /-- The number of files read. -/
  filesRead : Nat
  /-- The number of matches in them. -/
  matchCount : Nat
  /-- The files that cannot be read. -/
  unreadable : List Unreadable

namespace Harvest

/-- The harvest of no files. -/
def empty : Harvest := ⟨.empty, 0, 0, []⟩

/-- Add the keys of one file, found on their own, to those of the files before it. -/
def addFile (catalog : Catalog) (t : FileTree) (h : Harvest) (p : Path) : Harvest :=
  match t.readBytes p with
  | .error e => { h with unreadable := h.unreadable ++ [⟨p, e.message⟩] }
  | .ok bytes =>
    let (keys, count) := catalog.extractInto (Text.decodeLossy bytes) .empty
    { h with
      keys := keys.entries.foldl (fun all e ↦ all.insert e.1 e.2) h.keys
      filesRead := h.filesRead + 1
      matchCount := h.matchCount + count }

end Harvest

/-- Extract the keys of source files, in the order given. -/
def Catalog.harvest (catalog : Catalog) (t : FileTree) (files : List Path) : Harvest :=
  files.foldl (Harvest.addFile catalog t) .empty

end KeyHarvest
