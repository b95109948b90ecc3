import KeyHarvest.Files.Glob
import KeyHarvest.Files.Tree

/-!
# Expanding glob patterns

A glob pattern is expanded to the paths of a file tree that it matches, piece by piece: a piece
without wildcards is looked up by name, any other is matched against the names in the directory,
ascending. A piece of two stars matches any number of directories, links among them; at the end of
a pattern it gives the directories themselves. Dot and two dots match only a piece that begins with
a dot. A slash at the end asks for directories. A directory that cannot be listed has no matches.

An absolute pattern is expanded from the root, any other from the working directory. A leading `./`
does not show in the results.
-/

namespace KeyHarvest.Glob

/-- The pieces of a pattern, no piece following a slash at the end. -/
def patternPieces (text : List Char) : List String :=
  let pieces := (text.splitOn '/').map String.ofList
  if pieces.getLast? = some "" then pieces.dropLast else pieces

/-- Whether a path is the current directory. -/
def isCurrent (p : Path) : Bool :=
  p.sameAs ⟨"."⟩

/-- The path of an entry of a directory, the current directory not being named. -/
def below (p : Path) (name : String) : Path :=
  if isCurrent p then ⟨name⟩ else p.child name

/-- Whether a path leads to an entry, a link without a target included. -/
def leads (t : FileTree) (p : Path) : Bool :=
  t.pathExists p || (t.locate false p).toOption.isSome

/-- The dot entries that a piece matches, in the order of the results. -/
def dotEntries (g : Glob) : List String :=
  if g.tokens.head? = some (.char '.') then ["..", "."].filter g.accepts else []

mutual

/-- The matches of pieces within a path. -/
def enter (t : FileTree) (directories : Bool) : Nat → List Glob → Path → List Path
  | 0, _, _ => []
  | _, [], _ => []
  | fuel + 1, g :: rest, p =>
    match g.literal? with
    | some name =>
      let next := below p name
      let there := if name = "." ∨ name = ".." then t.isDirectory p else leads t next
      if there then settle t directories fuel rest next else []
    | none =>
      match t.openDirectory p with
      | .ok names =>
        (dotEntries g).flatMap (fun dots ↦ settle t directories fuel rest (p.child dots)) ++
          (t.children names).flatMap fun name ↦
            visit t directories fuel (g :: rest) (below p name)
      | .error _ => []

/-- The matches of the remaining pieces from a path that matches the pieces before them. -/
def settle (t : FileTree) (directories : Bool) : Nat → List Glob → Path → List Path
  | 0, _, _ => []
  | _, [], p => if !directories || t.isDirectory p then [p] else []
  | fuel + 1, rest, p => enter t directories fuel rest p

/-- The matches of pieces among a path, whose name the first piece is to match, and what is
below. -/
def visit (t : FileTree) (directories : Bool) : Nat → List Glob → Path → List Path
  | 0, _, _ => []
  | _, [], _ => []
  | fuel + 1, g :: rest, p =>
    if g.isRecursive then
      match rest.dropWhile isRecursive with
      | [] => if t.isDirectory p then p :: enter t directories fuel [g] p else []
      | next =>
        matchName t directories fuel next p ++
          (if t.isDirectory p then enter t directories fuel (g :: next) p else [])
    else matchName t directories fuel (g :: rest) p

/-- The matches of pieces from a path whose name the first piece is to match. -/
def matchName (t : FileTree) (directories : Bool) : Nat → List Glob → Path → List Path
  | 0, _, _ => []
  | _, [], _ => []
  | fuel + 1, g :: rest, p =>
    if p.fileName?.any g.accepts then settle t directories fuel rest p else []

end

/-- A bound on the steps from one directory into the next that an expansion can take. -/
def maxSteps (t : FileTree) (pieces : Nat) : Nat :=
  200 * (t.entries.size + pieces + 2)

/-- The paths that a pattern matches. -/
def expand (t : FileTree) (pattern : Path) : Except PatternError (List Path) := do
  let _ ← parse pattern.text
  let cs := pattern.text.toList
  let relative := if pattern.isAbsolute then cs.drop 1 else cs
  let globs ← (patternPieces relative).mapM parse
  let start : Path := if pattern.isAbsolute then ⟨"/"⟩ else ⟨"."⟩
  .ok (enter t (cs.getLast? == some '/') (maxSteps t globs.length) globs start)

end KeyHarvest.Glob
