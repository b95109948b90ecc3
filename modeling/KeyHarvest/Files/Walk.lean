import KeyHarvest.Files.Tree

/-!
# Walking a directory

A walk lists a path and everything below it. A link is followed only where the walk begins, so a
walk ends. A directory that cannot be listed is itself listed, with an error for what is in it.
-/

namespace KeyHarvest.FileTree

/-- What a walk cannot go through. -/
structure WalkError where
  /-- The path where it stops. -/
  path : Path
  /-- Why it stops there. -/
  cause : FileError
  deriving DecidableEq, Repr

/-- The words of an error. -/
def WalkError.message (e : WalkError) : String :=
  "IO error for operation on " ++ e.path.text ++ ": " ++ e.cause.message

/-- The paths of everything in a directory, at most so many levels down, with an error in place of
what is in a directory that cannot be listed. -/
def below (t : FileTree) (p : Path) : Nat → List (Except WalkError Path)
  | 0 => []
  | depth + 1 =>
    match t.openDirectory p with
    | .error cause => [.error ⟨p, cause⟩]
    | .ok names =>
      (t.children names).flatMap fun name ↦
        .ok (p.child name) ::
          (if t.entry? (names ++ [name]) = some .directory then t.below (p.child name) depth
            else [])

/-- The greatest number of names that lead to an entry. -/
def depth (t : FileTree) : Nat :=
  (t.entries.keys.map List.length).foldl max 0

/-- The paths of a walk and its errors: the path where it begins, then what is below. -/
def walk (t : FileTree) (root : Path) : List (Except WalkError Path) :=
  match t.locate false root with
  | .error cause => [.error ⟨root, cause⟩]
  | .ok names =>
    match t.entry? names with
    | some .directory => .ok root :: t.below root (t.depth + 1)
    | some (.link _) =>
      match t.locate true root with
      | .error cause => [.error ⟨root, cause⟩]
      | .ok target =>
        if t.entry? target = some .directory then .ok root :: t.below root (t.depth + 1)
        else [.ok root]
    | _ => [.ok root]

end KeyHarvest.FileTree
