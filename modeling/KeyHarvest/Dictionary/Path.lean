import KeyHarvest.Json.Basic

/-!
# Paths into dictionaries

A dictionary is the members of a JSON object. A path is a list of keys that leads through nested
objects; its text joins the keys with dots. A key whose text splits at its dots into non-empty
segments names a path, any other key stays whole.

`insertAt` and `getAt?` write and read at a path.
-/

namespace KeyHarvest

/-- The translations of one locale, flat or nested. -/
abbrev Dictionary := Members

/-- The segments of a key, unless one of them is empty. -/
def segments? (key : String) : Option (List String) :=
  let parts := key.toList.splitOn '.'
  if parts.any List.isEmpty then none else some (parts.map String.ofList)

/-- The text of a path. -/
def dotted (path : List String) : String :=
  ".".intercalate path

/-- The text of a path one key longer; no text before it marks the root. -/
def joinPath (above key : String) : String :=
  if above = "" then key else above ++ "." ++ key

namespace Dictionary

/-- The members of a value that is to be an object; any other value gives way to an empty one. -/
def branch : Option Json → Members
  | some (.object members) => members
  | _ => []

/-- Put a value at a path, with objects on the way; the empty path changes nothing. -/
def insertAt (d : Dictionary) : List String → Json → Dictionary
  | [], _ => d
  | [key], value => d.set key value
  | key :: rest, value => d.set key (.object (insertAt (branch (d.get? key)) rest value))

/-- The value at a path; nothing is at the empty path. -/
def getAt? (d : Dictionary) : List String → Option Json
  | [] => none
  | [key] => d.get? key
  | key :: rest =>
    match d.get? key with
    | some (.object members) => getAt? members rest
    | _ => none

end Dictionary

end KeyHarvest
