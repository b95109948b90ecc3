import KeyHarvest.Dictionary.Path
import KeyHarvest.Extraction

/-!
# Nesting keys

Extracted keys are nested by their segments: `HOME.TITLE` becomes `TITLE` inside `HOME`. A key with
an empty segment stays whole. A key that other keys nest under is shadowed: an object cannot hold
both, so it is left out and reported.
-/

namespace KeyHarvest

/-- The non-empty beginnings of a list, the list itself left out. -/
def properPrefixes {α : Type} : List α → List (List α)
  | [] | [_] => []
  | a :: rest => [a] :: (properPrefixes rest).map (a :: ·)

namespace Extracted

/-- The texts of the paths that hold further keys. -/
def branches (keys : Extracted) : List String :=
  (keys.keys.filterMap segments?).flatMap fun path ↦ (properPrefixes path).map dotted

/-- Whether other keys nest under a key. -/
def isShadowed (branches : List String) (key : String) : Bool :=
  (segments? key).isSome && branches.contains key

/-- The keys that others nest under, in key order. -/
def shadowed (keys : Extracted) : List String :=
  let branches := keys.branches
  keys.keys.filter (isShadowed branches)

/-- The path at which a key is stored. -/
def pathOf (key : String) : List String :=
  (segments? key).getD [key]

/-- The keys nested by their segments, the shadowed ones left out, with their default texts. -/
def nest (keys : Extracted) : Dictionary :=
  let branches := keys.branches
  (keys.entries.filter fun e ↦ !isShadowed branches e.1).foldl
    (fun tree e ↦ tree.insertAt (pathOf e.1) (.string e.2)) []

end Extracted

end KeyHarvest
