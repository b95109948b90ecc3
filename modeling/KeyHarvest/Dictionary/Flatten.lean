import KeyHarvest.Dictionary.Path
import KeyHarvest.KeyMap

/-!
# Leaves

The leaves of a dictionary are its values that are no objects, each with the text of its path.
Flattening lists them in key order; of leaves with one text the last in the document stays.

Filling replaces every empty text among the leaves and leaves all else as it is.
-/

namespace KeyHarvest

namespace Json

/-- Whether a value is the empty text. -/
def isBlank : Json → Bool
  | .string s => s == ""
  | _ => false

/-- Whether a value counts as untranslated: the empty text or null. -/
def isEmptyEntry : Json → Bool
  | .null => true
  | .string s => s == ""
  | _ => false

mutual

/-- The leaves of a value, in document order, `path` being the text of its path. -/
def leaves (path : String) : Json → List (String × Json)
  | .object members => memberLeaves path members
  | .null => [(path, .null)]
  | .bool b => [(path, .bool b)]
  | .number n => [(path, .number n)]
  | .string s => [(path, .string s)]
  | .array items => [(path, .array items)]

/-- The leaves of the members of an object, `above` being the text of its path. -/
def memberLeaves (above : String) : List (String × Json) → List (String × Json)
  | [] => []
  | (key, value) :: rest => leaves (joinPath above key) value ++ memberLeaves above rest

end

mutual

/-- A value whose empty leaves are replaced by what their paths give. -/
def fillValue (fill : String → Json) (path : String) : Json → Json
  | .object members => .object (fillMembers fill path members)
  | .string s => if s = "" then fill path else .string s
  | .null => .null
  | .bool b => .bool b
  | .number n => .number n
  | .array items => .array items

/-- Members whose empty leaves are replaced by what their paths give. -/
def fillMembers (fill : String → Json) (above : String) :
    List (String × Json) → List (String × Json)
  | [] => []
  | (key, value) :: rest =>
    (key, fillValue fill (joinPath above key) value) :: fillMembers fill above rest

end

end Json

namespace Dictionary

/-- The leaves by the texts of their paths. -/
def flatten (d : Dictionary) : KeyMap String Json :=
  KeyMap.ofList (Json.memberLeaves "" d)

/-- Replace every empty leaf by what the text of its path gives. -/
def fillEmpty (d : Dictionary) (fill : String → Json) : Dictionary :=
  Json.fillMembers fill "" d

/-- Replace every empty leaf by the text of its path. -/
def fillWithPath (d : Dictionary) : Dictionary :=
  d.fillEmpty .string

/-- Replace every empty leaf by null. -/
def fillWithNull (d : Dictionary) : Dictionary :=
  d.fillEmpty fun _ ↦ .null

end Dictionary

end KeyHarvest
