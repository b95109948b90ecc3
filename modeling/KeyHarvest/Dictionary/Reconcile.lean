import KeyHarvest.Dictionary.Flatten
import KeyHarvest.Dictionary.Nest
import KeyHarvest.Dictionary.Stats
import KeyHarvest.Json.Printer

/-!
# Reconciliation

The extracted keys are reconciled with the dictionary that a locale had before. A flat result has
the full keys, in key order; a namespaced one is nested by their segments. In both a value that the
dictionary had wins over a default text, and the empty text then gives way to what the locale
prescribes for it. Null stays null.
-/

namespace KeyHarvest

/-- How a locale is reconciled. -/
structure MergeOptions where
  /-- An empty entry shows its own key. -/
  isDefaultLocale : Bool := false
  /-- A flat result keeps keys that were not extracted. -/
  safeMode : Bool := false
  /-- An empty entry of another locale is null. -/
  nullOnEmpty : Bool := false
  /-- Keys are nested by their segments. -/
  namespaced : Bool := false
  deriving DecidableEq, Repr

/-- What takes the place of an empty text. -/
def MergeOptions.emptyValue (options : MergeOptions) (key : String) : Json :=
  if options.isDefaultLocale then .string key
  else if options.nullOnEmpty then .null
  else .string ""

/-- A value, or what takes its place if it is the empty text. -/
def MergeOptions.settle (options : MergeOptions) (key : String) (value : Json) : Json :=
  if value.isBlank then options.emptyValue key else value

/-- The outcome of a reconciliation. -/
structure Reconciled where
  /-- The dictionary to keep. -/
  dictionary : Dictionary
  /-- What changed. -/
  stats : Stats
  /-- The keys that a namespaced result leaves out. -/
  shadowed : List String
  deriving DecidableEq, Repr

namespace Dictionary

/-- The value of an extracted key before empty texts are replaced. -/
def carriedOver (persisted : KeyMap String Json) (key defaultText : String) : Json :=
  (persisted.get? key).getD (.string defaultText)

/-- Count an extracted key of a flat result, and its value if that is empty. -/
def countMerged (persisted : KeyMap String Json) (stats : Stats) (e : String × String) : Stats :=
  let stats :=
    match persisted.get? e.1 with
    | some _ => { stats with updated := stats.updated + 1 }
    | none => { stats with new := stats.new + 1 }
  if (carriedOver persisted e.1 e.2).isEmptyEntry then { stats with empty := stats.empty + 1 }
  else stats

/-- Count a key that the dictionary had, unless it was extracted. -/
def countDropped (keys : Extracted) (stats : Stats) (key : String) : Stats :=
  if keys.contains key then stats else { stats with deleted := stats.deleted + 1 }

/-- The counters of a flat result, counted while it is put together. -/
def statsFlat (keys : Extracted) (persisted : KeyMap String Json) : Stats :=
  persisted.keys.foldl (countDropped keys)
    (keys.entries.foldl (countMerged persisted) { total := keys.size })

/-- The reconciliation with full keys. -/
def reconcileFlat (keys : Extracted) (d : Dictionary) (options : MergeOptions) : Reconciled :=
  let persisted := d.flatten
  let carried := keys.entries.map fun (k, text) ↦ (k, carriedOver persisted k text)
  let settled := carried.map fun (k, v) ↦ (k, options.settle k v)
  let kept := if options.safeMode then persisted.entries.filter fun e ↦ !keys.contains e.1 else []
  { dictionary := Json.sortMembers (settled ++ kept)
    stats := statsFlat keys persisted
    shadowed := [] }

/-- A value that is no object. -/
def leaf? (value : Option Json) : Option Json :=
  value.filter fun v ↦ !v.isObject

/-- The leaf at a path, else the one whose key is the text of the path. -/
def lookupLeaf (d : Dictionary) (path : List String) : Option Json :=
  (leaf? (d.getAt? path)).or (leaf? (d.get? (dotted path)))

mutual

/-- A value of the template with its leaves taken from a dictionary, empty where it has none. -/
def overlayValue (d : Dictionary) (path : List String) : Json → Json
  | .object members => .object (overlayMembers d path members)
  | .null | .bool _ | .number _ | .string _ | .array _ => (d.lookupLeaf path).getD (.string "")

/-- Members of the template with their leaves taken from a dictionary. -/
def overlayMembers (d : Dictionary) (path : List String) :
    List (String × Json) → List (String × Json)
  | [] => []
  | (key, value) :: rest =>
    (key, overlayValue d (path ++ [key]) value) :: overlayMembers d path rest

end

/-- Count an extracted key by whether the dictionary had it. -/
def countExtracted (persisted : KeyMap String Json) (stats : Stats) (key : String) : Stats :=
  if persisted.contains key then { stats with updated := stats.updated + 1 }
  else { stats with new := stats.new + 1 }

/-- The counters of a namespaced result, the empty entries being those of the leaves overlaid. -/
def statsNested (keys : Extracted) (persisted overlaid : KeyMap String Json) : Stats :=
  { keys.keys.foldl (countExtracted persisted) { total := keys.size } with
    deleted := (persisted.keys.filter fun k ↦ !keys.contains k).length
    empty := (overlaid.values.filter Json.isEmptyEntry).length }

/-- The reconciliation with nested keys. -/
def reconcileNested (keys : Extracted) (d : Dictionary) (options : MergeOptions) : Reconciled :=
  let overlaid := overlayMembers d [] keys.nest
  { dictionary := fillEmpty overlaid options.emptyValue
    stats := statsNested keys d.flatten (flatten overlaid)
    shadowed := keys.shadowed }

/-- Reconcile extracted keys with the dictionary of a locale; a missing dictionary is the empty
one. -/
def reconcile (keys : Extracted) (d : Dictionary) (options : MergeOptions) : Reconciled :=
  if options.namespaced then reconcileNested keys d options else reconcileFlat keys d options

end Dictionary

end KeyHarvest
