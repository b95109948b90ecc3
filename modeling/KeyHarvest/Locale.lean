import KeyHarvest.Dictionary.Reconcile
import KeyHarvest.Dictionary.Store

/-!
# Updating a locale

The stored dictionary of a locale is loaded, reconciled with the extracted keys, and written back if
its text would change. A dry run finds the same outcome and writes nothing.
-/

namespace KeyHarvest

/-- Where the dictionary of a locale is stored and how it is reconciled. -/
structure LocaleTarget where
  /-- The directory of the locale files. -/
  dest : Path
  /-- What file names begin with. -/
  front : String
  /-- What file names end with. -/
  back : String
  /-- The locale. -/
  locale : String
  /-- How the dictionary is reconciled. -/
  options : MergeOptions
  deriving DecidableEq, Repr

/-- The path of the file of a locale. -/
def LocaleTarget.path (target : LocaleTarget) : Path :=
  Dictionary.storePath target.dest target.front target.locale target.back

/-- What became of a locale. -/
structure LocaleOutcome where
  /-- The locale. -/
  locale : String
  /-- The path of its file. -/
  path : Path
  /-- How its dictionary was found. -/
  status : StoreStatus
  /-- What changed. -/
  stats : Stats
  /-- The keys that a namespaced dictionary leaves out. -/
  shadowed : List String
  /-- Whether the text of the dictionary differs from that of the file. -/
  changed : Bool
  /-- Whether the file was written. -/
  written : Bool
  deriving DecidableEq, Repr

namespace LocaleTarget

/-- The dictionary that a locale is to have. -/
def reconciled (target : LocaleTarget) (t : FileTree) (keys : Extracted) : Reconciled :=
  Dictionary.reconcile keys (Dictionary.load t target.path).dictionary target.options

/-- What becomes of a locale, without writing its file. -/
def outcome (target : LocaleTarget) (t : FileTree) (keys : Extracted) (dryRun : Bool) :
    LocaleOutcome :=
  let loaded := Dictionary.load t target.path
  let result := target.reconciled t keys
  let changed :=
    match t.readText target.path with
    | .ok text => text != result.dictionary.render
    | .error _ => true
  { locale := target.locale
    path := target.path
    status := loaded.status
    stats := result.stats
    shadowed := result.shadowed
    changed
    written := changed && !dryRun }

/-- Update the dictionary of a locale. The tree is returned also when saving fails. -/
def update (target : LocaleTarget) (t : FileTree) (keys : Extracted) (dryRun : Bool) :
    FileTree × Except SaveError LocaleOutcome :=
  let outcome := target.outcome t keys dryRun
  if outcome.written then
    match Dictionary.save t target.path (target.reconciled t keys).dictionary with
    | (t, none) => (t, .ok outcome)
    | (t, some e) => (t, .error e)
  else (t, .ok outcome)

end LocaleTarget

end KeyHarvest
