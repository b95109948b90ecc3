import KeyHarvest.Catalog.Basic
import KeyHarvest.Dictionary.Reconcile
import KeyHarvest.Files.Glob
import KeyHarvest.Files.Path
import KeyHarvest.Json.Printer

/-!
# Settings

The settings of a project, their defaults, their form as JSON, and the checks that they must pass
before a run.
-/

namespace KeyHarvest

namespace Config

/-! ### Defaults -/

/-- The text that opens an interpolation, unless another is set. -/
def standardStart : String := "\x7b\x7b"

/-- The text that closes an interpolation, unless another is set. -/
def standardEnd : String := "\x7d\x7d"

/-- The default locale, unless another is set. -/
def standardLocale : String := "en-US"

/-- The name of the filter, unless another is set. -/
def standardFilterName : String := "translate"

/-- The directory of the sources, unless another is set. -/
def standardSourceRoot : String := "./"

/-- What is left out, unless other entries are set. -/
def standardIgnores : List String := ["**/node_modules/**"]

/-- The extensions of source files, unless others are set. -/
def standardExtensions : List String := ["html", "js", "ts"]

/-- The directory of the locale files, unless another is set. -/
def standardDest : String := "./i18n"

/-- What the names of locale files end with, unless another is set. -/
def standardSuffix : String := ".json"

end Config

/-- The settings of a project. -/
structure Config where
  /-- The text that opens an interpolation. -/
  startDelimiter : String := Config.standardStart
  /-- The text that closes an interpolation. -/
  endDelimiter : String := Config.standardEnd
  /-- The locale whose empty entries show their own keys. -/
  defaultLocale : String := Config.standardLocale
  /-- The locales to update. -/
  locales : List String := []
  /-- The name of the filter and of the directive. -/
  filterName : String := Config.standardFilterName
  /-- Further patterns by name. -/
  customPatterns : KeyMap String String := .empty
  /-- Whether flat dictionaries keep keys that were not extracted. -/
  safeMode : Bool := false
  /-- Whether empty entries of other locales are null. -/
  nullOnEmpty : Bool := false
  /-- Whether keys are nested by their segments. -/
  namespaced : Bool := false
  /-- The directory of the sources. -/
  sourceRoot : String := Config.standardSourceRoot
  /-- What to scan there. -/
  includes : List String := []
  /-- What to leave out. -/
  ignores : List String := Config.standardIgnores
  /-- The extensions of source files. -/
  extensions : List String := Config.standardExtensions
  /-- The directory of the locale files. -/
  dest : String := Config.standardDest
  /-- What the names of locale files begin with. -/
  front : String := ""
  /-- What the names of locale files end with. -/
  back : String := Config.standardSuffix

namespace Config

instance : Inhabited Config := ⟨{}⟩

/-- The name of the file that holds the settings of a project. -/
def fileName : String := ".ngxtractrc.json"

/-- A list of texts as JSON. -/
def textsJson (texts : List String) : Json :=
  .array (texts.map .string)

/-- Settings as JSON, each under its name. -/
def toJson (c : Config) : Json := .object [
  ("startDelimiter", .string c.startDelimiter),
  ("endDelimiter", .string c.endDelimiter),
  ("defaultLocale", .string c.defaultLocale),
  ("locales", textsJson c.locales),
  ("filterName", .string c.filterName),
  ("customPatterns", .object (c.customPatterns.entries.map fun (name, source) ↦
    (name, .string source))),
  ("safeMode", .bool c.safeMode),
  ("nullOnEmpty", .bool c.nullOnEmpty),
  ("namespace", .bool c.namespaced),
  ("sourceRoot", .string c.sourceRoot),
  ("includes", textsJson c.includes),
  ("ignores", textsJson c.ignores),
  ("extensions", textsJson c.extensions),
  ("dest", .string c.dest),
  ("prefix", .string c.front),
  ("suffix", .string c.back)]

/-- The text of settings. -/
def render (c : Config) : String :=
  c.toJson.pretty 2

/-- The settings that a new project starts with: the defaults, for the default locale. -/
def initial : Config :=
  let c : Config := {}
  { c with locales := [c.defaultLocale] }

/-- Why settings do not pass. -/
inductive Invalid where
  /-- There is no locale. -/
  | noLocales
  /-- A locale is blank. -/
  | blankLocale (locale : String)
  /-- A delimiter has no text. -/
  | emptyDelimiter (side : Catalog.Side)
  /-- An ignored entry is no pattern. -/
  | badIgnore (entry : String) (e : Glob.PatternError)
  /-- An included entry with a wildcard is no pattern. -/
  | badInclude (entry : String) (e : Glob.PatternError)
  deriving DecidableEq, Repr

/-- The words for what is wrong with settings. -/
def Invalid.message : Invalid → String
  | .noLocales => "No locales configured: set \"locales\" in " ++ fileName ++ " or pass --locale"
  | .blankLocale locale => "Invalid locale in 'locales': \"" ++ locale ++ "\""
  | .emptyDelimiter .start => "'startDelimiter' must not be empty"
  | .emptyDelimiter .stop => "'endDelimiter' must not be empty"
  | .badIgnore entry e =>
    "Invalid glob pattern in 'ignores': \"" ++ entry ++ "\": " ++ e.message
  | .badInclude entry e =>
    "Invalid glob pattern in 'includes': \"" ++ entry ++ "\": " ++ e.message

/-- The error of the first entry that is no pattern. -/
def firstBad (entries : List String) : Option (String × Glob.PatternError) :=
  entries.findSome? fun entry ↦
    match Glob.parse entry with
    | .ok _ => none
    | .error e => some (entry, e)

/-- What is wrong with settings, the first thing of all. -/
def invalid? (c : Config) : Option Invalid :=
  if c.locales.isEmpty then some .noLocales
  else
    match c.locales.find? fun l ↦ (Text.trim l.toList).isEmpty with
    | some l => some (.blankLocale l)
    | none =>
      if c.startDelimiter = "" then some (.emptyDelimiter .start)
      else if c.endDelimiter = "" then some (.emptyDelimiter .stop)
      else
        match firstBad c.ignores with
        | some (entry, e) => some (.badIgnore entry e)
        | none =>
          (firstBad (c.includes.filter Glob.hasWildcard)).map fun (entry, e) ↦ .badInclude entry e

/-- What the settings say about the catalog. -/
def catalogOptions (c : Config) : Catalog.Options :=
  ⟨c.startDelimiter, c.endDelimiter, c.filterName, c.customPatterns⟩

/-- What the settings say about the dictionary of a locale. -/
def mergeOptions (c : Config) (locale : String) : MergeOptions :=
  { isDefaultLocale := locale == c.defaultLocale
    safeMode := c.safeMode
    nullOnEmpty := c.nullOnEmpty
    namespaced := c.namespaced }

end Config

end KeyHarvest
