import KeyHarvest.Catalog.Builtin
import KeyHarvest.Catalog.Written
import KeyHarvest.KeyMap
import KeyHarvest.Regex.Reader

/-!
# Pattern catalogs

A catalog lists the patterns of a run: the built-in ones, then the custom ones in the order of
their names. A custom pattern is called `others_` and its name, and its first group holds the key.

The engine may refuse any pattern for its size. A built-in one that it accepts is what its source is
read to, whatever the engine.
-/

namespace KeyHarvest

namespace Catalog

/-- What shapes a catalog. -/
structure Options where
  /-- The text that opens an interpolation. -/
  startDelimiter : String := "\x7b\x7b"
  /-- The text that closes an interpolation. -/
  endDelimiter : String := "\x7d\x7d"
  /-- The name of the filter and of the directive. -/
  filterName : String := "translate"
  /-- Further patterns by name. -/
  customPatterns : KeyMap String String := .empty

/-- The side of a delimiter. -/
inductive Side where
  | start
  | stop
  deriving DecidableEq, Repr

/-- The word for a side. -/
def Side.word : Side → String
  | .start => "start"
  | .stop => "end"

/-- Why there is no catalog. -/
inductive BuildError where
  /-- A delimiter without text. -/
  | emptyDelimiter (side : Side)
  /-- A pattern that is not compiled, and what the engine says about it. -/
  | invalidPattern (name : String) {complaint : String}
  /-- A pattern without a group for the key. -/
  | missingKeyGroup (name : String)
  deriving DecidableEq, Repr

/-- The words of an error. -/
def BuildError.message : BuildError → String
  | .emptyDelimiter side => side.word ++ " delimiter must not be empty"
  | @invalidPattern name complaint => "invalid pattern '" ++ name ++ "': " ++ complaint
  | .missingKeyGroup name => "pattern '" ++ name ++ "' must capture the key in group 1"

/-- What the name of a custom pattern begins with. -/
def customNameStart : String := "others_"

/-- The built-in patterns, unless one of them is not compiled. -/
def builtinPatterns (engine : Regex.Engine) (start stop filter : String) :
    Except BuildError (List Pattern) :=
  match (Written.sources start stop filter).find? fun source ↦ !engine.fits source.text with
  | some source => .error (@BuildError.invalidPattern source.name (engine.complaint source.text))
  | none => .ok (Builtin.patterns start stop filter)

/-- The built-in patterns are there where each of their sources is within the limit. -/
theorem builtinPatterns_eq_ok_iff {engine : Regex.Engine} {start stop filter : String}
    {patterns : List Pattern} :
    builtinPatterns engine start stop filter = .ok patterns ↔
      (∀ source ∈ Written.sources start stop filter, engine.fits source.text) ∧
        Builtin.patterns start stop filter = patterns := by
  have hfits : (∀ source ∈ Written.sources start stop filter, engine.fits source.text) ↔
      (Written.sources start stop filter).find? (fun source ↦ !engine.fits source.text) = none := by
    simp [List.find?_eq_none]
  rw [hfits, builtinPatterns]
  cases (Written.sources start stop filter).find? fun source ↦ !engine.fits source.text <;> simp

/-- The pattern that a name and the text of a regular expression define. -/
def customPattern (engine : Regex.Engine) (name source : String) : Except BuildError Pattern :=
  let name := customNameStart ++ name
  match engine.compile? source with
  | none => .error (@BuildError.invalidPattern name (engine.complaint source))
  | some regex =>
    if regex.maxGroup = 0 then .error (.missingKeyGroup name)
    else .ok ⟨name, .plain, .verbatim, regex⟩

end Catalog

/-- The patterns of a run, in order. -/
structure Catalog where
  /-- The patterns, in order. -/
  patterns : List Catalog.Pattern

namespace Catalog

/-- The catalog that options describe, its patterns being compiled by an engine. -/
def ofOptions (options : Options) (engine : Regex.Engine := .standard) :
    Except BuildError Catalog := do
  if options.startDelimiter = "" then .error (.emptyDelimiter .start)
  if options.endDelimiter = "" then .error (.emptyDelimiter .stop)
  let builtin ←
    builtinPatterns engine options.startDelimiter options.endDelimiter options.filterName
  let custom ← options.customPatterns.entries.mapM fun (name, source) ↦
    customPattern engine name source
  .ok ⟨builtin ++ custom⟩

/-- The pattern of a name. -/
def get? (catalog : Catalog) (name : String) : Option Pattern :=
  catalog.patterns.find? (·.name == name)

/-- The number of patterns. -/
def size (catalog : Catalog) : Nat :=
  catalog.patterns.length

end Catalog

end KeyHarvest
