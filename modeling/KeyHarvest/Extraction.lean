import KeyHarvest.Catalog.Basic
import KeyHarvest.Plural.Message

/-!
# Extraction

The patterns of a catalog are applied to a text one after the other. Each match gives a trimmed key
and its default text, which is empty but for the plural patterns; a match whose key is blank is
passed over. Of several matches of one key the last decides the default text.
-/

namespace KeyHarvest

/-- Keys with their default texts. -/
abbrev Extracted := KeyMap String String

/-- A key found in a text. -/
structure KeyMatch where
  /-- The name of the pattern that found it. -/
  pattern : String
  /-- The key. -/
  key : String
  /-- Its default text. -/
  defaultText : String
  deriving DecidableEq, Repr

namespace Catalog

/-- The default text that a match gives its key. -/
def Pattern.defaultText (p : Pattern) (m : Match) : String :=
  match p.kind.literalGroup? with
  | none => ""
  | some i => Plural.defaultText (String.ofList (m.group i))

/-- The key that a match gives, unless it is blank. -/
def Pattern.keyMatch? (p : Pattern) (m : Match) : Option KeyMatch :=
  let key := Text.trim (m.group p.kind.keyGroup)
  if key.isEmpty then none
  else some ⟨p.name, String.ofList (p.unescape.apply key), p.defaultText m⟩

/-- The keys that a pattern finds in a text, in order. -/
def Pattern.keyMatches (p : Pattern) (content : List Char) : List KeyMatch :=
  (p.regex.allMatches content).filterMap p.keyMatch?

/-- The keys that a catalog finds in a text, pattern by pattern. -/
def keyMatches (catalog : Catalog) (content : String) : List KeyMatch :=
  catalog.patterns.flatMap (·.keyMatches content.toList)

end Catalog

/-- Record found keys one after the other. -/
def Extracted.record (keys : Extracted) (found : List KeyMatch) : Extracted :=
  found.foldl (fun keys m ↦ keys.insert m.key m.defaultText) keys

/-- Record the keys of a text, and say how many matches there were. -/
def Catalog.extractInto (catalog : Catalog) (content : String) (keys : Extracted) :
    Extracted × Nat :=
  let found := catalog.keyMatches content
  (keys.record found, found.length)

/-- The keys of a text. -/
def Catalog.extract (catalog : Catalog) (content : String) : Extracted :=
  (catalog.extractInto content .empty).1

end KeyHarvest
