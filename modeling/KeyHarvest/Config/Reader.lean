import KeyHarvest.Config.Basic
import KeyHarvest.Json.Skip

/-!
# Reading settings

Settings are read straight from their text, so that a value of the wrong kind is reported with its
place. They are an object, whose members are recognised by name and may be missing, or an array,
whose elements are the settings in order. A setting may be given once, and what is no setting is
passed over.
-/

namespace KeyHarvest.Config.Reader

open Json (Fault Cause Found)
open Json.Reader

/-- What a value is, as a message names it. -/
def foundOf : Json → Found
  | .null => .null
  | .bool b => .bool b
  | .number n => .number n
  | .string s => .string s
  | .array _ => .sequence
  | .object _ => .map

/-- The fault that a value of the wrong kind is: of the value itself if it cannot be read, else that
something else is expected. Arrays and objects are not read. -/
def wrongKind {α : Type} (fuel : Nat) (expected : String) (cs : List Char) : Except Fault α :=
  match cs with
  | '[' :: _ => .error (.here (.wrongKind .sequence expected) cs)
  | '\x7b' :: _ => .error (.here (.wrongKind .map expected) cs)
  | _ => do
    let (v, rest) ← scalar fuel cs
    .error (.here (.wrongKind (foundOf v) expected) rest)

/-- Read a text. -/
def text (fuel : Nat) (cs : List Char) : Except Fault (String × List Char) :=
  match skipSpace cs with
  | '"' :: rest => string fuel rest
  | rest => wrongKind fuel "a string" rest

/-- Read a truth value. -/
def flag (fuel : Nat) (cs : List Char) : Except Fault (Bool × List Char) :=
  match skipSpace cs with
  | 't' :: rest => do return (true, ← word ['r', 'u', 'e'] rest)
  | 'f' :: rest => do return (false, ← word ['a', 'l', 's', 'e'] rest)
  | rest => wrongKind fuel "a boolean" rest

/-- Read a list of texts. -/
def texts (fuel : Nat) (cs : List Char) : Except Fault (List String × List Char) :=
  match skipSpace cs with
  | '[' :: rest => elements (text fuel) true fuel rest
  | rest => wrongKind fuel "a sequence" rest

/-- Read texts by name. -/
def table (fuel : Nat) (cs : List Char) : Except Fault (KeyMap String String × List Char) :=
  match skipSpace cs with
  | '\x7b' :: rest => members (text fuel) KeyMap.insert true .empty fuel rest
  | rest => wrongKind fuel "a map" rest

/-- A setting: its names, how its value is read into settings, and its default. -/
structure Field where
  /-- The name of the setting. -/
  name : String
  /-- A further name. -/
  alias? : Option String
  /-- Read the value into settings. -/
  read : Nat → Config → List Char → Except Fault (Config × List Char)
  /-- Put the value into settings that the setting has when it is not given. -/
  leaveOut : Config → Config

/-- A setting whose value is read, or else its default taken, and then put into settings. -/
def Field.of {α : Type} (name : String) (alias? : Option String)
    (read : Nat → List Char → Except Fault (α × List Char)) (standard : α)
    (put : Config → α → Config) : Field where
  name := name
  alias? := alias?
  read := fun fuel c cs ↦ do
    let (v, rest) ← read fuel cs
    return (put c v, rest)
  leaveOut := fun c ↦ put c standard

/-- Whether a setting has the given name. -/
def Field.called (f : Field) (name : String) : Bool :=
  f.name == name || f.alias? == some name

/-- The settings, in order. -/
def fields : List Field := [
  .of "startDelimiter" none text standardStart fun c v ↦ { c with startDelimiter := v },
  .of "endDelimiter" none text standardEnd fun c v ↦ { c with endDelimiter := v },
  .of "defaultLocale" (some "defaultLang") text standardLocale
    fun c v ↦ { c with defaultLocale := v },
  .of "locales" (some "lang") texts [] fun c v ↦ { c with locales := v },
  .of "filterName" (some "customTranslateMatch") text standardFilterName
    fun c v ↦ { c with filterName := v },
  .of "customPatterns" none table .empty fun c v ↦ { c with customPatterns := v },
  .of "safeMode" none flag false fun c v ↦ { c with safeMode := v },
  .of "nullOnEmpty" none flag false fun c v ↦ { c with nullOnEmpty := v },
  .of "namespace" none flag false fun c v ↦ { c with namespaced := v },
  .of "sourceRoot" none text standardSourceRoot fun c v ↦ { c with sourceRoot := v },
  .of "includes" none texts [] fun c v ↦ { c with includes := v },
  .of "ignores" none texts standardIgnores fun c v ↦ { c with ignores := v },
  .of "extensions" none texts standardExtensions fun c v ↦ { c with extensions := v },
  .of "dest" none text standardDest fun c v ↦ { c with dest := v },
  .of "prefix" none text "" fun c v ↦ { c with front := v },
  .of "suffix" none text standardSuffix fun c v ↦ { c with back := v }]

/-- Settings with the defaults of fields. -/
def omitted (fs : List Field) (c : Config) : Config :=
  fs.foldl (fun c f ↦ f.leaveOut c) c

/-- The fault of a setting given twice. It lies behind the space after the second name, and behind
the closing brace if that comes next. -/
def duplicate {α : Type} (f : Field) (cs : List Char) : Except Fault α :=
  .error (.here (.duplicateField f.name)
    (match skipSpace cs with
    | '\x7d' :: rest => rest
    | rest => rest))

/-- Read settings by name; `seen` are the settings already read. Those that are not given get their
defaults at the end. -/
def namedFields (first : Bool) (seen : List String) (c : Config) :
    Nat → List Char → Except Fault (Config × List Char)
  | 0, cs => .error (.here .endInObject cs)
  | fuel + 1, cs => do
    let (more, rest) ← nextKey first cs
    if more then
      let (key, rest) ← string (fuel + 1) rest
      match fields.find? (·.called key) with
      | some f =>
        if seen.contains f.name then duplicate f rest
        else
          let (c, rest) ← f.read (fuel + 1) c (← colon rest)
          namedFields false (f.name :: seen) c fuel rest
      | none =>
        let rest ← Json.Skip.value (fuel + 1) (← colon rest)
        namedFields false seen c fuel rest
    else .ok (omitted (fields.filter fun f ↦ !seen.contains f.name) c, rest)

/-- Read the bracket after the last setting. -/
def closeArray (c : Config) (cs : List Char) : Except Fault (Config × List Char) :=
  match skipSpace cs with
  | [] => .error (.here .endInList [])
  | ']' :: rest => .ok (c, rest)
  | ',' :: rest =>
    match skipSpace rest with
    | ']' :: rest => .error (.next .trailingComma (']' :: rest))
    | rest => .error (.next .trailingCharacters rest)
  | rest => .error (.next .trailingCharacters rest)

/-- Read settings in order. Those that are not given get their defaults. -/
def orderedFields (fuel : Nat) (first : Bool) (c : Config) :
    List Field → List Char → Except Fault (Config × List Char)
  | [], cs => closeArray c cs
  | f :: fs, cs => do
    let (more, rest) ← nextElement first cs
    if more then
      let (c, rest) ← f.read fuel c rest
      orderedFields fuel false c fs rest
    else .ok (omitted (f :: fs) c, rest)

/-- Settings before any is read or omitted. -/
def blank : Config :=
  ⟨"", "", "", [], "", .empty, false, false, false, "", [], [], [], "", "", ""⟩

/-- Read settings. -/
def config (fuel : Nat) (cs : List Char) : Except Fault (Config × List Char) :=
  match skipSpace cs with
  | '\x7b' :: rest => namedFields true [] blank fuel rest
  | '[' :: rest => orderedFields fuel true blank fields rest
  | rest => wrongKind fuel "struct Config" rest

end Reader

/-- The settings that a text holds, or its first fault. -/
def parse (source : String) : Except Json.Fault Config :=
  Json.Reader.finish (Reader.config (source.length + 1) source.toList)

/-- The settings that a text holds, or the message of its first fault. -/
def read (source : String) : Except String Config :=
  (parse source).mapError (·.message source.toList)

end KeyHarvest.Config
