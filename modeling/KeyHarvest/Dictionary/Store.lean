import KeyHarvest.Dictionary.Path
import KeyHarvest.Files.Tree
import KeyHarvest.Json.Reader

/-!
# Stored dictionaries

The dictionary of a locale is a file of JSON: an object with its keys in order, four spaces of
indentation for each level and a line break at the end. Loading never fails; a file that is missing
or cannot be used counts as an empty dictionary, and the status says why.
-/

namespace KeyHarvest

/-- How a stored dictionary was found. -/
inductive StoreStatus where
  | loaded
  | missing
  /-- The file exists but holds no dictionary. -/
  | invalid (reason : String)
  deriving DecidableEq, Repr

/-- A dictionary with the way it was found. -/
structure LoadedDictionary where
  /-- The dictionary, empty unless it was loaded. -/
  dictionary : Dictionary
  /-- How it was found. -/
  status : StoreStatus
  deriving DecidableEq, Repr

/-- Why a dictionary could not be saved. -/
inductive SaveError where
  /-- The directory of its file could not be made. -/
  | directory (path : Path) (cause : FileError)
  /-- Its file could not be written. -/
  | file (path : Path) (cause : FileError)
  deriving DecidableEq, Repr

/-- The words of an error, the cause last. -/
def SaveError.message : SaveError → String
  | .directory path cause => "Failed to create directory: " ++ path.text ++ ": " ++ cause.message
  | .file path cause => "Failed to write file: " ++ path.text ++ ": " ++ cause.message

namespace Dictionary

/-- The path of the file of a locale. -/
def storePath (dest : Path) (front locale back : String) : Path :=
  dest.join ⟨front ++ locale ++ back⟩

/-- The text of the file of a dictionary. -/
def render (d : Dictionary) : String :=
  (Json.sortKeys (.object d)).pretty 4 ++ "\n"

/-- The dictionary that a text holds. -/
def ofText (text : String) : LoadedDictionary :=
  match Json.read text with
  | .ok (.object members) => ⟨members, .loaded⟩
  | .ok _ => ⟨[], .invalid "root of JSON file must be an object"⟩
  | .error message => ⟨[], .invalid message⟩

/-- Load the dictionary at a path. -/
def load (t : FileTree) (p : Path) : LoadedDictionary :=
  if t.pathExists p then
    match t.readText p with
    | .ok text => ofText text
    | .error e => ⟨[], .invalid e.message⟩
  else ⟨[], .missing⟩

/-- Save a dictionary at a path, making the directories above it. The tree is returned with the
error, if there is one, for directories made before it stay. -/
def save (t : FileTree) (p : Path) (d : Dictionary) : FileTree × Option SaveError :=
  let above := p.parent?.getD ⟨""⟩
  match t.makeDirectories above with
  | (t, some e) => (t, some (.directory above e))
  | (t, none) =>
    match t.write p d.render.toUTF8 with
    | .ok t => (t, none)
    | .error e => (t, some (.file p e))

end Dictionary

end KeyHarvest
