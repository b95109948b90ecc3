import KeyHarvest.Proofs.Extraction.Recording
import KeyHarvest.Sources

/-!
# The harvest of source files

A harvest finds the keys of each file on their own and puts the maps together in the order of the
files. This is the same as extracting the files that can be read one after the other into one map
(`harvest_sequential`). What one file adds is said in `addFile_of_error` and `addFile_of_ok`, what
a list of files adds in `foldl_addFile`.
-/

namespace KeyHarvest

namespace FileTree

/-- The text of a file, if it can be read. -/
def content? (t : FileTree) (p : Path) : Option String :=
  (t.readBytes p).toOption.map Text.decodeLossy

/-- The report on a file, if it cannot be read. -/
def unreadable? (t : FileTree) (p : Path) : Option Unreadable :=
  match t.readBytes p with
  | .ok _ => none
  | .error e => some ⟨p, e.message⟩

/-- A file either has a text or is reported. -/
theorem content?_cases (t : FileTree) (p : Path) :
    (∃ e, t.readBytes p = .error e ∧ t.content? p = none ∧
      t.unreadable? p = some ⟨p, e.message⟩) ∨
    ∃ bytes, t.readBytes p = .ok bytes ∧ t.content? p = some (Text.decodeLossy bytes) ∧
      t.unreadable? p = none := by
  rw [content?, unreadable?]
  cases t.readBytes p with
  | error e => exact .inl ⟨e, rfl, rfl, rfl⟩
  | ok bytes => exact .inr ⟨bytes, rfl, rfl, rfl⟩

private theorem length_contents_add_length_unreadables (t : FileTree) (files : List Path) :
    (files.filterMap t.content?).length + (files.filterMap t.unreadable?).length =
      files.length := by
  induction files with
  | nil => rfl
  | cons p files ih =>
    obtain ⟨e, -, hc, hu⟩ | ⟨bytes, -, hc, hu⟩ := t.content?_cases p
    · rw [List.filterMap_cons_none hc, List.filterMap_cons_some hu, List.length_cons,
        List.length_cons, ← ih, Nat.add_assoc]
    · rw [List.filterMap_cons_some hc, List.filterMap_cons_none hu, List.length_cons,
        List.length_cons, ← ih, Nat.add_right_comm]

end FileTree

namespace Harvest

variable (catalog : Catalog) {t : FileTree} {p : Path}

/-- A file that cannot be read is reported and changes nothing else. -/
theorem addFile_of_error {e : FileError} (h : t.readBytes p = .error e) (sofar : Harvest) :
    addFile catalog t sofar p =
      { sofar with unreadable := sofar.unreadable ++ [⟨p, e.message⟩] } := by
  rw [addFile, h]

/-- A file that can be read is extracted into the keys so far. -/
theorem addFile_of_ok {bytes : ByteArray} (h : t.readBytes p = .ok bytes) (sofar : Harvest) :
    addFile catalog t sofar p =
      { sofar with
        keys := (catalog.extractInto (Text.decodeLossy bytes) sofar.keys).1
        filesRead := sofar.filesRead + 1
        matchCount := sofar.matchCount +
          (catalog.extractInto (Text.decodeLossy bytes) sofar.keys).2 } := by
  rw [addFile, h, catalog.extractInto_eq_overwrite _ sofar.keys]
  rfl

/-- Adding files extracts those that can be read into the keys so far and reports the others. -/
theorem foldl_addFile (files : List Path) (sofar : Harvest) :
    files.foldl (addFile catalog t) sofar =
      { keys := (catalog.extractAll (files.filterMap t.content?) sofar.keys).1
        filesRead := sofar.filesRead + (files.filterMap t.content?).length
        matchCount := sofar.matchCount +
          (catalog.extractAll (files.filterMap t.content?) sofar.keys).2
        unreadable := sofar.unreadable ++ files.filterMap t.unreadable? } := by
  induction files generalizing sofar with
  | nil => simp [Catalog.extractAll]
  | cons p files ih =>
    rw [List.foldl_cons, ih]
    obtain ⟨e, hread, hc, hu⟩ | ⟨bytes, hread, hc, hu⟩ := t.content?_cases p
    · rw [addFile_of_error catalog hread, List.filterMap_cons_none hc, List.filterMap_cons_some hu,
        List.append_assoc, List.singleton_append]
    · rw [addFile_of_ok catalog hread, List.filterMap_cons_some hc, List.filterMap_cons_none hu,
        Catalog.extractAll, List.length_cons, Nat.add_right_comm, Nat.add_assoc,
        Nat.add_assoc]

end Harvest

namespace Catalog

variable (catalog : Catalog) (t : FileTree)

/-- A harvest is the extraction of the texts that can be read. -/
theorem harvest_eq (files : List Path) :
    catalog.harvest t files =
      { keys := (catalog.extractAll (files.filterMap t.content?) .empty).1
        filesRead := (files.filterMap t.content?).length
        matchCount := (catalog.extractAll (files.filterMap t.content?) .empty).2
        unreadable := files.filterMap t.unreadable? } := by
  rw [harvest, Harvest.foldl_addFile]
  simp [Harvest.empty]

/-- The keys of more files overwrite those of the files before. -/
theorem keys_harvest_append (front back : List Path) :
    (catalog.harvest t (front ++ back)).keys =
      (catalog.harvest t front).keys.overwrite (catalog.harvest t back).keys := by
  rw [harvest_eq, harvest_eq, harvest_eq, List.filterMap_append, extractAll_append,
    extractAll_eq_overwrite]

/-- A harvest gives what extracting the files that can be read one after the other into one map
gives, and reports the others. A text overwrites the keys before with those of the text alone, so
files harvested in two parts give the same keys, wherever they are parted. -/
theorem harvest_sequential (files : List Path) :
    let sequential := catalog.extractAll (files.filterMap t.content?) .empty
    (catalog.harvest t files).keys = sequential.1 ∧
      (catalog.harvest t files).matchCount = sequential.2 ∧
      (catalog.harvest t files).filesRead + (catalog.harvest t files).unreadable.length =
        files.length ∧
      (catalog.harvest t files).unreadable = files.filterMap t.unreadable? ∧
      (∀ content keys,
        (catalog.extractInto content keys).1 = keys.overwrite (catalog.extract content)) ∧
      ∀ n, (catalog.harvest t files).keys =
        (catalog.harvest t (files.take n)).keys.overwrite
          (catalog.harvest t (files.drop n)).keys := by
  intro sequential
  have h := catalog.harvest_eq t files
  refine ⟨by rw [h], by rw [h], ?_, by rw [h], fun content keys ↦ ?_, fun n ↦ ?_⟩
  · rw [h, t.length_contents_add_length_unreadables]
  · rw [extractInto_eq_overwrite]
  · rw [← keys_harvest_append, List.take_append_drop]

end Catalog

end KeyHarvest
