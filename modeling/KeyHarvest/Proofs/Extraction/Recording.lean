import KeyHarvest.Extraction
import KeyHarvest.Proofs.KeyMap

/-!
# Recording keys

Of the matches of a key the last one decides its default text (`get?_record`). So the keys of a text
are found without regard to those recorded before, which they overwrite
(`extractInto_eq_overwrite`), and texts can be extracted one after the other into one map or each on
its own (`extractAll_eq_overwrite`).
-/

namespace KeyHarvest

/-- Of the matches of a key the last one decides its default text. -/
theorem Extracted.get?_record (keys : Extracted) (found : List KeyMatch) (k : String) :
    (keys.record found).get? k =
      (KeyMap.firstValue (found.map fun m ↦ (m.key, m.defaultText)).reverse k).or
        (keys.get? k) := by
  rw [← KeyMap.get?_foldl_insert, List.foldl_map]
  rfl

private theorem Extracted.record_eq_overwrite (keys : Extracted) (found : List KeyMatch) :
    keys.record found = keys.overwrite (record .empty found) := by
  apply KeyMap.ext_get?
  intro k
  rw [KeyMap.get?_overwrite, get?_record, get?_record, KeyMap.get?_empty, Option.or_none]

namespace Catalog

variable (catalog : Catalog)

/-- Extracting a text overwrites the keys before with those of the text alone, and counts as many
matches whatever these are. -/
theorem extractInto_eq_overwrite (content : String) (keys : Extracted) :
    catalog.extractInto content keys =
      (keys.overwrite (catalog.extract content), (catalog.extractInto content .empty).2) := by
  rw [extract, extractInto, extractInto, Extracted.record_eq_overwrite]

/-- Extract texts one after the other into one map, and add up the counts returned. -/
def extractAll : List String → Extracted → Extracted × Nat
  | [], keys => (keys, 0)
  | content :: rest, keys =>
    let (keys, count) := catalog.extractInto content keys
    let (keys, total) := extractAll rest keys
    (keys, count + total)

/-- Texts in two parts are extracted one part after the other. -/
theorem extractAll_append (front back : List String) (keys : Extracted) :
    (catalog.extractAll (front ++ back) keys).1 =
      (catalog.extractAll back (catalog.extractAll front keys).1).1 := by
  induction front generalizing keys with
  | nil => rfl
  | cons content front ih => exact ih _

/-- Texts extracted one after the other overwrite the keys before with those of the texts alone. -/
theorem extractAll_eq_overwrite (contents : List String) (keys : Extracted) :
    (catalog.extractAll contents keys).1 =
      keys.overwrite (catalog.extractAll contents .empty).1 := by
  induction contents generalizing keys with
  | nil => rfl
  | cons content rest ih =>
    rw [extractAll, extractAll, ih, ih (catalog.extractInto content .empty).1,
      ← KeyMap.overwrite_assoc, extractInto_eq_overwrite, extractInto_eq_overwrite _ _ .empty,
      KeyMap.empty_overwrite]

end Catalog

end KeyHarvest
