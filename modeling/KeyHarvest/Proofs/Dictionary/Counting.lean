import KeyHarvest.Dictionary.Reconcile

/-!
# Two ways to count

A flat result is counted key by key while it is put together, a namespaced one from the keys of both
sides. Either way the counters are those of the keys alone (`changes`) and the number of empty
values (`statsFlat_eq`, `statsNested_eq`).
-/

namespace KeyHarvest.Dictionary

/-- The counters that the keys of both sides determine. -/
def changes (keys : Extracted) (persisted : KeyMap String Json) : Stats where
  total := keys.size
  new := keys.keys.countP fun k ↦ !persisted.contains k
  updated := keys.keys.countP persisted.contains
  deleted := persisted.keys.countP fun k ↦ !keys.contains k

/-- Counting one key after the other adds up the updated and the new ones. -/
theorem foldl_countExtracted (persisted : KeyMap String Json) (l : List String) (stats : Stats) :
    l.foldl (countExtracted persisted) stats =
      { stats with
        new := stats.new + l.countP fun k ↦ !persisted.contains k
        updated := stats.updated + l.countP persisted.contains } := by
  induction l generalizing stats with
  | nil => rfl
  | cons k l ih =>
    rw [List.foldl_cons, ih, countExtracted]
    cases hk : persisted.contains k <;> simp [hk] <;> omega

/-- Counting one entry after the other adds up the updated, the new and the empty ones. -/
theorem foldl_countMerged (persisted : KeyMap String Json) (l : List (String × String))
    (stats : Stats) :
    l.foldl (countMerged persisted) stats =
      { stats with
        new := stats.new + (l.map Prod.fst).countP fun k ↦ !persisted.contains k
        updated := stats.updated + (l.map Prod.fst).countP persisted.contains
        empty := stats.empty + l.countP fun e ↦ (carriedOver persisted e.1 e.2).isEmptyEntry } := by
  induction l generalizing stats with
  | nil => rfl
  | cons e l ih =>
    rw [List.foldl_cons, ih, countMerged]
    have hcontains : persisted.contains e.1 = (persisted.get? e.1).isSome := rfl
    cases hk : persisted.get? e.1 <;>
      cases he : (carriedOver persisted e.1 e.2).isEmptyEntry <;>
      simp [hcontains, hk, he] <;> omega

/-- Counting one key after the other adds up those that were not extracted. -/
theorem foldl_countDropped (keys : Extracted) (l : List String) (stats : Stats) :
    l.foldl (countDropped keys) stats =
      { stats with deleted := stats.deleted + l.countP fun k ↦ !keys.contains k } := by
  induction l generalizing stats with
  | nil => rfl
  | cons k l ih =>
    rw [List.foldl_cons, ih, countDropped]
    cases hk : keys.contains k with
    | false =>
      simp [hk]
      omega
    | true => simp [hk]

/-- The counters of a flat result are those of the keys, and the number of its empty values. -/
theorem statsFlat_eq (keys : Extracted) (persisted : KeyMap String Json) :
    statsFlat keys persisted =
      { changes keys persisted with
        empty := keys.entries.countP fun e ↦ (carriedOver persisted e.1 e.2).isEmptyEntry } := by
  rw [statsFlat, foldl_countDropped, foldl_countMerged]
  simp [changes, KeyMap.keys]

/-- The counters of a namespaced result are those of the keys and the number of its empty leaves. -/
theorem statsNested_eq (keys : Extracted) (persisted overlaid : KeyMap String Json) :
    statsNested keys persisted overlaid =
      { changes keys persisted with empty := overlaid.values.countP Json.isEmptyEntry } := by
  rw [statsNested, foldl_countExtracted]
  simp [changes, List.countP_eq_length_filter]

end KeyHarvest.Dictionary
