import KeyHarvest.Proofs.Dictionary.Counting
import KeyHarvest.Proofs.Dictionary.Reconciliation

/-!
# Flat and namespaced reconciliation compared

Both ways to reconcile count the same changes (`changes_reconcile`). On a dictionary that reads
back, and with empty default texts, they also settle every key alike, so that the namespaced result
flattened is the flat one without the shadowed keys (`entries_flatten_reconcile_of_readsBack`). What
either way leaves reads back (`readsBack_of_stored`).
-/

namespace KeyHarvest.Dictionary

open Json

/-- A dictionary that one of the two ways to reconcile can have left: one without nested objects, or
a namespaced result. -/
inductive Stored : Dictionary → Prop where
  | flat {d : Dictionary} (hd : (Json.object d).Distinct) (hf : d.IsFlat) : Stored d
  | namespaced {d : Dictionary} (hd : (Json.object d).Distinct) (keys : Extracted)
      {options : MergeOptions} (hns : options.namespaced = true) :
      Stored (reconcile keys d options).dictionary

/-- A stored dictionary reads back. -/
theorem readsBack_of_stored {d : Dictionary} (h : Stored d) : d.ReadsBack := by
  cases h with
  | flat hd hf => exact readsBack_of_isFlat hf ((distinct_object_iff d).mp hd).1
  | namespaced hd keys hns => exact readsBack_reconcile keys hd _

/-- The counters other than that of empty entries are those of the changes. -/
theorem changes_reconcile (keys : Extracted) (d : Dictionary) (options : MergeOptions) :
    { (reconcile keys d options).stats with empty := 0 } = changes keys d.flatten := by
  rw [reconcile]
  split
  · rw [reconcileNested, statsNested_eq]
    rfl
  · rw [reconcileFlat, statsFlat_eq]
    rfl

-- The keys without text are settled alike when no default text is given.
private theorem settle_carriedOver {d : Dictionary} (hb : d.ReadsBack) (options : MergeOptions)
    (key : String) : options.settle key (carriedOver d.flatten key "") =
      d.settledLeaf options key := by
  rw [settledLeaf, carriedOver, hb]

/-- On a dictionary that reads back, and without default texts, the namespaced result flattened is
the flat one without the shadowed keys. -/
theorem entries_flatten_reconcile_of_readsBack {keys : Extracted}
    (htext : ∀ e ∈ keys.entries, e.2 = "") {d : Dictionary} (hb : d.ReadsBack)
    {options : MergeOptions} (hsafe : options.safeMode = false) :
    (reconcileNested keys d { options with namespaced := true }).dictionary.flatten.entries =
      (reconcileFlat keys d { options with namespaced := false }).dictionary.filter
        fun e ↦ e.1 ∉ keys.shadowed := by
  have hsafe' : { options with namespaced := false }.safeMode = false := hsafe
  have hflat := dictionary_reconcileFlat_of_not_safe keys d hsafe'
  rw [entries_flatten_reconcileNested, hflat, List.filter_map, keys.visible_eq_filter]
  symm
  apply List.map_congr_left
  intro e he
  rw [htext e (List.mem_filter.mp he).1]
  exact Prod.ext rfl (settle_carriedOver hb options e.1)

/-- Flat and namespaced reconciliation count the same keys in all, and the same new, updated and
deleted ones. Without safe mode and default texts they agree on every stored dictionary: flattened,
the namespaced result is the flat one without the shadowed keys. -/
theorem reconcile_modes_agree (keys : Extracted) (d : Dictionary) (options : MergeOptions) :
    let flat := reconcile keys d { options with namespaced := false }
    let nested := reconcile keys d { options with namespaced := true }
    (flat.stats.total = nested.stats.total ∧ flat.stats.new = nested.stats.new ∧
      flat.stats.deleted = nested.stats.deleted ∧ flat.stats.updated = nested.stats.updated) ∧
    (options.safeMode = false → (∀ e ∈ keys.entries, e.2 = "") → Stored d →
      nested.dictionary.flatten.entries =
        flat.dictionary.filter fun e ↦ e.1 ∉ nested.shadowed) := by
  intro flat nested
  constructor
  · have hflat := changes_reconcile keys d { options with namespaced := false }
    have hnested := changes_reconcile keys d { options with namespaced := true }
    have h := hflat.trans hnested.symm
    simp only [Stats.mk.injEq, and_true] at h
    exact h
  · intro hsafe htext hd
    exact entries_flatten_reconcile_of_readsBack htext (readsBack_of_stored hd) hsafe

/-- The two ways agree where a key is shadowed, one has an empty segment and one has null. -/
theorem reconcile_modes_agree_shadowed :
    let keys : Extracted := .ofList [("a", ""), ("a.b", ""), ("c..d", ""), ("t", "")]
    let d : Dictionary := [("a.b", .string "y"), ("a", .string "x"), ("t", .null)]
    let flat := reconcile keys d { isDefaultLocale := true }
    let nested := reconcile keys d { isDefaultLocale := true, namespaced := true }
    (∀ e ∈ keys.entries, e.2 = "") ∧ Stored d ∧ nested.shadowed = ["a"] ∧
      flat.dictionary = [("a", .string "x"), ("a.b", .string "y"), ("c..d", .string "c..d"),
        ("t", .null)] ∧
      nested.dictionary.flatten.entries = [("a.b", .string "y"), ("c..d", .string "c..d"),
        ("t", .null)] := by
  intro keys d flat nested
  have htext : ∀ e ∈ keys.entries, e.2 = "" := by decide +kernel
  have hd : Stored d := .flat (by decide) (by decide)
  have hs : nested.shadowed = ["a"] := by decide +kernel
  have hflat : flat.dictionary = [("a", .string "x"), ("a.b", .string "y"),
      ("c..d", .string "c..d"), ("t", .null)] := by decide +kernel
  have h := (reconcile_modes_agree keys d { isDefaultLocale := true }).2 rfl htext hd
  refine ⟨htext, hd, hs, hflat, h.trans ?_⟩
  show flat.dictionary.filter (fun e ↦ e.1 ∉ nested.shadowed) = _
  rw [hs, hflat]
  decide +kernel

end KeyHarvest.Dictionary
