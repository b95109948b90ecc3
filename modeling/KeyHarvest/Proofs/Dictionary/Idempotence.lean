import KeyHarvest.Proofs.Dictionary.Modes

/-!
# Reconciling a second time

A second reconciliation with the same keys finds the extracted keys that the first did not shadow
and, after a flat one in safe mode, the keys that were kept (`contains_flatten_reconcile_of_mem`,
`contains_flatten_reconcile_of_not_mem`). It changes nothing, and its counters follow from what it
finds: the shadowed keys are new again, all other extracted keys are updated, and only keys that
safe mode keeps are deleted again (`reconcile_again`).
-/

namespace KeyHarvest.Dictionary

open Json

/-! ### The keys that a result has -/

/-- Of the extracted keys a result has those that it does not shadow. -/
theorem contains_flatten_reconcile_of_mem {keys : Extracted} (d : Dictionary)
    (options : MergeOptions) {key : String} (hk : key ∈ keys.keys) :
    (reconcile keys d options).dictionary.flatten.contains key = true ↔
      key ∉ (reconcile keys d options).shadowed := by
  cases hns : options.namespaced with
  | true =>
    simp only [reconcile, hns, if_true, KeyMap.contains, get?_flatten_reconcileNested,
      shadowed_reconcileNested, hk, true_and]
    by_cases hs : key ∈ keys.shadowed <;> simp [hs]
  | false =>
    have hshadowed : (reconcileFlat keys d options).shadowed = [] := rfl
    have hc := (keys.mem_keys_iff key).mp hk
    obtain ⟨text, htext⟩ := Option.isSome_iff_exists.mp hc
    simp only [reconcile, hns, Bool.false_eq_true, if_false, hshadowed, List.not_mem_nil,
      not_false_eq_true, iff_true]
    rw [KeyMap.contains, get?_flatten_of_isFlat (isFlat_reconcileFlat keys d options)
      (KeyMap.nodup_of_ascending (ascending_reconcileFlat keys d options)), get?_reconcileFlat,
      htext]
    rfl

/-- Of the keys that were not extracted a flat result in safe mode has those of the dictionary, and
any other result has none. -/
theorem contains_flatten_reconcile_of_not_mem {keys : Extracted} (d : Dictionary)
    (options : MergeOptions) {key : String} (hk : keys.contains key = false) :
    (reconcile keys d options).dictionary.flatten.contains key =
      if options.namespaced = false ∧ options.safeMode = true then d.flatten.contains key
      else false := by
  have hnone : keys.get? key = none := by simpa [KeyMap.contains] using hk
  cases hns : options.namespaced with
  | true =>
    have hm : key ∉ keys.keys := by simp [KeyMap.mem_keys_iff, hk]
    simp only [reconcile, hns, if_true, KeyMap.contains, get?_flatten_reconcileNested, hm,
      false_and, if_false, Option.isSome_none, Bool.true_eq_false]
  | false =>
    simp only [reconcile, hns, Bool.false_eq_true, if_false]
    rw [KeyMap.contains, get?_flatten_of_isFlat (isFlat_reconcileFlat keys d options)
      (KeyMap.nodup_of_ascending (ascending_reconcileFlat keys d options)), get?_reconcileFlat,
      hnone]
    cases options.safeMode <;> simp [KeyMap.contains]

/-! ### The counters of a second time -/

/-- The shadowed keys of a result are extracted ones, each listed once. -/
theorem length_shadowed_reconcile (keys : Extracted) (d : Dictionary) (options : MergeOptions) :
    (reconcile keys d options).shadowed.length =
      keys.keys.countP fun k ↦ decide (k ∈ (reconcile keys d options).shadowed) := by
  have hcount : keys.shadowed.length = keys.keys.countP fun k ↦ decide (k ∈ keys.shadowed) := by
    conv => lhs; rw [Extracted.shadowed]
    rw [← List.countP_eq_length_filter]
    apply List.countP_congr
    intro k hk
    rw [decide_eq_true_iff, Extracted.shadowed, List.mem_filter]
    exact ⟨fun h ↦ ⟨hk, h⟩, And.right⟩
  rw [reconcile]
  split
  · exact hcount
  · exact (List.countP_eq_zero.mpr fun k _ ↦ by simp [reconcileFlat]).symm

/-- The extracted keys that a result lacks are the shadowed ones. -/
theorem new_changes_reconcile (keys : Extracted) (d : Dictionary) (options : MergeOptions) :
    (changes keys (reconcile keys d options).dictionary.flatten).new =
      (reconcile keys d options).shadowed.length := by
  rw [length_shadowed_reconcile, changes]
  apply List.countP_congr
  intro k hk
  rw [Bool.not_eq_true', ← Bool.not_eq_true, contains_flatten_reconcile_of_mem d options hk,
    Decidable.not_not, decide_eq_true_iff]

/-- Every extracted key is either new or updated. -/
theorem new_add_updated_changes (keys : Extracted) (persisted : KeyMap String Json) :
    (changes keys persisted).new + (changes keys persisted).updated =
      (changes keys persisted).total := by
  have hsplit := List.length_eq_countP_add_countP persisted.contains (l := keys.keys)
  have hsize : keys.keys.length = keys.size := List.length_map _
  simp only [Bool.not_eq_true, Bool.decide_eq_false] at hsplit
  simp only [changes]
  omega

/-- The keys of a result that were not extracted are those that the dictionary had, if safe mode
keeps them in a flat result. -/
theorem deleted_changes_reconcile (keys : Extracted) (d : Dictionary) (options : MergeOptions) :
    (changes keys (reconcile keys d options).dictionary.flatten).deleted =
      if options.namespaced = false ∧ options.safeMode = true then
        (changes keys d.flatten).deleted
      else 0 := by
  have hnodup (m : KeyMap String Json) : (m.keys.filter fun k ↦ !keys.contains k).Nodup :=
    m.nodup_keys.filter _
  simp only [changes]
  rw [List.countP_eq_length_filter, List.countP_eq_length_filter]
  split
  · next hkept =>
    apply List.Perm.length_eq
    rw [List.perm_ext_iff_of_nodup (hnodup _) (hnodup _)]
    intro k
    simp only [List.mem_filter, Bool.not_eq_true', KeyMap.mem_keys_iff, and_congr_left_iff]
    intro hk
    rw [contains_flatten_reconcile_of_not_mem d options hk, if_pos hkept]
  · next hdropped =>
    rw [List.length_eq_zero_iff, List.filter_eq_nil_iff]
    intro k hk
    rw [Bool.not_eq_true', Bool.not_eq_false]
    cases hc : keys.contains k with
    | true => rfl
    | false =>
      rw [KeyMap.mem_keys_iff, contains_flatten_reconcile_of_not_mem d options hc,
        if_neg hdropped] at hk
      cases hk

/-- A result reconciled again with the same keys is the same, in the same order and with the same
shadowed keys. These are new again and all other extracted keys are updated; a key is deleted again
only where a flat result keeps it in safe mode. -/
theorem reconcile_again (keys : Extracted) {d : Dictionary} (hd : (Json.object d).Distinct)
    (options : MergeOptions) :
    let first := reconcile keys d options
    let second := reconcile keys first.dictionary options
    second.dictionary = first.dictionary ∧ second.shadowed = first.shadowed ∧
      second.stats.total = first.stats.total ∧ second.stats.new = first.shadowed.length ∧
      (options.namespaced = false → first.shadowed = []) ∧
      first.shadowed.length ≤ first.stats.total ∧
      second.stats.updated = first.stats.total - first.shadowed.length ∧
      second.stats.deleted =
        if options.namespaced = false ∧ options.safeMode = true then first.stats.deleted
        else 0 := by
  intro first second
  have hfirst := changes_reconcile keys d options
  have hsecond := changes_reconcile keys first.dictionary options
  have hnew : second.stats.new = first.shadowed.length :=
    (congrArg Stats.new hsecond).trans (new_changes_reconcile keys d options)
  have htotal : second.stats.total = first.stats.total :=
    (congrArg Stats.total hsecond).trans (congrArg Stats.total hfirst).symm
  have hsum : second.stats.new + second.stats.updated = second.stats.total := by
    have h := new_add_updated_changes keys first.dictionary.flatten
    rwa [← hsecond] at h
  have hdeleted : second.stats.deleted =
      if options.namespaced = false ∧ options.safeMode = true then first.stats.deleted else 0 := by
    have h := deleted_changes_reconcile keys d options
    rwa [← hsecond, ← hfirst] at h
  have hshadowed : second.shadowed = first.shadowed := by
    simp only [second, first, reconcile]
    split <;> rfl
  refine ⟨reconcile_reconcile keys hd options, hshadowed, htotal, hnew, ?_, ?_, ?_, hdeleted⟩
  · intro hflat
    simp only [first, reconcile, hflat, Bool.false_eq_true, if_false]
    rfl
  · omega
  · omega

/-- A namespaced result with a shadowed key and a key with an empty segment, made from a dictionary
with an array, null and a text that nothing asks for, is reconciled again. -/
theorem reconcile_again_shadowed :
    let keys : Extracted := .ofList [("a", ""), ("a.b", ""), ("c..d", "x"), ("t", "")]
    let d : Dictionary := [("a.b", .array [.null]), ("t", .null), ("z", .string "gone")]
    let options : MergeOptions := { isDefaultLocale := true, namespaced := true, safeMode := true }
    let first := reconcile keys d options
    let second := reconcile keys first.dictionary options
    (Json.object d).Distinct ∧ first.stats.deleted = 1 ∧ first.shadowed = ["a"] ∧
      second.dictionary = first.dictionary ∧ second.stats.new = 1 ∧ second.stats.updated = 3 ∧
      second.stats.deleted = 0 := by
  intro keys d options first second
  have hd : (Json.object d).Distinct := by decide
  have hs : first.shadowed = ["a"] := by decide +kernel
  have htotal : first.stats.total = 4 := by decide +kernel
  obtain ⟨hsame, -, -, hnew, -, -, hupdated, hdeleted⟩ := reconcile_again keys hd options
  refine ⟨hd, by decide +kernel, hs, hsame, ?_, ?_, hdeleted⟩
  · exact hnew.trans (by rw [hs]; rfl)
  · exact hupdated.trans (by rw [htotal, hs]; rfl)

end KeyHarvest.Dictionary
