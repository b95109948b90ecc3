import KeyHarvest.Proofs.Dictionary.Shape

/-!
# Flat results

A flat result has the extracted keys and, in safe mode, the keys of the flattened dictionary. A key
that was not extracted keeps its value; an extracted one has its old value or else its default text,
where the empty text gives way to what the locale prescribes (`reconcile_flat`).
-/

namespace KeyHarvest.Dictionary

open Json

private theorem mem_keys_iff_isSome (d : Dictionary) (key : String) :
    key ∈ d.keys ↔ (d.get? key).isSome = true := by
  rw [Option.isSome_iff_ne_none, ne_eq, Members.get?_eq_none_iff, Decidable.not_not]
  rfl

/-- A flat result has the extracted keys and, in safe mode, those of the flattened dictionary. -/
theorem mem_keys_reconcileFlat_iff (keys : Extracted) (d : Dictionary) (options : MergeOptions)
    (key : String) : key ∈ (reconcileFlat keys d options).dictionary.keys ↔
      key ∈ keys.keys ∨ options.safeMode = true ∧ key ∈ d.flatten.keys := by
  rw [mem_keys_iff_isSome, get?_reconcileFlat, keys.mem_keys_iff, d.flatten.mem_keys_iff,
    KeyMap.contains, KeyMap.contains]
  cases keys.get? key with
  | some text => simp
  | none => cases options.safeMode <;> simp

/-- A flat result keeps what the dictionary has under a key that was not extracted. -/
theorem get?_reconcileFlat_of_not_mem {keys : Extracted} (d : Dictionary) {options : MergeOptions}
    (hs : options.safeMode = true) {key : String} (hk : key ∉ keys.keys) :
    Members.get? (reconcileFlat keys d options).dictionary key = d.flatten.get? key := by
  have hnone : keys.get? key = none := by
    rwa [keys.mem_keys_iff, KeyMap.contains, Option.not_isSome_iff_eq_none] at hk
  rw [get?_reconcileFlat, hnone]
  exact if_pos hs

private theorem get?_reconcileFlat_of_mem {keys : Extracted} (d : Dictionary)
    (options : MergeOptions)
    {e : String × String} (he : e ∈ keys.entries) :
    Members.get? (reconcileFlat keys d options).dictionary e.1 =
      some (options.settle e.1 (carriedOver d.flatten e.1 e.2)) := by
  rw [get?_reconcileFlat, (keys.mem_entries_iff e.1 e.2).mp he]

/-- The empty entries of a flat result are counted before empty texts give way. -/
theorem empty_reconcileFlat (keys : Extracted) (d : Dictionary) (options : MergeOptions) :
    (reconcileFlat keys d options).stats.empty = keys.entries.countP fun e ↦
      carriedOver d.flatten e.1 e.2 = .string "" ∨ carriedOver d.flatten e.1 e.2 = .null := by
  rw [reconcileFlat, statsFlat_eq]
  refine List.countP_congr fun e _ ↦ ?_
  rw [decide_eq_true_iff, ← isEmptyEntry_iff]

/-- A flat result lists in key order the extracted keys and, in safe mode, those of the flattened
dictionary. What was not extracted keeps its value. What was extracted has its old value, or its
default text if it had none; the empty text gives way to the key in the default locale, and to null
in others that ask for it. No value is an object and no key is shadowed. The entries without text
are counted before the empty text gives way. -/
theorem reconcile_flat (keys : Extracted) (d : Dictionary) {options : MergeOptions}
    (h : options.namespaced = false) :
    let result := reconcile keys d options
    let persisted := d.flatten
    let carried (e : String × String) := (persisted.get? e.1).getD (.string e.2)
    (∀ key, key ∈ result.dictionary.keys ↔
      key ∈ keys.keys ∨ options.safeMode = true ∧ key ∈ persisted.keys) ∧
    (result.dictionary.Pairwise fun a b ↦ a.1 < b.1) ∧
    (options.safeMode = true → ∀ key ∉ keys.keys,
      Members.get? result.dictionary key = persisted.get? key) ∧
    (∀ e ∈ keys.entries, Members.get? result.dictionary e.1 =
      some (if carried e = .string "" then
          if options.isDefaultLocale then .string e.1
          else if options.nullOnEmpty then .null
          else .string ""
        else carried e)) ∧
    (∀ e ∈ result.dictionary, e.2.isObject = false) ∧ result.shadowed = [] ∧
    result.stats.empty =
      keys.entries.countP fun e ↦ carried e = .string "" ∨ carried e = .null := by
  intro result persisted carried
  have hresult : result = reconcileFlat keys d options := by
    simp only [result, reconcile, h, Bool.false_eq_true, if_false]
  rw [hresult]
  refine ⟨mem_keys_reconcileFlat_iff keys d options, ascending_reconcileFlat keys d options,
    fun hs _ hk ↦ get?_reconcileFlat_of_not_mem d hs hk, fun e he ↦ ?_,
    isFlat_reconcileFlat keys d options, rfl, empty_reconcileFlat keys d options⟩
  rw [get?_reconcileFlat_of_mem d options he, MergeOptions.settle]
  simp only [MergeOptions.isBlank_iff]
  rfl

/-- Of two leaves under one text the later one counts, null stays null, and a key that nothing asks
for is kept with its array. -/
theorem reconcile_flat_menu :
    let keys : Extracted := .ofList [("a.b", "t"), ("n", "x"), ("new", "")]
    let d : Dictionary := [("n", .null), ("a", .object [("b", .string "nested")]),
      ("a.b", .string ""), ("old", .array [])]
    let options : MergeOptions := { isDefaultLocale := true, safeMode := true }
    let result := reconcile keys d options
    options.namespaced = false ∧ options.safeMode = true ∧ "old" ∉ keys.keys ∧
      ("a.b", "t") ∈ keys.entries ∧ ("n", "x") ∈ keys.entries ∧
      "old" ∈ result.dictionary.keys ∧ "a" ∉ result.dictionary.keys ∧
      Members.get? result.dictionary "old" = some (.array []) ∧
      Members.get? result.dictionary "a.b" = some (.string "a.b") ∧
      Members.get? result.dictionary "n" = some .null ∧ result.stats.empty = 3 := by
  intro keys d options result
  have h : options.namespaced = false := rfl
  have hold : "old" ∉ keys.keys := by decide +kernel
  have hab : ("a.b", "t") ∈ keys.entries := by decide +kernel
  have hn : ("n", "x") ∈ keys.entries := by decide +kernel
  obtain ⟨hkeys, -, hkept, hvalue, -, -, hempty⟩ := reconcile_flat keys d h
  refine ⟨h, rfl, hold, hab, hn, ?_, ?_, (hkept rfl "old" hold).trans ?_,
    (hvalue _ hab).trans ?_, (hvalue _ hn).trans ?_, hempty.trans ?_⟩
  · exact (hkeys "old").mpr (by decide +kernel)
  · exact fun ha ↦ absurd ((hkeys "a").mp ha) (by decide +kernel)
  all_goals decide +kernel

end KeyHarvest.Dictionary
