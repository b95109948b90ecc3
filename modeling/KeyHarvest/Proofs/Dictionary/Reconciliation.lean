import KeyHarvest.Proofs.Dictionary.Lookup

/-!
# What reconciliation leaves

Flattened, a namespaced result lists the visible keys, each with the leaf found for it or what takes
the place of the empty text (`entries_flatten_reconcileNested`). A flat result is in key order and
is looked up as `get?_reconcileFlat` says. Every result reads back (`readsBack_reconcile`), and what
holds everywhere in a dictionary holds everywhere in its result (`everywhere_reconcile`).

Reconciling a result once more with the same keys leaves it as it is, also after its keys have been
put in order (`reconcile_reconcile`, `reconcile_sortMembers_reconcile`).
-/

namespace KeyHarvest

open Json

namespace MergeOptions

/-- The empty text alone is blank. -/
theorem isBlank_iff (v : Json) : v.isBlank = true ↔ v = .string "" := by
  cases v <;> simp [isBlank]

/-- A value with text is settled already. -/
theorem settle_of_ne_blank (options : MergeOptions) (key : String) {v : Json}
    (h : v ≠ .string "") : options.settle key v = v := by
  have hb : ¬ v.isBlank = true := fun hb ↦ h ((isBlank_iff v).mp hb)
  rw [settle, if_neg hb]

/-- What takes the place of the empty text is settled. -/
theorem settle_settle (options : MergeOptions) (key : String) (v : Json) :
    options.settle key (options.settle key v) = options.settle key v := by
  by_cases h : v.isBlank = true
  · have hs : options.settle key v = options.emptyValue key := if_pos h
    rw [hs, settle]
    split <;> rfl
  · have hs : options.settle key v = v := if_neg h
    rw [hs, hs]

private theorem emptyValue_cases (options : MergeOptions) (key : String) :
    (∃ s, options.emptyValue key = .string s) ∨ options.emptyValue key = .null := by
  rw [emptyValue]
  split
  · exact .inl ⟨_, rfl⟩
  · split
    · exact .inr rfl
    · exact .inl ⟨_, rfl⟩

private theorem everywhere_settle {p : Json → Bool} (hs : ∀ s, p (.string s) = true)
    (hn : p .null = true) (options : MergeOptions) (key : String) {v : Json}
    (hv : v.everywhere p = true) : (options.settle key v).everywhere p = true := by
  rw [settle]
  split
  · rcases emptyValue_cases options key with ⟨s, he⟩ | he
    · rw [he]
      exact hs s
    · rw [he]
      exact hn
  · exact hv

/-- Settling makes no objects. -/
theorem isObject_settle (options : MergeOptions) (key : String) {v : Json}
    (h : v.isObject = false) : (options.settle key v).isObject = false := by
  rw [settle]
  split
  · rcases emptyValue_cases options key with ⟨s, he⟩ | he <;> rw [he] <;> rfl
  · exact h

end MergeOptions

namespace Dictionary

/-! ### Namespaced results -/

/-- The leaf found for a key, settled; the empty text stands for one that is not there. -/
def settledLeaf (d : Dictionary) (options : MergeOptions) (key : String) : Json :=
  options.settle key ((d.found? key).getD (.string ""))

/-- What is looked up, or else the empty text, is no object. -/
theorem isObject_getD_lookupLeaf (d : Dictionary) (path : List String) :
    ((d.lookupLeaf path).getD (.string "")).isObject = false := by
  cases h : d.lookupLeaf path with
  | none => rfl
  | some v => exact isObject_of_lookupLeaf h

/-- A namespaced result leaves out the shadowed keys. -/
theorem shadowed_reconcileNested (keys : Extracted) (d : Dictionary) (options : MergeOptions) :
    (reconcileNested keys d options).shadowed = keys.shadowed := rfl

/-- A namespaced result is the tree of the keys with its leaves replaced by settled ones. -/
theorem dictionary_reconcileNested (keys : Extracted) (d : Dictionary) (options : MergeOptions) :
    (reconcileNested keys d options).dictionary = mapMembers
      (fun path _ ↦ options.settle (pathText path) ((d.lookupLeaf path).getD (.string "")))
      keys.nest := by
  rw [reconcileNested, fillEmpty, fillMembers_eq, overlayMembers_eq, mapMembers_mapMembers]
  · rfl
  · exact fun path _ ↦ isObject_getD_lookupLeaf d _

/-- The leaves of a namespaced result stand at the paths of the visible keys. -/
theorem memberPathLeaves_reconcileNested (keys : Extracted) (d : Dictionary)
    (options : MergeOptions) :
    (memberPathLeaves (reconcileNested keys d options).dictionary).Perm
      (keys.visible.map fun e ↦ (Extracted.pathOf e.1, d.settledLeaf options e.1)) := by
  rw [dictionary_reconcileNested, memberPathLeaves_mapMembers]
  · refine (keys.memberPathLeaves_nest.map _).trans ?_
    rw [List.map_map]
    apply List.Perm.of_eq
    apply List.map_congr_left
    intro e _
    simp only [Function.comp_apply, Extracted.pathText_pathOf, settledLeaf, found?]
  · exact fun path _ ↦ options.isObject_settle _ (isObject_getD_lookupLeaf d path)

private theorem memberLeaves_reconcileNested (keys : Extracted) (d : Dictionary)
    (options : MergeOptions) : (memberLeaves "" (reconcileNested keys d options).dictionary).Perm
      (keys.visible.map fun e ↦ (e.1, d.settledLeaf options e.1)) := by
  rw [memberLeaves_eq]
  refine ((memberPathLeaves_reconcileNested keys d options).map _).trans ?_
  rw [List.map_map]
  apply List.Perm.of_eq
  apply List.map_congr_left
  intro e _
  exact Prod.ext (Extracted.pathText_pathOf e.1) rfl

private theorem ascending_visible_map (keys : Extracted) (f : String → Json) :
    (keys.visible.map fun e ↦ (e.1, f e.1)).Pairwise fun a b ↦ a.1 < b.1 :=
  List.pairwise_map.mpr (keys.ascending.sublist List.filter_sublist)

/-- Flattened, a namespaced result lists the visible keys with their settled leaves. -/
theorem entries_flatten_reconcileNested (keys : Extracted) (d : Dictionary)
    (options : MergeOptions) :
    (flatten (reconcileNested keys d options).dictionary).entries =
      keys.visible.map fun e ↦ (e.1, d.settledLeaf options e.1) := by
  have ha := ascending_visible_map keys (d.settledLeaf options)
  rw [flatten, KeyMap.ofList_perm (memberLeaves_reconcileNested keys d options)
    (KeyMap.nodup_of_ascending ha), KeyMap.entries_ofList ha]

/-- Flattened, a namespaced result binds the visible keys and no others. -/
theorem get?_flatten_reconcileNested (keys : Extracted) (d : Dictionary) (options : MergeOptions)
    (key : String) :
    (flatten (reconcileNested keys d options).dictionary).get? key =
      if key ∈ keys.keys ∧ key ∉ keys.shadowed then some (d.settledLeaf options key) else none := by
  have ha := ascending_visible_map keys (d.settledLeaf options)
  rw [KeyMap.get?_eq_firstValue, entries_flatten_reconcileNested]
  split
  · next hk =>
    obtain ⟨e, he, rfl⟩ := List.mem_map.mp ((keys.mem_visible_keys_iff key).mpr hk)
    rw [KeyMap.firstValue_eq_some_iff (KeyMap.nodup_of_ascending ha)]
    exact List.mem_map.mpr ⟨e, he, rfl⟩
  · next hk =>
    rw [KeyMap.firstValue_eq_none_iff, List.map_map]
    exact fun hm ↦ hk ((keys.mem_visible_keys_iff key).mp hm)

/-! ### Flat results -/

/-- The members of a flat result before they are put in order. -/
private def flatMembers (keys : Extracted) (d : Dictionary) (options : MergeOptions) : Members :=
  (keys.entries.map fun e ↦ (e.1, options.settle e.1 (carriedOver d.flatten e.1 e.2))) ++
    if options.safeMode then d.flatten.entries.filter fun e ↦ !keys.contains e.1 else []

private theorem dictionary_reconcileFlat (keys : Extracted) (d : Dictionary)
    (options : MergeOptions) :
    (reconcileFlat keys d options).dictionary = sortMembers (flatMembers keys d options) := by
  rw [reconcileFlat, flatMembers, List.map_map]
  rfl

/-- A flat result is in key order. -/
theorem ascending_reconcileFlat (keys : Extracted) (d : Dictionary) (options : MergeOptions) :
    (reconcileFlat keys d options).dictionary.Pairwise fun a b ↦ a.1 < b.1 := by
  rw [dictionary_reconcileFlat]
  exact ascending_sortMembers _

/-- A flat result has the settled values of the extracted keys and, in safe mode, what the
dictionary had under others. -/
theorem get?_reconcileFlat (keys : Extracted) (d : Dictionary) (options : MergeOptions)
    (key : String) :
    Members.get? (reconcileFlat keys d options).dictionary key =
      match keys.get? key with
      | some text => some (options.settle key (carriedOver d.flatten key text))
      | none => if options.safeMode then d.flatten.get? key else none := by
  rw [dictionary_reconcileFlat, get?_sortMembers, Members.get?_eq_firstValue, flatMembers,
    KeyMap.firstValue_append, KeyMap.firstValue_map_values, ← KeyMap.get?_eq_firstValue]
  cases hk : keys.get? key with
  | some text => rfl
  | none =>
    have hc : keys.contains key = false := by rw [KeyMap.contains, hk]; rfl
    cases options.safeMode with
    | false => rfl
    | true =>
      simp only [Option.map_none, Option.none_or, if_true]
      rw [KeyMap.firstValue_filter (fun k ↦ !keys.contains k), hc]
      rfl

/-- Without safe mode a flat result lists the extracted keys with their settled values. -/
theorem dictionary_reconcileFlat_of_not_safe (keys : Extracted) (d : Dictionary)
    {options : MergeOptions} (h : options.safeMode = false) :
    (reconcileFlat keys d options).dictionary =
      keys.entries.map fun e ↦ (e.1, options.settle e.1 (carriedOver d.flatten e.1 e.2)) := by
  rw [dictionary_reconcileFlat, flatMembers, h, if_neg Bool.false_ne_true, List.append_nil]
  exact sortMembers_of_ascending (List.pairwise_map.mpr keys.ascending)

/-! ### Results as dictionaries -/

private theorem mem_values_flatten {d : Dictionary} {key : String} {v : Json}
    (h : d.flatten.get? key = some v) : ∃ path, (path, v) ∈ memberPathLeaves d := by
  have hm := KeyMap.mem_of_get?_ofList h
  rw [memberLeaves_eq, List.mem_map] at hm
  obtain ⟨e, he, hv⟩ := hm
  cases hv
  exact ⟨e.1, he⟩

/-- What a member of a flat result is made of. -/
theorem reconcileFlat_member {keys : Extracted} {d : Dictionary} {options : MergeOptions}
    {P : Json → Prop} (hs : ∀ s, P (.string s)) (hn : P .null)
    (hd : ∀ e ∈ memberPathLeaves d, P e.2) :
    ∀ e ∈ (reconcileFlat keys d options).dictionary, P e.2 := by
  have flattened {key : String} {v : Json} (h : d.flatten.get? key = some v) : P v := by
    obtain ⟨path, hm⟩ := mem_values_flatten h
    exact hd _ hm
  have settled (key : String) {v : Json} (h : P v) : P (options.settle key v) := by
    rw [MergeOptions.settle]
    split
    · rcases options.emptyValue_cases key with ⟨s, he⟩ | he
      · exact he ▸ hs s
      · exact he ▸ hn
    · exact h
  rintro ⟨key, v⟩ he
  have hg := (Members.get?_eq_some_iff
    (KeyMap.nodup_of_ascending (ascending_reconcileFlat keys d options)) key v).mpr he
  rw [get?_reconcileFlat] at hg
  cases hk : keys.get? key with
  | some text =>
    rw [hk] at hg
    cases hg
    apply settled
    rw [carriedOver]
    cases hp : d.flatten.get? key with
    | none => exact hs text
    | some v => exact flattened hp
  | none =>
    rw [hk] at hg
    simp only at hg
    split at hg
    · exact flattened hg
    · cases hg

/-- A flat result is flat. -/
theorem isFlat_reconcileFlat (keys : Extracted) (d : Dictionary) (options : MergeOptions) :
    IsFlat (reconcileFlat keys d options).dictionary :=
  reconcileFlat_member (P := fun v ↦ v.isObject = false) (fun _ ↦ rfl) rfl
    fun _ he ↦ isObject_of_mem_memberPathLeaves d he

/-- What objects have by their distinct keys, and texts and null have, holds everywhere in a result
if it holds everywhere in the dictionary. -/
theorem everywhere_reconcile {p : Json → Bool}
    (hobj : ∀ members, (members.map Prod.fst).Nodup → p (.object members) = true)
    (hs : ∀ s, p (.string s) = true) (hn : p .null = true) (keys : Extracted) {d : Dictionary}
    (hd : (Json.object d).everywhere p = true) (options : MergeOptions) :
    (Json.object (reconcile keys d options).dictionary).everywhere p = true := by
  rw [reconcile]
  split
  · rw [dictionary_reconcileNested]
    refine everywhere_mapLeaves hobj _ (.object keys.nest) keys.distinct_nest fun e _ ↦ ?_
    apply options.everywhere_settle hs hn
    cases h : d.lookupLeaf e.1 with
    | none => exact hs ""
    | some v => exact everywhere_of_lookupLeaf hd h
  · rw [everywhere_object_iff]
    refine ⟨hobj _ (KeyMap.nodup_of_ascending (ascending_reconcileFlat keys d options)), ?_⟩
    exact reconcileFlat_member (P := fun v ↦ v.everywhere p = true) hs hn fun _ he ↦
      everywhere_of_mem_memberPathLeaves d ((everywhere_object_iff p d).mp hd).2 he

/-- A result has distinct keys in every object if the dictionary had. -/
theorem distinct_reconcile (keys : Extracted) {d : Dictionary} (hd : (Json.object d).Distinct)
    (options : MergeOptions) : (Json.object (reconcile keys d options).dictionary).Distinct :=
  everywhere_reconcile (fun _ hn ↦ decide_eq_true hn) (fun _ ↦ rfl) rfl keys hd options

/-- A result has integral numbers only if the dictionary had. -/
theorem integral_reconcile (keys : Extracted) {d : Dictionary} (hd : (Json.object d).Integral)
    (options : MergeOptions) : (Json.object (reconcile keys d options).dictionary).Integral :=
  everywhere_reconcile (fun _ _ ↦ rfl) (fun _ ↦ rfl) rfl keys hd options

/-- Every result reads back. -/
theorem readsBack_reconcile (keys : Extracted) {d : Dictionary} (hd : (Json.object d).Distinct)
    (options : MergeOptions) : ReadsBack (reconcile keys d options).dictionary := by
  have hr := distinct_reconcile keys hd options
  rw [reconcile] at hr ⊢
  split
  · next hns =>
    rw [if_pos hns] at hr
    apply readsBack_of_inPlace hr
    · intro e he
      obtain ⟨e', -, rfl⟩ := List.mem_map.mp
        ((memberPathLeaves_reconcileNested keys d options).mem_iff.mp he)
      rw [Extracted.pathText_pathOf]
    · rw [((memberLeaves_reconcileNested keys d options).map Prod.fst).nodup_iff]
      exact KeyMap.nodup_of_ascending (ascending_visible_map keys _)
  · exact readsBack_of_isFlat (isFlat_reconcileFlat keys d options)
      (KeyMap.nodup_of_ascending (ascending_reconcileFlat keys d options))

/-! ### Reconciling again -/

/-- A flat result reconciled again is the same. -/
theorem reconcileFlat_reconcileFlat (keys : Extracted) (d : Dictionary) (options : MergeOptions) :
    (reconcileFlat keys (reconcileFlat keys d options).dictionary options).dictionary =
      (reconcileFlat keys d options).dictionary := by
  have ha (d : Dictionary) := ascending_reconcileFlat keys d options
  apply Members.ext_get? (ha _) (ha d)
  intro key
  have hp := get?_flatten_of_isFlat (isFlat_reconcileFlat keys d options)
    (KeyMap.nodup_of_ascending (ha d)) key
  have hd := get?_reconcileFlat keys d options key
  rw [get?_reconcileFlat keys (reconcileFlat keys d options).dictionary]
  cases hk : keys.get? key with
  | some text =>
    rw [hk] at hd
    rw [hd] at hp ⊢
    simp only [carriedOver, hp, Option.getD_some, MergeOptions.settle_settle]
  | none =>
    rw [hk] at hd
    simp only at hd ⊢
    cases hs : options.safeMode with
    | false => simp [hs] at hd ⊢; exact hd.symm
    | true => rw [if_pos rfl, hp]

/-- A namespaced result reconciled again is the same. -/
theorem reconcileNested_reconcileNested (keys : Extracted) {d : Dictionary}
    (hd : (Json.object d).Distinct) {options : MergeOptions} (hns : options.namespaced = true) :
    (reconcileNested keys (reconcileNested keys d options).dictionary options).dictionary =
      (reconcileNested keys d options).dictionary := by
  have hr := distinct_reconcile keys hd options
  rw [reconcile, if_pos hns] at hr
  rw [dictionary_reconcileNested keys (reconcileNested keys d options).dictionary]
  conv => rhs; rw [dictionary_reconcileNested]
  apply mapMembers_congr
  intro e he
  -- The result has a leaf at every path of the template.
  have hm : (e.1, options.settle (pathText e.1) ((d.lookupLeaf e.1).getD (.string ""))) ∈
      memberPathLeaves (reconcileNested keys d options).dictionary := by
    rw [dictionary_reconcileNested, memberPathLeaves_mapMembers]
    · exact List.mem_map.mpr ⟨e, he, rfl⟩
    · exact fun path _ ↦ options.isObject_settle _ (isObject_getD_lookupLeaf d path)
  rw [lookupLeaf_of_mem hr hm, Option.getD_some, MergeOptions.settle_settle]

/-- A result reconciled again with the same keys is the same. -/
theorem reconcile_reconcile (keys : Extracted) {d : Dictionary} (hd : (Json.object d).Distinct)
    (options : MergeOptions) :
    (reconcile keys (reconcile keys d options).dictionary options).dictionary =
      (reconcile keys d options).dictionary := by
  cases hns : options.namespaced with
  | true =>
    simp only [reconcile, hns, if_true]
    exact reconcileNested_reconcileNested keys hd hns
  | false =>
    simp only [reconcile, hns, Bool.false_eq_true, if_false]
    exact reconcileFlat_reconcileFlat keys d options

/-- A result reconciled again after its keys have been put in order is the same. -/
theorem reconcile_sortMembers_reconcile (keys : Extracted) {d : Dictionary}
    (hd : (Json.object d).Distinct) (options : MergeOptions) :
    (reconcile keys (sortMembers (sortValues (reconcile keys d options).dictionary))
      options).dictionary = (reconcile keys d options).dictionary := by
  conv => rhs; rw [← reconcile_reconcile keys hd options]
  cases hns : options.namespaced with
  | true =>
    simp only [reconcile, hns, if_true]
    generalize (reconcileNested keys d options).dictionary = result
    rw [dictionary_reconcileNested, dictionary_reconcileNested]
    simp only [lookupLeaf_sortMembers]
  | false =>
    simp only [reconcile, hns, Bool.false_eq_true, if_false]
    have hsort := sortKeys_object_of_leaves (ascending_reconcileFlat keys d options)
      (isFlat_reconcileFlat keys d options)
    rw [Json.object.inj hsort]

end Dictionary

end KeyHarvest
