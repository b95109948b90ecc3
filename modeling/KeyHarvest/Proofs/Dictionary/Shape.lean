import KeyHarvest.Proofs.Dictionary.Counting
import KeyHarvest.Proofs.Dictionary.Depth

/-!
# The shape of namespaced results

A namespaced result has the tree of the extracted keys with other leaves, so it has the same keys in
the same order, and no path leads to an empty object. Its leaves are what the dictionary before
supplies for the keys that are not shadowed, where the empty text gives way to what the locale
prescribes (`reconcile_shape`).
-/

namespace KeyHarvest

open Json

/-- What the keys that are not shadowed give, in key order. -/
theorem Extracted.map_visible {β : Type} (keys : Extracted) (f : String → β) :
    (keys.visible.map fun e ↦ f e.1) = (keys.keys.filter fun k ↦ k ∉ keys.shadowed).map f := by
  rw [keys.visible_eq_filter, KeyMap.keys, List.filter_map, List.map_map]
  rfl

namespace Dictionary

/-- The keys of a dictionary, with null in place of every leaf. -/
def outline (d : Dictionary) : Dictionary :=
  mapMembers (fun _ _ ↦ .null) d

/-- What a dictionary supplies for a key: the leaf at the path of the key, else the one under the
whole key, else the empty text. -/
def supplied (d : Dictionary) (key : String) : Json :=
  ((leaf? (d.getAt? (Extracted.pathOf key))).or (leaf? (d.get? key))).getD (.string "")

private theorem settledLeaf_eq (d : Dictionary) (options : MergeOptions) (key : String) :
    d.settledLeaf options key = options.settle key (d.supplied key) := by
  rw [settledLeaf, found?, lookupLeaf, Extracted.dotted_pathOf, supplied]

/-! ### Keys and objects -/

private theorem outline_mapMembers {f : List String → Json → Json}
    (hf : ∀ path v, (f path v).isObject = false) (d : Dictionary) :
    outline (mapMembers f d) = outline d :=
  mapMembers_mapMembers f _ hf d

private theorem getAt?_mapMembers {f : List String → Json → Json}
    (hf : ∀ path v, (f path v).isObject = false) (d : Dictionary) (path : List String) :
    getAt? (mapMembers f d) path =
      (d.getAt? path).map (mapLeaves fun below ↦ f (path ++ below)) := by
  cases path with
  | nil => rfl
  | cons key rest => exact at?_mapLeaves f hf (.object d) (key :: rest)

/-- Only an empty object becomes one when leaves are replaced by leaves. -/
theorem eq_of_mapLeaves_eq_object_nil {f : List String → Json → Json}
    (hf : ∀ path v, (f path v).isObject = false) {v : Json} (h : mapLeaves f v = .object []) :
    v = .object [] := by
  cases v with
  | object members =>
    cases members with
    | nil => rfl
    | cons e rest =>
      rw [mapLeaves, mapMembers] at h
      cases h
  | null | bool | number | string | array =>
    have hleaf := congrArg isObject h
    rw [mapLeaves_of_leaf f rfl, hf] at hleaf
    cases hleaf

private theorem isObject_settle_lookupLeaf (d : Dictionary) (options : MergeOptions)
    (path : List String) (_ : Json) : (options.settle (pathText path)
      ((d.lookupLeaf path).getD (.string ""))).isObject = false :=
  options.isObject_settle _ (isObject_getD_lookupLeaf d path)

/-- A namespaced result has the keys of the tree. -/
theorem outline_reconcileNested (keys : Extracted) (d : Dictionary) (options : MergeOptions) :
    (reconcileNested keys d options).dictionary.outline = keys.nest.outline := by
  rw [dictionary_reconcileNested]
  exact outline_mapMembers (isObject_settle_lookupLeaf d options) keys.nest

/-- No path leads to an empty object in a namespaced result. -/
theorem getAt?_reconcileNested_ne (keys : Extracted) (d : Dictionary) (options : MergeOptions)
    (path : List String) :
    (reconcileNested keys d options).dictionary.getAt? path ≠ some (.object []) := by
  intro h
  rw [dictionary_reconcileNested, getAt?_mapMembers (isObject_settle_lookupLeaf d options),
    Option.map_eq_some_iff] at h
  obtain ⟨v, hv, h⟩ := h
  have hnil := eq_of_mapLeaves_eq_object_nil
    (fun below ↦ isObject_settle_lookupLeaf d options (path ++ below)) h
  have hfilled := everywhere_of_getAt? keys.filled_nest hv
  rw [hnil] at hfilled
  cases hfilled

/-! ### Values -/

/-- Flattened, a namespaced result lists what is supplied for the keys that are not shadowed. -/
theorem entries_flatten_reconcileNested_eq (keys : Extracted) (d : Dictionary)
    (options : MergeOptions) :
    (flatten (reconcileNested keys d options).dictionary).entries =
      (keys.keys.filter fun k ↦ k ∉ keys.shadowed).map
        fun k ↦ (k, options.settle k (d.supplied k)) := by
  rw [entries_flatten_reconcileNested, keys.map_visible fun k ↦ (k, d.settledLeaf options k)]
  simp only [settledLeaf_eq]

/-- The entries without text are the empty text and null. -/
theorem isEmptyEntry_iff (v : Json) : v.isEmptyEntry = true ↔ v = .string "" ∨ v = .null := by
  cases v <;> simp [isEmptyEntry]

/-- Where nothing takes the place of the empty text every value is settled. -/
theorem settle_default (key : String) (v : Json) : MergeOptions.settle {} key v = v := by
  rw [MergeOptions.settle]
  split
  · next h => exact ((MergeOptions.isBlank_iff v).mp h).symm
  · rfl

/-- Before empty texts give way the result is the one in which nothing takes their place. -/
theorem overlayMembers_nest (keys : Extracted) (d : Dictionary) :
    overlayMembers d [] keys.nest = (reconcileNested keys d {}).dictionary := by
  rw [dictionary_reconcileNested, overlayMembers_eq]
  simp only [settle_default, List.nil_append]

/-- The empty entries are counted before empty texts give way. -/
theorem empty_reconcileNested (keys : Extracted) (d : Dictionary) (options : MergeOptions) :
    (reconcileNested keys d options).stats.empty =
      (keys.keys.filter fun k ↦ k ∉ keys.shadowed).countP
        fun k ↦ d.supplied k = .string "" ∨ d.supplied k = .null := by
  have hcount : (reconcileNested keys d options).stats.empty =
      (flatten (reconcileNested keys d {}).dictionary).values.countP isEmptyEntry := by
    rw [← overlayMembers_nest, reconcileNested, statsNested_eq]
  rw [hcount, KeyMap.values, entries_flatten_reconcileNested_eq, List.map_map, List.countP_map]
  apply List.countP_congr
  intro k _
  simp [settle_default, isEmptyEntry_iff]

/-- A namespaced result has the keys of the tree in the order of the tree, and no path leads to an
empty object; an array is a leaf, taken over with all that it holds. Flattened, the result has the
extracted keys that are not shadowed, each with what the dictionary supplies for it; the empty text
gives way to the key in the default locale, and to null in others that ask for it. The entries
without text are counted before it does. -/
theorem reconcile_shape (keys : Extracted) (d : Dictionary) {options : MergeOptions}
    (h : options.namespaced = true) :
    let result := reconcile keys d options
    let visible := keys.keys.filter fun k ↦ k ∉ keys.shadowed
    result.dictionary.outline = keys.nest.outline ∧
      (∀ path, result.dictionary.getAt? path ≠ some (.object [])) ∧
      result.dictionary.flatten.entries = visible.map (fun k ↦
        (k, if d.supplied k = .string "" then
            if options.isDefaultLocale then .string k
            else if options.nullOnEmpty then .null
            else .string ""
          else d.supplied k)) ∧
      result.stats.empty =
        visible.countP fun k ↦ d.supplied k = .string "" ∨ d.supplied k = .null := by
  intro result visible
  have hresult : result = reconcileNested keys d options := if_pos h
  rw [hresult]
  refine ⟨outline_reconcileNested keys d options, getAt?_reconcileNested_ne keys d options, ?_,
    empty_reconcileNested keys d options⟩
  rw [entries_flatten_reconcileNested_eq]
  simp only [MergeOptions.settle, MergeOptions.isBlank_iff]
  rfl

/-- An object at the path of a key is passed over for the text under the whole key, a key with an
empty segment shows itself, and null stays null. -/
theorem reconcile_shape_menu :
    let keys : Extracted := .ofList [("a", ""), ("a.b", "t"), ("a.c", ""), ("e..f", "")]
    let d : Dictionary := [("a", .object [("b", .object [("x", .bool true)]), ("c", .null)]),
      ("a.b", .string "whole"), ("old", .array [])]
    let options : MergeOptions := { namespaced := true, isDefaultLocale := true }
    let result := reconcile keys d options
    options.namespaced = true ∧
      result.dictionary.outline =
        [("a", .object [("b", .null), ("c", .null)]), ("e..f", .null)] ∧
      result.dictionary.getAt? ["a"] ≠ some (.object []) ∧
      result.dictionary.flatten.entries =
        [("a.b", .string "whole"), ("a.c", .null), ("e..f", .string "e..f")] ∧
      result.stats.empty = 2 := by
  intro keys d options result
  have h : options.namespaced = true := rfl
  obtain ⟨hkeys, hfilled, hentries, hempty⟩ := reconcile_shape keys d h
  refine ⟨h, hkeys.trans ?_, hfilled ["a"], hentries.trans ?_, hempty.trans ?_⟩ <;> decide +kernel

end Dictionary

end KeyHarvest
