import KeyHarvest.Proofs.Dictionary.Nest

/-!
# Leaves found for keys

Namespaced reconciliation looks for the leaf of a key at the path of the key and then under the
whole key, while flattening lists leaves under the texts of their paths. A dictionary reads back
(`ReadsBack`) when both give every key the same leaf. Flat dictionaries do (`readsBack_of_isFlat`),
and so do dictionaries whose leaves all stand at the paths of their keys (`readsBack_of_inPlace`);
any dictionary need not.
-/

namespace KeyHarvest.Dictionary

open Json

/-- No value of the dictionary is an object. -/
def IsFlat (d : Dictionary) : Prop :=
  ∀ e ∈ d, e.2.isObject = false

instance (d : Dictionary) : Decidable d.IsFlat :=
  inferInstanceAs (Decidable (∀ e ∈ d, e.2.isObject = false))

/-- Every leaf stands at the path at which its key is stored. -/
def InPlace (d : Dictionary) : Prop :=
  ∀ e ∈ memberPathLeaves d, e.1 = Extracted.pathOf (pathText e.1)

/-- The leaf that namespaced reconciliation takes for a key. -/
def found? (d : Dictionary) (key : String) : Option Json :=
  d.lookupLeaf (Extracted.pathOf key)

/-- The lookup by path finds for every key the leaf that flattening lists under it. -/
def ReadsBack (d : Dictionary) : Prop :=
  ∀ key, d.found? key = d.flatten.get? key

/-! ### Leaves found -/

private theorem leaf?_eq_some_iff (value : Option Json) (v : Json) :
    leaf? value = some v ↔ value = some v ∧ v.isObject = false := by
  rw [leaf?, Option.filter_eq_some_iff, Bool.not_eq_true']

private theorem leaf?_eq_none_iff (value : Option Json) :
    leaf? value = none ↔ ∀ v, value = some v → v.isObject = true := by
  simp [leaf?, Option.filter_eq_none_iff]

/-- What is looked up is the leaf at the path, or else the one under the text of the path. -/
theorem lookupLeaf_eq_some_iff (d : Dictionary) (path : List String) (v : Json) :
    d.lookupLeaf path = some v ↔ v.isObject = false ∧ (d.getAt? path = some v ∨
      (∀ w, d.getAt? path = some w → w.isObject = true) ∧ d.get? (dotted path) = some v) := by
  rw [lookupLeaf, Option.or_eq_some_iff, leaf?_eq_some_iff, leaf?_eq_some_iff, leaf?_eq_none_iff]
  constructor
  · rintro (⟨hv, hl⟩ | ⟨hn, hv, hl⟩)
    · exact ⟨hl, .inl hv⟩
    · exact ⟨hl, .inr ⟨hn, hv⟩⟩
  · rintro ⟨hl, hv | ⟨hn, hv⟩⟩
    · exact .inl ⟨hv, hl⟩
    · exact .inr ⟨hn, hv, hl⟩

/-- What is found for a key stands at its path, or under the whole key if no leaf is there. -/
theorem found?_eq_some_iff (d : Dictionary) (key : String) (v : Json) :
    d.found? key = some v ↔ v.isObject = false ∧ (d.getAt? (Extracted.pathOf key) = some v ∨
      (∀ w, d.getAt? (Extracted.pathOf key) = some w → w.isObject = true) ∧
        d.get? key = some v) := by
  rw [found?, lookupLeaf_eq_some_iff, Extracted.dotted_pathOf]

/-- What is looked up as a leaf is no object. -/
theorem isObject_of_lookupLeaf {d : Dictionary} {path : List String} {v : Json}
    (h : d.lookupLeaf path = some v) : v.isObject = false :=
  ((lookupLeaf_eq_some_iff d path v).mp h).1

/-- A leaf is what is looked up at its path. -/
theorem lookupLeaf_of_mem {d : Dictionary} (hd : (Json.object d).Distinct) {path : List String}
    {v : Json} (h : (path, v) ∈ memberPathLeaves d) : d.lookupLeaf path = some v := by
  obtain ⟨hv, hl⟩ := (mem_memberPathLeaves_iff hd path v).mp h
  exact (lookupLeaf_eq_some_iff d path v).mpr ⟨hl, .inl hv⟩

/-- The leaf found for a key is listed under the key. -/
theorem mem_memberLeaves_of_found? {d : Dictionary} (hd : (Json.object d).Distinct) {key : String}
    {v : Json} (h : d.found? key = some v) : (key, v) ∈ memberLeaves "" d := by
  obtain ⟨hl, hv⟩ := (found?_eq_some_iff d key v).mp h
  rw [memberLeaves_eq, List.mem_map]
  rcases hv with hv | ⟨-, hv⟩
  · refine ⟨(Extracted.pathOf key, v), (mem_memberPathLeaves_iff hd _ v).mpr ⟨hv, hl⟩, ?_⟩
    exact Prod.ext (Extracted.pathText_pathOf key) rfl
  · exact ⟨([key], v), (mem_memberPathLeaves_iff hd _ v).mpr ⟨hv, hl⟩, rfl⟩

/-- What holds everywhere in a dictionary holds everywhere in the leaf looked up in it. -/
theorem everywhere_of_lookupLeaf {p : Json → Bool} {d : Dictionary}
    (hd : (Json.object d).everywhere p = true) {path : List String} {v : Json}
    (h : d.lookupLeaf path = some v) : v.everywhere p = true := by
  have hm := ((everywhere_object_iff p d).mp hd).2
  obtain ⟨-, hv | ⟨-, hv⟩⟩ := (lookupLeaf_eq_some_iff d path v).mp h
  · exact everywhere_of_getAt? hm hv
  · exact hm _ (Members.mem_of_get? hv)

/-! ### Flat dictionaries -/

private theorem memberPathLeaves_of_isFlat {d : Dictionary} (hf : d.IsFlat) :
    memberPathLeaves d = d.map fun e ↦ ([e.1], e.2) := by
  induction d with
  | nil => rfl
  | cons e rest ih =>
    obtain ⟨hv, hr⟩ := List.forall_mem_cons.mp hf
    rw [memberPathLeaves, pathLeaves_of_leaf hv, ih hr]
    rfl

private theorem memberLeaves_of_isFlat {d : Dictionary} (hf : d.IsFlat) :
    memberLeaves "" d = d := by
  rw [memberLeaves_eq, memberPathLeaves_of_isFlat hf, List.map_map]
  exact List.map_id d

/-- Flattening a flat dictionary changes no binding. -/
theorem get?_flatten_of_isFlat {d : Dictionary} (hf : d.IsFlat) (hd : (d.map Prod.fst).Nodup)
    (key : String) : d.flatten.get? key = Members.get? d key := by
  rw [flatten, memberLeaves_of_isFlat hf, KeyMap.get?_ofList_of_nodup hd,
    Members.get?_eq_firstValue]

/-! ### Reading back -/

/-- Nothing is below a leaf, so in a flat dictionary a path that leads anywhere is one key. -/
theorem get?_of_getAt?_pathOf {d : Dictionary} (hf : d.IsFlat) {key : String} {v : Json}
    (h : d.getAt? (Extracted.pathOf key) = some v) : Members.get? d key = some v := by
  cases hp : Extracted.pathOf key with
  | nil => exact absurd hp (Extracted.pathOf_ne_nil key)
  | cons first rest =>
    rw [hp, getAt?_cons, Option.bind_eq_some_iff] at h
    obtain ⟨w, hg, hat⟩ := h
    cases rest with
    | nil =>
      cases hat
      rw [← Extracted.pathText_pathOf key, hp]
      exact hg
    | cons next rest =>
      have hw := hf (first, w) (Members.mem_of_get? hg)
      cases w with
      | object members => cases hw
      | null | bool | number | string | array => cases hat

/-- In a flat dictionary a key is found whole if it is found at all. -/
theorem readsBack_of_isFlat {d : Dictionary} (hf : d.IsFlat) (hd : (d.map Prod.fst).Nodup) :
    d.ReadsBack := by
  intro key
  rw [get?_flatten_of_isFlat hf hd]
  ext v
  rw [found?_eq_some_iff]
  constructor
  · rintro ⟨-, hv | ⟨-, hv⟩⟩
    · exact get?_of_getAt?_pathOf hf hv
    · exact hv
  · intro hv
    refine ⟨hf (key, v) (Members.mem_of_get? hv), ?_⟩
    cases hat : d.getAt? (Extracted.pathOf key) with
    | none => exact .inr ⟨by simp, hv⟩
    | some w =>
      rw [get?_of_getAt?_pathOf hf hat] at hv
      exact .inl hv

/-- A dictionary whose leaves stand at the paths of their keys reads back. -/
theorem readsBack_of_inPlace {d : Dictionary} (hd : (Json.object d).Distinct) (hp : d.InPlace)
    (hn : ((memberLeaves "" d).map Prod.fst).Nodup) : d.ReadsBack := by
  intro key
  rw [flatten, KeyMap.get?_ofList_of_nodup hn]
  ext v
  rw [KeyMap.firstValue_eq_some_iff hn]
  constructor
  · exact mem_memberLeaves_of_found? hd
  · intro hm
    rw [memberLeaves_eq, List.mem_map] at hm
    obtain ⟨⟨path, w⟩, hm, he⟩ := hm
    cases he
    have hpath : Extracted.pathOf (pathTextFrom "" path) = path := (hp (path, w) hm).symm
    rw [found?, hpath]
    exact lookupLeaf_of_mem hd hm

/-! ### Lookup in sorted dictionaries -/

private theorem at?_sortKeys (v : Json) (path : List String) :
    v.sortKeys.at? path = (v.at? path).map sortKeys := by
  induction path generalizing v with
  | nil => rfl
  | cons key rest ih =>
    cases v with
    | object members =>
      rw [sortKeys, at?_object _ (List.cons_ne_nil _ _), at?_object _ (List.cons_ne_nil _ _),
        getAt?_cons, getAt?_cons, get?_sortMembers, get?_sortValues]
      cases Members.get? members key with
      | none => rfl
      | some w => exact ih w
    | null | bool | number | string | array => rfl

/-- Sorting a dictionary does not change which leaf is looked up. -/
theorem lookupLeaf_sortMembers (d : Dictionary) (path : List String) :
    lookupLeaf (sortMembers (sortValues d)) path = d.lookupLeaf path := by
  have leaf (value : Option Json) : leaf? (value.map sortKeys) = leaf? value := by
    cases value with
    | none => rfl
    | some v => cases v <;> rfl
  have hat : getAt? (sortMembers (sortValues d)) path = (d.getAt? path).map sortKeys := by
    cases path with
    | nil => rfl
    | cons key rest => exact at?_sortKeys (.object d) (key :: rest)
  rw [lookupLeaf, hat, leaf, get?_sortMembers, get?_sortValues, leaf, lookupLeaf]

end KeyHarvest.Dictionary
