import KeyHarvest.Proofs.Dictionary.Depth
import KeyHarvest.Proofs.Dictionary.Insertion

/-!
# Nesting keys and flattening them again

Nesting loses nothing but the shadowed keys: flattened, the tree lists the other keys with their
default texts. The shadowed keys are those that another key continues after a dot, as far as both
divide into segments. While the tree grows every path at which a text is put is vacant, so no text
and no object gives way to another (`flatten_nest`).
-/

namespace KeyHarvest

open Json

/-- No piece of a key between dots is empty. -/
def Segmented (key : String) : Prop :=
  "" ∉ Text.divide '.' key

instance (key : String) : Decidable (Segmented key) :=
  inferInstanceAs (Decidable ("" ∉ Text.divide '.' key))

private theorem segments?_eq_some_iff_segmented (key : String) (path : List String) :
    segments? key = some path ↔ Segmented key ∧ path = Text.divide '.' key := by
  rw [segments?_eq_divide]
  by_cases h : "" ∈ Text.divide '.' key
  · simp [h, Segmented]
  · simp [h, Segmented, eq_comm]

/-- The pieces of a key begin those of another one that has more if the other goes on after a
dot. -/
theorem divide_prefix_iff (key other : String) :
    (Text.divide '.' key <+: Text.divide '.' other ∧
      Text.divide '.' key ≠ Text.divide '.' other) ↔ ∃ rest, other = key ++ "." ++ rest := by
  constructor
  · rintro ⟨⟨more, hmore⟩, hne⟩
    have hmore' : more ≠ [] := by
      rintro rfl
      exact hne (by rw [← hmore, List.append_nil])
    refine ⟨".".intercalate more, ?_⟩
    have hother : ".".intercalate (Text.divide '.' other) = other := Text.join_divide rfl other
    rw [← hother, ← hmore,
      String.intercalate_append_of_ne_nil (Text.divide_ne_nil _ _) hmore', Text.join_divide rfl]
  · rintro ⟨rest, rfl⟩
    rw [Text.divide_append rfl]
    refine ⟨List.prefix_append _ _, fun h ↦ Text.divide_ne_nil '.' rest ?_⟩
    exact List.self_eq_append_right.mp h

namespace Extracted

/-- A key is shadowed when another key goes on after it with a dot. -/
theorem mem_shadowed_iff_continued (keys : Extracted) (key : String) :
    key ∈ keys.shadowed ↔ key ∈ keys.keys ∧ Segmented key ∧
      ∃ other ∈ keys.keys, Segmented other ∧ ∃ rest, other = key ++ "." ++ rest := by
  simp only [mem_shadowed_iff, segments?_eq_some_iff_segmented, ← divide_prefix_iff]
  constructor
  · rintro ⟨hk, -, ⟨hs, rfl⟩, other, ho, -, ⟨hso, rfl⟩, h⟩
    exact ⟨hk, hs, other, ho, hso, h⟩
  · rintro ⟨hk, hs, other, ho, hso, h⟩
    exact ⟨hk, _, ⟨hs, rfl⟩, other, ho, _, ⟨hso, rfl⟩, h⟩

/-- The shadowed keys are in key order, each listed once. -/
theorem ascending_shadowed (keys : Extracted) : keys.shadowed.Pairwise (· < ·) := by
  have hkeys : keys.keys.Pairwise (· < ·) := List.pairwise_map.mpr keys.ascending
  exact hkeys.sublist List.filter_sublist

/-- The default texts of the keys that are not shadowed, each with its path, in key order. -/
def placed (keys : Extracted) : List (List String × Json) :=
  (keys.entries.filter fun e ↦ e.1 ∉ keys.shadowed).map fun e ↦ (pathOf e.1, .string e.2)

private theorem placed_eq_visible (keys : Extracted) :
    keys.placed = keys.visible.map fun e ↦ (pathOf e.1, .string e.2) := by
  rw [placed, visible_eq_filter]

/-- Flattened, the nested keys are the ones that are not shadowed, with their default texts. -/
theorem entries_flatten_nest (keys : Extracted) :
    keys.nest.flatten.entries =
      (keys.entries.filter fun e ↦ e.1 ∉ keys.shadowed).map fun e ↦ (e.1, .string e.2) := by
  have hleaves : (memberLeaves "" keys.nest).Perm
      (keys.visible.map fun e ↦ (e.1, Json.string e.2)) := by
    rw [memberLeaves_eq]
    refine (keys.memberPathLeaves_nest.map _).trans ?_
    rw [List.map_map]
    refine List.Perm.of_eq (List.map_congr_left fun e _ ↦ ?_)
    exact Prod.ext (pathText_pathOf e.1) rfl
  have hascending : (keys.visible.map fun e ↦ (e.1, Json.string e.2)).Pairwise
      fun a b ↦ a.1 < b.1 :=
    List.pairwise_map.mpr (keys.ascending.sublist List.filter_sublist)
  rw [Dictionary.flatten, KeyMap.ofList_perm hleaves (KeyMap.nodup_of_ascending hascending),
    KeyMap.entries_ofList hascending, visible_eq_filter]

end Extracted

namespace Dictionary

/-- Where every object has members a path that no leaf stands on, above or below is vacant. -/
theorem vacant_of_apart {d : Dictionary} (hd : (Json.object d).Distinct)
    (hf : ∀ e ∈ d, e.2.everywhere isFilled = true) {path : List String} (hne : path ≠ [])
    (h : ∀ e ∈ memberPathLeaves d, Apart e.1 path) : d.Vacant path := by
  have way (above : List String) (v : Json) (habove : above <+: path)
      (hv : d.getAt? above = some v) : v.isObject = true := by
    cases hobject : v.isObject with
    | true => rfl
    | false =>
      have hleaf := (mem_memberPathLeaves_iff hd above v).mpr ⟨hv, hobject⟩
      exact absurd habove (h _ hleaf).1
  refine ⟨?_, way⟩
  cases hv : d.getAt? path with
  | none => rfl
  | some v =>
    -- An object at the path would have a leaf below it.
    obtain ⟨e, he⟩ := exists_mem_pathLeaves v (everywhere_of_getAt? hf hv)
    have hdv : v.Distinct := everywhere_of_getAt? ((everywhere_object_iff _ _).mp hd).2 hv
    obtain ⟨hat, hleaf⟩ := (mem_pathLeaves_iff hdv e.1 e.2).mp he
    have hbelow : d.getAt? (path ++ e.1) = some e.2 := by
      rw [getAt?_append d hne, hv, Option.bind_some, hat]
    have hm := (mem_memberPathLeaves_iff hd (path ++ e.1) e.2).mpr ⟨hbelow, hleaf⟩
    exact absurd (List.prefix_append path e.1) (h _ hm).2

/-- While leaves are put at paths apart each path is vacant when its turn comes. -/
theorem vacant_insertAll {l done todo : List (List String × Json)} {e : List String × Json}
    (hl : ∀ e ∈ l, e.1 ≠ [] ∧ ∃ text, e.2 = .string text)
    (hp : l.Pairwise fun a b ↦ Apart a.1 b.1) (hsplit : l = done ++ e :: todo) :
    (insertAll [] done).Vacant e.1 := by
  have hnil : (Json.object []).Distinct := rfl
  have hdone : ∀ e ∈ done, e.1 ≠ [] ∧ ∃ text, e.2 = .string text :=
    fun e he ↦ hl e (hsplit ▸ List.mem_append_left _ he)
  rw [hsplit, List.pairwise_append] at hp
  have hleaves : (memberPathLeaves (insertAll [] done)).Perm done := by
    refine (memberPathLeaves_insertAll [] done ?_ hp.1 (by simp [memberPathLeaves])).trans ?_
    · intro e he
      obtain ⟨hne, text, htext⟩ := hdone e he
      exact ⟨hne, by rw [htext]; rfl⟩
    · rw [memberPathLeaves, List.append_nil]
  apply vacant_of_apart
  · refine distinct_insertAll hnil done fun e he ↦ ?_
    obtain ⟨-, text, htext⟩ := hdone e he
    rw [htext]
    rfl
  · refine filled_insertAll (by simp) done fun e he ↦ ?_
    obtain ⟨-, text, htext⟩ := hdone e he
    rw [htext]
    rfl
  · exact (hl e (by simp [hsplit])).1
  · exact fun e' he' ↦ hp.2.2 e' (hleaves.mem_iff.mp he') e List.mem_cons_self

end Dictionary

namespace Extracted

open Dictionary

/-- Flattened, the nested keys are the extracted ones without the shadowed ones, with their default
texts. The shadowed keys, in key order and each once, are the extracted keys that another one
continues after a dot, both without an empty segment. The tree grows by one text at a time, always
at a vacant path, and so keeps every value that it has. -/
theorem flatten_nest (keys : Extracted) :
    keys.nest.flatten.entries =
      (keys.entries.filter fun e ↦ e.1 ∉ keys.shadowed).map (fun e ↦ (e.1, .string e.2)) ∧
    keys.shadowed.Pairwise (· < ·) ∧
    (∀ key, key ∈ keys.shadowed ↔ key ∈ keys.keys ∧ Segmented key ∧
      ∃ other ∈ keys.keys, Segmented other ∧ ∃ rest, other = key ++ "." ++ rest) ∧
    keys.nest = insertAll [] keys.placed ∧
    ∀ done e todo, keys.placed = done ++ e :: todo →
      let before := insertAll [] done
      let after := before.insertAt e.1 e.2
      before.Vacant e.1 ∧ before.Keeps after ∧ after = insertAll [] (done ++ [e]) := by
  refine ⟨keys.entries_flatten_nest, keys.ascending_shadowed, keys.mem_shadowed_iff_continued, ?_,
    ?_⟩
  · rw [placed_eq_visible]
    exact keys.nest_eq_insertAll
  · intro done e todo hsplit before after
    have hvacant : before.Vacant e.1 := by
      refine vacant_insertAll ?_ ?_ hsplit
      · intro e he
        obtain ⟨e', -, rfl⟩ := List.mem_map.mp he
        exact ⟨pathOf_ne_nil e'.1, e'.2, rfl⟩
      · rw [placed_eq_visible]
        exact List.pairwise_map.mpr keys.visible_apart
    refine ⟨hvacant, hvacant.keeps_insertAt e.2, ?_⟩
    simp only [after, before, insertAll, List.foldl_append, List.foldl_cons, List.foldl_nil]

/-- A key with an empty segment continues no other. -/
example : shadowed (.ofList [("a", ""), ("a..b", ""), ("x.y", ""), ("x.y.z", "")]) = ["x.y"] := by
  decide +kernel

end Extracted

end KeyHarvest
