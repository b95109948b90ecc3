import KeyHarvest.Dictionary.Nest
import KeyHarvest.Proofs.Dictionary.Leaves
import KeyHarvest.Proofs.Text.Pieces

/-!
# Segments of keys

`segments?` divides a key into non-empty pieces without dots, and joining them gives the key back
(`segments?_eq_some_iff`). So the path at which a key is stored has the key as its text
(`pathText_pathOf`), and a key is shadowed exactly when its segments begin those of another key
(`mem_shadowed_iff`). Keys that are not shadowed are stored apart: the path of none begins that of
another (`eq_of_prefix_pathOf`).
-/

namespace KeyHarvest

/-- A text that can be one segment of a key. -/
def IsSegment (s : String) : Prop :=
  s ≠ "" ∧ '.' ∉ s.toList

/-- A key has segments when no piece of it between dots is empty, and they are these pieces. -/
theorem segments?_eq_divide (key : String) :
    segments? key = if "" ∈ Text.divide '.' key then none else some (Text.divide '.' key) := by
  have hany : (key.toList.splitOn '.').any List.isEmpty = true ↔ "" ∈ Text.divide '.' key := by
    rw [List.any_eq_true, Text.divide, List.mem_map]
    refine exists_congr fun piece ↦ and_congr_right fun _ ↦ ?_
    rw [List.isEmpty_iff, String.ofList_eq_empty_iff]
  by_cases h : "" ∈ Text.divide '.' key
  · rw [if_pos h]
    exact if_pos (hany.mpr h)
  · rw [if_neg h]
    exact if_neg (mt hany.mp h)

/-- The segments of a key are the pieces without dots, none of them empty, that its dots join. -/
theorem segments?_eq_some_iff (key : String) (path : List String) :
    segments? key = some path ↔ path ≠ [] ∧ (∀ s ∈ path, IsSegment s) ∧ dotted path = key := by
  rw [segments?_eq_divide]
  constructor
  · intro h
    split at h
    · cases h
    · next hblank =>
      cases h
      refine ⟨Text.divide_ne_nil _ _, fun s hs ↦ ⟨?_, Text.not_mem_of_mem_divide hs⟩,
        Text.join_divide rfl key⟩
      rintro rfl
      exact hblank hs
  · rintro ⟨hne, hseg, rfl⟩
    have hpieces : Text.divide '.' (dotted path) = path :=
      Text.divide_join rfl hne fun s hs ↦ (hseg s hs).2
    rw [hpieces, if_neg fun hblank ↦ (hseg "" hblank).1 rfl]

private theorem segments?_of_isSegment {s : String} (h : IsSegment s) : segments? s = some [s] := by
  rw [segments?_eq_some_iff]
  exact ⟨by simp, by simpa using h, by simp [dotted]⟩

private theorem segments?_dotted {path : List String} (hne : path ≠ [])
    (h : ∀ s ∈ path, IsSegment s) : segments? (dotted path) = some path :=
  (segments?_eq_some_iff _ _).mpr ⟨hne, h, rfl⟩

/-! ### Texts of paths -/

private theorem pathTextFrom_eq_dotted {above : String} (h : above ≠ "") (path : List String) :
    pathTextFrom above path = dotted (above :: path) := by
  induction path generalizing above with
  | nil => simp [pathTextFrom, dotted]
  | cons s path ih =>
    have hj : joinPath above s = above ++ "." ++ s := by rw [joinPath, if_neg h]
    have hne : above ++ "." ++ s ≠ "" := by simp [String.append_eq_empty_iff, h]
    rw [pathTextFrom, List.foldl_cons, hj]
    exact (ih hne).trans (by
      rw [dotted, dotted, String.intercalate_cons_append, String.intercalate_cons_cons,
        String.append_assoc])

/-- After a key that is not empty the text of a path is its keys joined by dots. -/
theorem pathText_cons {key : String} (h : key ≠ "") (rest : List String) :
    pathText (key :: rest) = dotted (key :: rest) := by
  rw [← pathTextFrom_eq_dotted h]
  rfl

namespace Extracted

/-- The path of a key is not empty. -/
theorem pathOf_ne_nil (key : String) : pathOf key ≠ [] := by
  rw [pathOf]
  cases h : segments? key with
  | none => simp
  | some path => exact ((segments?_eq_some_iff key path).mp h).1

/-- A key that segments are joined to is stored at the path of these. -/
theorem pathOf_dotted {path : List String} (hne : path ≠ []) (h : ∀ s ∈ path, IsSegment s) :
    pathOf (dotted path) = path := by
  rw [pathOf, segments?_dotted hne h, Option.getD_some]

/-- The keys on the path of a key, joined by dots, are the key. -/
theorem dotted_pathOf (key : String) : dotted (pathOf key) = key := by
  rw [pathOf]
  cases h : segments? key with
  | none => simp [dotted]
  | some path => exact ((segments?_eq_some_iff key path).mp h).2.2

/-- The leaf at the path of a key is listed under the key. -/
theorem pathText_pathOf (key : String) : pathText (pathOf key) = key := by
  rw [pathOf]
  cases h : segments? key with
  | none => rfl
  | some path =>
    obtain ⟨hne, hseg, hdot⟩ := (segments?_eq_some_iff key path).mp h
    cases path with
    | nil => exact absurd rfl hne
    | cons s rest => exact (pathText_cons (hseg s List.mem_cons_self).1 rest).trans hdot

private theorem pathOf_injective {key key' : String} (h : pathOf key = pathOf key') :
    key = key' := by
  rw [← pathText_pathOf key, h, pathText_pathOf]

end Extracted

/-! ### Shadowed keys -/

private theorem properPrefixes_cons_cons {α : Type} (a b : α) (rest : List α) :
    properPrefixes (a :: b :: rest) = [a] :: (properPrefixes (b :: rest)).map (a :: ·) := rfl

private theorem mem_properPrefixes_iff {α : Type} (l : List α) (pre : List α) :
    pre ∈ properPrefixes l ↔ pre ≠ [] ∧ pre <+: l ∧ pre ≠ l := by
  induction l generalizing pre with
  | nil =>
    simp only [properPrefixes, List.not_mem_nil, List.prefix_nil, false_iff]
    rintro ⟨hne, rfl, -⟩
    exact hne rfl
  | cons a rest ih =>
    cases pre with
    | nil => cases rest <;> simp [properPrefixes]
    | cons b pre =>
      cases rest with
      | nil =>
        simp only [properPrefixes, List.not_mem_nil, false_iff]
        rintro ⟨-, hp, hne⟩
        obtain ⟨rfl, htail⟩ := List.cons_prefix_cons.mp hp
        cases List.prefix_nil.mp htail
        exact hne rfl
      | cons c rest =>
        rw [properPrefixes_cons_cons, List.mem_cons, List.mem_map, List.cons_prefix_cons]
        constructor
        · rintro (h | ⟨pre', h, he⟩)
          · cases h
            simp
          · cases he
            obtain ⟨-, hp, hne⟩ := (ih pre).mp h
            exact ⟨by simp, ⟨rfl, hp⟩, by simpa using hne⟩
        · rintro ⟨-, ⟨rfl, hp⟩, hne⟩
          by_cases he : pre = []
          · exact .inl (by rw [he])
          · exact .inr ⟨pre, (ih pre).mpr ⟨he, hp, by simpa using hne⟩, rfl⟩

namespace Extracted

private theorem mem_branches_iff (keys : Extracted) (key : String) :
    key ∈ keys.branches ↔ ∃ path, segments? key = some path ∧
      ∃ other ∈ keys.keys, ∃ longer, segments? other = some longer ∧
        path <+: longer ∧ path ≠ longer := by
  rw [branches, List.mem_flatMap]
  constructor
  · rintro ⟨longer, hl, hk⟩
    obtain ⟨other, ho, hs⟩ := List.mem_filterMap.mp hl
    obtain ⟨path, hp, rfl⟩ := List.mem_map.mp hk
    obtain ⟨hne, hpre, hneq⟩ := (mem_properPrefixes_iff longer path).mp hp
    have hseg := ((segments?_eq_some_iff other longer).mp hs).2.1
    exact ⟨path, segments?_dotted hne fun s hm ↦ hseg s (hpre.subset hm), other, ho, longer, hs,
      hpre, hneq⟩
  · rintro ⟨path, hs, other, ho, longer, hl, hpre, hneq⟩
    obtain ⟨hne, -, hdot⟩ := (segments?_eq_some_iff key path).mp hs
    exact ⟨longer, List.mem_filterMap.mpr ⟨other, ho, hl⟩,
      List.mem_map.mpr ⟨path, (mem_properPrefixes_iff longer path).mpr ⟨hne, hpre, hneq⟩, hdot⟩⟩

private theorem isShadowed_iff (keys : Extracted) (key : String) :
    isShadowed keys.branches key = true ↔ key ∈ keys.branches := by
  rw [isShadowed, Bool.and_eq_true, List.contains_iff_mem]
  constructor
  · exact And.right
  · intro h
    obtain ⟨path, hs, -⟩ := (mem_branches_iff keys key).mp h
    exact ⟨by rw [hs]; rfl, h⟩

/-- A key is shadowed when its segments begin those of another key. -/
theorem mem_shadowed_iff (keys : Extracted) (key : String) :
    key ∈ keys.shadowed ↔ key ∈ keys.keys ∧ ∃ path, segments? key = some path ∧
      ∃ other ∈ keys.keys, ∃ longer, segments? other = some longer ∧
        path <+: longer ∧ path ≠ longer := by
  rw [shadowed, List.mem_filter, isShadowed_iff, mem_branches_iff]

/-- The path of a key that is not shadowed begins the path of no other key. -/
theorem eq_of_prefix_pathOf {keys : Extracted} {key other : String} (hk : key ∈ keys.keys)
    (hs : key ∉ keys.shadowed) (ho : other ∈ keys.keys) (hp : pathOf key <+: pathOf other) :
    key = other := by
  cases hsk : segments? key with
  | none =>
    have hpk : pathOf key = [key] := by rw [pathOf, hsk]; rfl
    cases hso : segments? other with
    | none =>
      have hpo : pathOf other = [other] := by rw [pathOf, hso]; rfl
      rw [hpk, hpo] at hp
      simpa using hp
    | some longer =>
      -- The first segment of the other key is no key that stays whole.
      have hpo : pathOf other = longer := by rw [pathOf, hso]; rfl
      have hm : key ∈ longer := by
        rw [hpk, hpo] at hp
        exact hp.subset (List.mem_singleton_self key)
      have hseg := ((segments?_eq_some_iff other longer).mp hso).2.1 key hm
      rw [segments?_of_isSegment hseg] at hsk
      cases hsk
  | some path =>
    obtain ⟨hne, hseg, -⟩ := (segments?_eq_some_iff key path).mp hsk
    have hpk : pathOf key = path := by rw [pathOf, hsk]; rfl
    cases hso : segments? other with
    | none =>
      have hpo : pathOf other = [other] := by rw [pathOf, hso]; rfl
      rw [hpk, hpo] at hp
      cases path with
      | nil => exact absurd rfl hne
      | cons s rest =>
        obtain ⟨rfl, -⟩ := List.cons_prefix_cons.mp hp
        rw [segments?_of_isSegment (hseg s List.mem_cons_self)] at hso
        cases hso
    | some longer =>
      have hpo : pathOf other = longer := by rw [pathOf, hso]; rfl
      rw [hpk, hpo] at hp
      by_cases he : path = longer
      · exact pathOf_injective (by rw [hpk, hpo, he])
      · exact absurd ((mem_shadowed_iff keys key).mpr
          ⟨hk, path, hsk, other, ho, longer, hso, hp, he⟩) hs

end Extracted

end KeyHarvest
