import KeyHarvest.Proofs.Apart
import KeyHarvest.Proofs.Dictionary.Segments

/-!
# Leaves of nested keys

Putting a leaf at a path that neither begins nor continues the path of another leaf adds it and
keeps all others (`memberPathLeaves_insertAt`). The keys that are not shadowed have such paths, so
nesting them loses none: the leaves of the tree are their default texts at their paths
(`memberPathLeaves_nest`).
-/

namespace KeyHarvest

open Json

namespace Dictionary

/-- Put values at paths one after the other. -/
def insertAll (d : Dictionary) (l : List (List String × Json)) : Dictionary :=
  l.foldl (fun (tree : Dictionary) e ↦ tree.insertAt e.1 e.2) d

/-- A value is put at a longer path in the object of the first key. -/
theorem insertAt_cons (d : Dictionary) (key : String) {rest : List String}
    (h : rest ≠ []) (v : Json) :
    d.insertAt (key :: rest) v = d.set key (.object (insertAt (branch (d.get? key)) rest v)) := by
  cases rest with
  | nil => exact absurd rfl h
  | cons key' rest => rfl

/-- A value that has one leaf more than the value it stands for adds that leaf. -/
theorem memberPathLeaves_set (d : Dictionary) (key : String) {new v : Json} {path : List String}
    (h : (pathLeaves new).Perm ((path, v) :: (d.get? key).elim [] pathLeaves)) :
    (memberPathLeaves (d.set key new)).Perm ((key :: path, v) :: memberPathLeaves d) := by
  have hmap := h.map fun e ↦ (key :: e.1, e.2)
  cases hg : d.get? key with
  | none =>
    rw [hg] at hmap
    rw [Members.set_of_get?_eq_none hg, memberPathLeaves_append, memberPathLeaves,
      memberPathLeaves, List.append_nil]
    exact (List.Perm.append_left _ hmap).trans List.perm_append_comm
  | some old =>
    obtain ⟨front, back, hsplit, hset⟩ := Members.exists_of_get?_eq_some hg
    rw [hg] at hmap
    rw [hset, hsplit, memberPathLeaves_append, memberPathLeaves_append, memberPathLeaves,
      memberPathLeaves]
    exact (List.Perm.append_left _ (List.Perm.append_right _ hmap)).trans List.perm_middle

/-- A leaf put at a path apart from those of all leaves is added to them. -/
theorem memberPathLeaves_insertAt (d : Dictionary) {path : List String} {v : Json}
    (hne : path ≠ []) (hv : v.isObject = false)
    (hfree : ∀ e ∈ memberPathLeaves d, Apart e.1 path) :
    (memberPathLeaves (d.insertAt path v)).Perm ((path, v) :: memberPathLeaves d) := by
  induction path generalizing d with
  | nil => exact absurd rfl hne
  | cons key rest ih =>
    -- A leaf of the value before is one of the dictionary, below the key.
    have hbelow {old : Json} (hg : d.get? key = some old) :
        ∀ e ∈ pathLeaves old, Apart e.1 rest := by
      rintro ⟨p, w⟩ hm
      have hl : (key :: p, w) ∈ memberPathLeaves d :=
        (mem_memberPathLeaves _ _ _).mpr ⟨key, p, old, rfl, Members.mem_of_get? hg, hm⟩
      exact (apart_cons_iff key p rest).mp (hfree _ hl)
    by_cases hr : rest = []
    · subst hr
      rw [insertAt]
      apply memberPathLeaves_set
      rw [pathLeaves_of_leaf hv]
      cases hg : d.get? key with
      | none => exact .refl _
      | some old =>
        have hnone : pathLeaves old = [] := List.eq_nil_iff_forall_not_mem.mpr
          fun e he ↦ (hbelow hg e he).2 List.nil_prefix
        rw [Option.elim_some, hnone]
    · rw [insertAt_cons d key hr]
      apply memberPathLeaves_set
      cases hg : d.get? key with
      | none => exact ih [] hr (by simp [memberPathLeaves])
      | some old =>
        cases hold : old.isObject with
        | false =>
          have hm : ([], old) ∈ pathLeaves old := by
            rw [pathLeaves_of_leaf hold]
            exact List.mem_singleton_self _
          exact absurd List.nil_prefix (hbelow hg _ hm).1
        | true =>
          cases old with
          | object members => exact ih members hr (hbelow hg)
          | null | bool | number | string | array => cases hold

/-- Leaves put one after the other at paths apart are all there in the end. -/
theorem memberPathLeaves_insertAll (d : Dictionary) (l : List (List String × Json))
    (hl : ∀ e ∈ l, e.1 ≠ [] ∧ e.2.isObject = false) (hp : l.Pairwise fun a b ↦ Apart a.1 b.1)
    (hfree : ∀ e ∈ memberPathLeaves d, ∀ e' ∈ l, Apart e.1 e'.1) :
    (memberPathLeaves (d.insertAll l)).Perm (l ++ memberPathLeaves d) := by
  induction l generalizing d with
  | nil => exact List.Perm.refl _
  | cons e l ih =>
    rw [List.forall_mem_cons] at hl
    rw [List.pairwise_cons] at hp
    have hins : (memberPathLeaves (d.insertAt e.1 e.2)).Perm (e :: memberPathLeaves d) :=
      memberPathLeaves_insertAt d hl.1.1 hl.1.2 fun e' he' ↦ hfree e' he' e List.mem_cons_self
    refine (ih (d.insertAt e.1 e.2) hl.2 hp.2 ?_).trans ?_
    · intro e' he' e'' he''
      rcases List.mem_cons.mp (hins.mem_iff.mp he') with rfl | he'
      · exact hp.1 e'' he''
      · exact hfree e' he' e'' (List.mem_cons_of_mem _ he'')
    · exact (List.Perm.append_left l hins).trans List.perm_middle

private theorem distinct_branch {d : Dictionary} (hd : (Json.object d).Distinct) (key : String) :
    (Json.object (branch (d.get? key))).Distinct := by
  cases hg : d.get? key with
  | none => rfl
  | some old =>
    have hold : old.Distinct := ((distinct_object_iff d).mp hd).2 _ (Members.mem_of_get? hg)
    cases old with
    | object members => exact hold
    | null | bool | number | string | array => rfl

/-- Putting a value at a path keeps keys distinct. -/
theorem distinct_insertAt {d : Dictionary} (hd : (Json.object d).Distinct) (path : List String)
    {v : Json} (hv : v.Distinct) : (Json.object (d.insertAt path v)).Distinct := by
  induction path generalizing d with
  | nil => exact hd
  | cons key rest ih =>
    by_cases hr : rest = []
    · rw [hr, insertAt]
      exact Members.distinct_set hd key hv
    · rw [insertAt_cons d key hr]
      exact Members.distinct_set hd key (ih (distinct_branch hd key))

/-- Putting values at paths leaves the keys of objects distinct. -/
theorem distinct_insertAll {d : Dictionary} (hd : (Json.object d).Distinct)
    (l : List (List String × Json)) (hl : ∀ e ∈ l, e.2.Distinct) :
    (Json.object (d.insertAll l)).Distinct := by
  induction l generalizing d with
  | nil => exact hd
  | cons e l ih =>
    rw [List.forall_mem_cons] at hl
    exact ih (distinct_insertAt hd e.1 hl.1) hl.2

end Dictionary

namespace Extracted

/-- The entries whose keys are not shadowed. -/
def visible (keys : Extracted) : List (String × String) :=
  keys.entries.filter fun e ↦ !isShadowed keys.branches e.1

private theorem mem_visible_iff (keys : Extracted) (e : String × String) :
    e ∈ keys.visible ↔ e ∈ keys.entries ∧ e.1 ∉ keys.shadowed := by
  rw [visible, List.mem_filter, Bool.not_eq_true', shadowed, List.mem_filter, not_and,
    Bool.not_eq_true]
  constructor
  · exact fun h ↦ ⟨h.1, fun _ ↦ h.2⟩
  · exact fun h ↦ ⟨h.1, h.2 (List.mem_map.mpr ⟨e, h.1, rfl⟩)⟩

/-- The visible keys are those that are not shadowed. -/
theorem visible_eq_filter (keys : Extracted) :
    keys.visible = keys.entries.filter fun e ↦ e.1 ∉ keys.shadowed := by
  have h (e : String × String) := mem_visible_iff keys e
  simp only [visible, List.mem_filter, and_congr_right_iff] at h
  apply List.filter_congr
  intro e he
  rw [Bool.eq_iff_iff, h e he, decide_eq_true_iff]

/-- The visible keys are the extracted ones without the shadowed ones. -/
theorem mem_visible_keys_iff (keys : Extracted) (key : String) :
    key ∈ keys.visible.map Prod.fst ↔ key ∈ keys.keys ∧ key ∉ keys.shadowed := by
  rw [List.mem_map]
  constructor
  · rintro ⟨e, he, rfl⟩
    obtain ⟨hm, hs⟩ := (mem_visible_iff keys e).mp he
    exact ⟨List.mem_map.mpr ⟨e, hm, rfl⟩, hs⟩
  · rintro ⟨hk, hs⟩
    obtain ⟨e, hm, rfl⟩ := List.mem_map.mp hk
    exact ⟨e, (mem_visible_iff keys e).mpr ⟨hm, hs⟩, rfl⟩

private theorem nodup_visible_keys (keys : Extracted) : (keys.visible.map Prod.fst).Nodup :=
  keys.nodup_keys.sublist (List.filter_sublist.map Prod.fst)

/-- The tree of keys is made by putting each visible key at its path. -/
theorem nest_eq_insertAll (keys : Extracted) :
    keys.nest = Dictionary.insertAll [] (keys.visible.map fun e ↦ (pathOf e.1, .string e.2)) := by
  rw [Dictionary.insertAll, List.foldl_map]
  rfl

/-- The paths of the visible keys are apart. -/
theorem visible_apart (keys : Extracted) :
    keys.visible.Pairwise fun a b ↦ Apart (pathOf a.1) (pathOf b.1) := by
  have hd := keys.nodup_visible_keys
  rw [List.Nodup, List.pairwise_map] at hd
  apply hd.imp_of_mem
  intro a b ha hb hne
  obtain ⟨hka, hsa⟩ := (mem_visible_keys_iff keys a.1).mp (List.mem_map.mpr ⟨a, ha, rfl⟩)
  obtain ⟨hkb, hsb⟩ := (mem_visible_keys_iff keys b.1).mp (List.mem_map.mpr ⟨b, hb, rfl⟩)
  exact ⟨fun hp ↦ hne (eq_of_prefix_pathOf hka hsa hkb hp),
    fun hp ↦ hne (eq_of_prefix_pathOf hkb hsb hka hp).symm⟩

/-- The leaves of the nested keys are the default texts of the visible keys at their paths. -/
theorem memberPathLeaves_nest (keys : Extracted) :
    (memberPathLeaves keys.nest).Perm
      (keys.visible.map fun e ↦ (pathOf e.1, Json.string e.2)) := by
  rw [nest_eq_insertAll]
  refine (Dictionary.memberPathLeaves_insertAll [] _ ?_ ?_ (by simp [memberPathLeaves])).trans ?_
  · intro e he
    obtain ⟨e', -, rfl⟩ := List.mem_map.mp he
    exact ⟨pathOf_ne_nil e'.1, rfl⟩
  · exact List.pairwise_map.mpr keys.visible_apart
  · rw [memberPathLeaves, List.append_nil]

/-- The nested keys are distinct in every object. -/
theorem distinct_nest (keys : Extracted) : (Json.object keys.nest).Distinct := by
  have hnil : (Json.object []).Distinct := rfl
  rw [nest_eq_insertAll]
  apply Dictionary.distinct_insertAll hnil
  intro e he
  obtain ⟨e', -, rfl⟩ := List.mem_map.mp he
  rfl

end Extracted

end KeyHarvest
