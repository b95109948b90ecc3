import KeyHarvest.Proofs.Dictionary.Reconciliation

/-!
# How deep results are nested

A flat result is nested no deeper than the dictionary before. A namespaced one is nested as deep as
its keys have segments, with the arrays that a value may consist of on top
(`le_nesting_reconcile_iff`): nesting keys puts nothing but objects with members on the way to a
leaf, so the innermost value is a leaf.
-/

namespace KeyHarvest

namespace Json

/-- Whether a value, if it is an object, has members. -/
def isFilled : Json → Bool
  | .object [] => false
  | _ => true

mutual

/-- A leaf is nested in the objects on its path. -/
theorem length_add_nesting_le (v : Json) {e : List String × Json} (he : e ∈ pathLeaves v) :
    e.1.length + e.2.nesting ≤ v.nesting := by
  match v with
  | .object members => exact length_add_membersNesting_le members he
  | .null | .bool _ | .number _ | .string _ | .array _ =>
    rw [List.mem_singleton.mp he]
    exact Nat.le_of_eq (Nat.zero_add _)

private theorem length_add_membersNesting_le (members : List (String × Json))
    {e : List String × Json}
    (he : e ∈ memberPathLeaves members) :
    e.1.length + e.2.nesting ≤ membersNesting members + 1 := by
  match members with
  | [] => cases he
  | (key, v) :: rest =>
    rw [membersNesting]
    rcases List.mem_append.mp he with he | he
    · obtain ⟨e', he', rfl⟩ := List.mem_map.mp he
      have hv := length_add_nesting_le v he'
      simp only [List.length_cons]
      omega
    · have hrest := length_add_membersNesting_le rest he
      omega

end

/-- An object whose inner objects all have members has a leaf. -/
theorem exists_mem_pathLeaves (v : Json) (hv : v.everywhere isFilled = true) :
    ∃ e, e ∈ pathLeaves v := by
  match v with
  | .object [] => cases hv
  | .object ((key, w) :: rest) =>
    have hw := ((everywhere_object_iff _ _).mp hv).2 (key, w) List.mem_cons_self
    obtain ⟨e, he⟩ := exists_mem_pathLeaves w hw
    exact ⟨(key :: e.1, e.2), List.mem_append_left _ (List.mem_map.mpr ⟨e, he, rfl⟩)⟩
  | .null | .bool _ | .number _ | .string _ | .array _ => exact ⟨_, List.mem_singleton_self _⟩

mutual

/-- A value whose objects have members is nested no deeper than its leaves are. -/
theorem nesting_mapLeaves_le (f : List String → Json → Json) (v : Json) {n : Nat}
    (hv : v.everywhere isFilled = true)
    (hf : ∀ e ∈ pathLeaves v, e.1.length + (f e.1 e.2).nesting ≤ n) :
    (mapLeaves f v).nesting ≤ n := by
  match v with
  | .object members =>
    obtain ⟨e, he⟩ := exists_mem_pathLeaves (.object members) hv
    obtain ⟨key, rest, -, hpath, -⟩ := (mem_memberPathLeaves members e.1 e.2).mp he
    have hpos := hf e he
    rw [hpath, List.length_cons] at hpos
    obtain ⟨m, rfl⟩ : ∃ m, n = m + 1 := ⟨n - 1, by omega⟩
    have hm := ((everywhere_object_iff isFilled members).mp hv).2
    exact Nat.succ_le_succ (membersNesting_mapMembers_le f members hm hf)
  | .null | .bool _ | .number _ | .string _ | .array _ =>
    have h := hf _ (List.mem_singleton_self _)
    rwa [List.length_nil, Nat.zero_add] at h

private theorem membersNesting_mapMembers_le (f : List String → Json → Json)
    (members : List (String × Json)) {n : Nat}
    (hv : ∀ e ∈ members, e.2.everywhere isFilled = true)
    (hf : ∀ e ∈ memberPathLeaves members, e.1.length + (f e.1 e.2).nesting ≤ n + 1) :
    membersNesting (mapMembers f members) ≤ n := by
  match members with
  | [] => exact Nat.zero_le _
  | (key, v) :: rest =>
    rw [List.forall_mem_cons] at hv
    rw [memberPathLeaves, List.forall_mem_append, List.forall_mem_map] at hf
    rw [mapMembers, membersNesting, Nat.max_le]
    refine ⟨nesting_mapLeaves_le _ v hv.1 fun e he ↦ ?_,
      membersNesting_mapMembers_le f rest hv.2 hf.2⟩
    have h : (key :: e.1).length + (f (key :: e.1) e.2).nesting ≤ n + 1 := hf.1 e he
    rw [List.length_cons] at h
    omega

end

end Json

open Json

namespace Dictionary

private theorem isFilled_object {members : Members} (h : members ≠ []) :
    (Json.object members).isFilled = true := by
  cases members with
  | nil => exact absurd rfl h
  | cons e rest => rfl

private theorem insertAt_ne_nil (d : Dictionary) {path : List String} (h : path ≠ []) (v : Json) :
    d.insertAt path v ≠ [] := by
  have hset (key : String) (w : Json) : Members.set d key w ≠ [] := by
    intro hnil
    have hg := Members.get?_set_self d key w
    rw [hnil] at hg
    cases hg
  cases path with
  | nil => exact absurd rfl h
  | cons key rest =>
    by_cases hr : rest = []
    · rw [hr]
      exact hset key v
    · rw [insertAt_cons d key hr]
      exact hset key _

/-- Objects on the way to a value put at a path have members. -/
theorem filled_insertAt {d : Dictionary} (hd : ∀ e ∈ d, e.2.everywhere isFilled = true)
    (path : List String) {v : Json} (hv : v.everywhere isFilled = true) :
    ∀ e ∈ d.insertAt path v, e.2.everywhere isFilled = true := by
  induction path generalizing d with
  | nil => exact hd
  | cons key rest ih =>
    by_cases hr : rest = []
    · rw [hr, insertAt]
      intro e he
      rcases Members.mem_set he with rfl | he
      · exact hv
      · exact hd e he
    · rw [insertAt_cons d key hr]
      intro e he
      rcases Members.mem_set he with rfl | he
      · rw [everywhere_object_iff]
        refine ⟨isFilled_object (insertAt_ne_nil _ hr v), ih ?_⟩
        cases hg : d.get? key with
        | none => simp [branch]
        | some old =>
          have hold := hd _ (Members.mem_of_get? hg)
          cases old with
          | object members => exact ((everywhere_object_iff isFilled members).mp hold).2
          | null | bool | number | string | array => simp [branch]
      · exact hd e he

/-- Putting filled values into a filled dictionary leaves it filled. -/
theorem filled_insertAll {d : Dictionary} (hd : ∀ e ∈ d, e.2.everywhere isFilled = true)
    (l : List (List String × Json)) (hl : ∀ e ∈ l, e.2.everywhere isFilled = true) :
    ∀ e ∈ d.insertAll l, e.2.everywhere isFilled = true := by
  induction l generalizing d with
  | nil => exact hd
  | cons e l ih =>
    rw [List.forall_mem_cons] at hl
    exact ih (filled_insertAt hd e.1 hl.1) hl.2

end Dictionary

/-- In the tree of nested keys every inner object has members. -/
theorem Extracted.filled_nest (keys : Extracted) :
    ∀ e ∈ keys.nest, e.2.everywhere isFilled = true := by
  rw [nest_eq_insertAll]
  refine Dictionary.filled_insertAll (by simp) _ fun e he ↦ ?_
  obtain ⟨e', -, rfl⟩ := List.mem_map.mp he
  rfl

namespace Dictionary

/-- A namespaced result is nested as deep as its keys have segments and its values are nested. -/
theorem le_nesting_reconcileNested_iff (keys : Extracted) (d : Dictionary) (options : MergeOptions)
    {n : Nat} (hn : 2 ≤ n) :
    n ≤ (Json.object (reconcileNested keys d options).dictionary).nesting ↔
      ∃ e ∈ keys.visible,
        n ≤ (Extracted.pathOf e.1).length + (d.settledLeaf options e.1).nesting := by
  constructor
  · intro h
    by_cases hex : ∃ e ∈ keys.visible,
        n ≤ (Extracted.pathOf e.1).length + (d.settledLeaf options e.1).nesting
    · exact hex
    -- If all leaves were nested less deep, so would be the result.
    have hle : membersNesting (reconcileNested keys d options).dictionary ≤ n - 2 := by
      rw [dictionary_reconcileNested]
      refine membersNesting_mapMembers_le _ keys.nest keys.filled_nest fun e he ↦ ?_
      obtain ⟨e', he', rfl⟩ := List.mem_map.mp (keys.memberPathLeaves_nest.mem_iff.mp he)
      have hlt : ¬ n ≤ (Extracted.pathOf e'.1).length + (d.settledLeaf options e'.1).nesting :=
        fun hge ↦ hex ⟨e', he', hge⟩
      rw [settledLeaf, found?] at hlt
      simp only [Extracted.pathText_pathOf]
      omega
    rw [nesting] at h
    omega
  · rintro ⟨e, he, h⟩
    have hmem := (memberPathLeaves_reconcileNested keys d options).mem_iff.mpr
      (List.mem_map.mpr ⟨e, he, rfl⟩)
    exact Nat.le_trans h (length_add_membersNesting_le _ hmem)

/-- A flat result is nested no deeper than the dictionary before. -/
theorem nesting_reconcileFlat_le (keys : Extracted) (d : Dictionary) (options : MergeOptions) :
    (Json.object (reconcileFlat keys d options).dictionary).nesting ≤ (Json.object d).nesting := by
  rw [nesting, nesting]
  refine Nat.succ_le_succ ((membersNesting_le_iff _ _).mpr ?_)
  refine reconcileFlat_member (P := fun v ↦ v.nesting ≤ membersNesting d)
    (fun _ ↦ Nat.zero_le _) (Nat.zero_le _) fun e he ↦ ?_
  obtain ⟨key, rest, -, hpath, -⟩ := (mem_memberPathLeaves d e.1 e.2).mp he
  have h := length_add_membersNesting_le d he
  rw [hpath, List.length_cons] at h
  omega

/-- Reconciling nests a dictionary deeper than a limit exactly if keys are nested and one of them
has a path that, with what its value is nested, goes beyond it. -/
theorem le_nesting_reconcile_iff (keys : Extracted) {d : Dictionary} (options : MergeOptions)
    {n : Nat} (hn : (Json.object d).nesting < n) :
    n ≤ (Json.object (reconcile keys d options).dictionary).nesting ↔
      options.namespaced = true ∧ ∃ key v,
        (flatten (reconcile keys d options).dictionary).get? key = some v ∧
        n ≤ (Extracted.pathOf key).length + v.nesting := by
  rw [reconcile]
  cases options.namespaced with
  | false =>
    have hle := nesting_reconcileFlat_le keys d options
    simp only [Bool.false_eq_true, if_false, false_and, iff_false]
    omega
  | true =>
    have hpos : 2 ≤ n := by
      rw [nesting] at hn
      omega
    simp only [if_true, true_and]
    rw [le_nesting_reconcileNested_iff keys d options hpos]
    constructor
    · rintro ⟨e, he, h⟩
      have hkey := (keys.mem_visible_keys_iff e.1).mp (List.mem_map.mpr ⟨e, he, rfl⟩)
      exact ⟨e.1, _, by rw [get?_flatten_reconcileNested, if_pos hkey], h⟩
    · rintro ⟨key, v, hv, h⟩
      rw [get?_flatten_reconcileNested] at hv
      split at hv
      · next hkey =>
        cases hv
        obtain ⟨e, he, rfl⟩ := List.mem_map.mp ((keys.mem_visible_keys_iff key).mpr hkey)
        exact ⟨e, he, h⟩
      · cases hv

end Dictionary

end KeyHarvest
