import KeyHarvest.Json.Printer
import KeyHarvest.Proofs.Json.Everywhere
import KeyHarvest.Proofs.Json.Members

/-!
# Values with their keys in order

Sorting members arranges them without changing what is looked up (`get?_sortMembers`), and members
with distinct keys lose none (`sortMembers_perm`). `sortKeys` sorts the members of an object and of
the objects reached through objects; every other value stays as it is, and so do distinct keys,
numbers and nesting. Up to the order of members the value is the same (`reordered_sortKeys`), and
two values are the same in this way exactly if they are sorted to the same value
(`reordered_iff_sortKeys_eq`).
-/

namespace KeyHarvest.Json

/-- Sorted members are in key order. -/
theorem ascending_sortMembers (members : Members) :
    (sortMembers members).Pairwise fun a b ↦ a.1 < b.1 := by
  induction members with
  | nil => exact List.Pairwise.nil
  | cons e rest ih => exact KeyMap.ascending_insertEntry e.1 e.2 ih

/-- Sorting members changes no member. -/
theorem get?_sortMembers (members : Members) (key : String) :
    Members.get? (sortMembers members) key = members.get? key := by
  rw [Members.get?_eq_firstValue, Members.get?_eq_firstValue]
  induction members with
  | nil => rfl
  | cons e rest ih =>
    rw [KeyMap.firstValue_cons, ← ih]
    exact KeyMap.firstValue_insertEntry e.1 e.2 _ key

/-- The members sorted are the entries of the map that binds them. -/
theorem sortMembers_eq_entries {members : Members} (hd : (members.map Prod.fst).Nodup) :
    sortMembers members = (KeyMap.ofList members).entries := by
  have h : (⟨sortMembers members, ascending_sortMembers members⟩ : KeyMap String Json) =
      KeyMap.ofList members := by
    apply KeyMap.ext_get?
    intro key
    rw [KeyMap.get?_ofList_of_nodup hd, ← Members.get?_eq_firstValue, ← get?_sortMembers,
      Members.get?_eq_firstValue]
    rfl
  exact congrArg KeyMap.entries h

private theorem mem_sortMembers_iff {members : Members} (hd : (members.map Prod.fst).Nodup)
    (e : String × Json) : e ∈ sortMembers members ↔ e ∈ members := by
  rw [sortMembers_eq_entries hd, KeyMap.mem_entries_iff, KeyMap.get?_ofList_of_nodup hd,
    KeyMap.firstValue_eq_some_iff hd]

/-- Members with distinct keys are only rearranged. -/
theorem sortMembers_perm {members : Members} (hd : (members.map Prod.fst).Nodup) :
    (sortMembers members).Perm members := by
  have nodup {l : Members} (h : (l.map Prod.fst).Nodup) : l.Nodup := by
    rw [List.Nodup, List.pairwise_map] at h
    exact h.imp fun hab heq ↦ hab (congrArg Prod.fst heq)
  apply (List.perm_ext_iff_of_nodup (nodup ?_) (nodup hd)).mpr (mem_sortMembers_iff hd)
  exact KeyMap.nodup_of_ascending (ascending_sortMembers members)

/-- Members in key order stay as they are. -/
theorem sortMembers_of_ascending {members : Members}
    (h : members.Pairwise fun a b ↦ a.1 < b.1) : sortMembers members = members := by
  rw [sortMembers_eq_entries (KeyMap.nodup_of_ascending h), KeyMap.entries_ofList h]

private theorem sortValues_eq_map (members : Members) :
    sortValues members = members.map fun e ↦ (e.1, e.2.sortKeys) := by
  induction members with
  | nil => rfl
  | cons e rest ih => rw [sortValues, ih, List.map_cons]

private theorem keys_sortValues (members : Members) :
    (sortValues members).map Prod.fst = members.map Prod.fst := by
  rw [sortValues_eq_map, List.map_map]
  rfl

/-- Sorting the values of members sorts the value of each. -/
theorem get?_sortValues (members : Members) (key : String) :
    Members.get? (sortValues members) key = (members.get? key).map sortKeys := by
  induction members with
  | nil => rfl
  | cons e rest ih =>
    rw [sortValues, Members.get?, Members.get?]
    split
    · rfl
    · exact ih

private theorem sortKeys_of_leaf {v : Json} (h : v.isObject = false) : v.sortKeys = v := by
  cases v with
  | object members => cases h
  | null | bool | number | string | array => rfl

/-- Members without objects among their values, in key order, stay as they are. -/
theorem sortKeys_object_of_leaves {members : Members}
    (h : members.Pairwise fun a b ↦ a.1 < b.1) (hl : ∀ e ∈ members, e.2.isObject = false) :
    sortKeys (.object members) = .object members := by
  have hv : sortValues members = members := by
    rw [sortValues_eq_map]
    conv => rhs; rw [← List.map_id members]
    apply List.map_congr_left
    intro e he
    rw [sortKeys_of_leaf (hl e he)]
    rfl
  rw [sortKeys, hv, sortMembers_of_ascending h]

mutual

/-- A property that objects have by their distinct keys is kept by sorting. -/
theorem everywhere_sortKeys {p : Json → Bool}
    (hobj : ∀ members, (members.map Prod.fst).Nodup → p (.object members) = true) (v : Json)
    (hd : v.Distinct) (hv : v.everywhere p = true) : v.sortKeys.everywhere p = true := by
  match v with
  | .object members =>
    have hk := ((distinct_object_iff members).mp hd).1
    rw [sortKeys, everywhere_object_iff]
    refine ⟨hobj _ (KeyMap.nodup_of_ascending (ascending_sortMembers _)), ?_⟩
    intro e he
    rw [mem_sortMembers_iff (by rw [keys_sortValues]; exact hk)] at he
    exact everywhere_sortValues hobj members ((distinct_object_iff members).mp hd).2
      ((everywhere_object_iff p members).mp hv).2 e he
  | .null | .bool _ | .number _ | .string _ | .array _ => exact hv

private theorem everywhere_sortValues {p : Json → Bool}
    (hobj : ∀ members, (members.map Prod.fst).Nodup → p (.object members) = true)
    (members : List (String × Json)) (hd : ∀ e ∈ members, e.2.Distinct)
    (hv : ∀ e ∈ members, e.2.everywhere p = true) (e : String × Json)
    (he : e ∈ sortValues members) : e.2.everywhere p = true := by
  match members with
  | [] => cases he
  | (key, v) :: rest =>
    rw [List.forall_mem_cons] at hd hv
    rcases List.mem_cons.mp he with rfl | he
    · exact everywhere_sortKeys hobj v hd.1 hv.1
    · exact everywhere_sortValues hobj rest hd.2 hv.2 e he

end

/-- Sorting leaves keys distinct. -/
theorem distinct_sortKeys {v : Json} (h : v.Distinct) : v.sortKeys.Distinct :=
  everywhere_sortKeys (fun _ hn ↦ decide_eq_true hn) v h h

/-- Sorting leaves numbers integral. -/
theorem integral_sortKeys {v : Json} (hd : v.Distinct) (h : v.Integral) : v.sortKeys.Integral :=
  everywhere_sortKeys (fun _ _ ↦ rfl) v hd h

private theorem membersNesting_perm {l m : List (String × Json)} (h : l.Perm m) :
    membersNesting l = membersNesting m := by
  have hle (n : Nat) : membersNesting l ≤ n ↔ membersNesting m ≤ n := by
    rw [membersNesting_le_iff, membersNesting_le_iff]
    simp only [h.mem_iff]
  exact Nat.le_antisymm ((hle _).mpr (Nat.le_refl _)) ((hle _).mp (Nat.le_refl _))

mutual

/-- Sorting nests a value neither deeper nor less deep. -/
theorem nesting_sortKeys (v : Json) (hd : v.Distinct) : v.sortKeys.nesting = v.nesting := by
  match v with
  | .object members =>
    obtain ⟨hk, hm⟩ := (distinct_object_iff members).mp hd
    rw [sortKeys, nesting, nesting, membersNesting_perm (sortMembers_perm ?_),
      membersNesting_sortValues members hm]
    rwa [keys_sortValues]
  | .null | .bool _ | .number _ | .string _ | .array _ => rfl

private theorem membersNesting_sortValues (members : List (String × Json))
    (hd : ∀ e ∈ members, e.2.Distinct) :
    membersNesting (sortValues members) = membersNesting members := by
  match members with
  | [] => rfl
  | (key, v) :: rest =>
    rw [List.forall_mem_cons] at hd
    rw [sortValues, membersNesting, membersNesting, nesting_sortKeys v hd.1,
      membersNesting_sortValues rest hd.2]

end

/-! ### Members in another order -/

mutual

/-- The values are the same up to the order of members, arrays and what stands inside them being
equal. -/
inductive Reordered : Json → Json → Prop
  | leaf {v : Json} (h : v.isObject = false) : Reordered v v
  | object {a b : List (String × Json)} (h : MembersReordered a b) :
    Reordered (.object a) (.object b)

/-- The members are the same up to their order and the order of members in their values. -/
inductive MembersReordered : List (String × Json) → List (String × Json) → Prop
  | nil : MembersReordered [] []
  | cons {key : String} {v w : Json} {a b c : List (String × Json)} (hv : Reordered v w)
    (h : MembersReordered a b) (hp : c.Perm ((key, w) :: b)) : MembersReordered ((key, v) :: a) c

end

mutual

private theorem reordered_refl (v : Json) : Reordered v v := by
  match v with
  | .object members => exact .object (membersReordered_of_perm members (List.Perm.refl _))
  | .null | .bool _ | .number _ | .string _ | .array _ => exact .leaf rfl

/-- Members in another order are the members reordered. -/
theorem membersReordered_of_perm (a : List (String × Json)) {b : List (String × Json)}
    (h : a.Perm b) : MembersReordered a b := by
  match a with
  | [] => exact h.nil_eq ▸ .nil
  | (key, v) :: rest =>
    exact .cons (reordered_refl v) (membersReordered_of_perm rest (List.Perm.refl _)) h.symm

end

/-- Members are the same up to their order if one key gets the same value up to that order. -/
theorem membersReordered_set (members : Members) (key : String) {v w : Json}
    (h : Reordered v w) : MembersReordered (members.set key v) (members.set key w) := by
  induction members with
  | nil => exact .cons h .nil (List.Perm.refl _)
  | cons e rest ih =>
    rw [Members.set, Members.set]
    split
    · exact .cons h (membersReordered_of_perm rest (List.Perm.refl _)) (List.Perm.refl _)
    · exact .cons (reordered_refl _) ih (List.Perm.refl _)

mutual

/-- Sorting keeps a value up to the order of members. -/
theorem reordered_sortKeys (v : Json) (hd : v.Distinct) : Reordered v v.sortKeys := by
  match v with
  | .object members =>
    obtain ⟨hk, hm⟩ := (distinct_object_iff members).mp hd
    exact .object (reordered_sortValues members hk hm)
  | .null | .bool _ | .number _ | .string _ | .array _ => exact .leaf rfl

private theorem reordered_sortValues (members : List (String × Json))
    (hk : (members.map Prod.fst).Nodup) (hd : ∀ e ∈ members, e.2.Distinct) :
    MembersReordered members (sortMembers (sortValues members)) := by
  match members with
  | [] => exact .nil
  | (key, v) :: rest =>
    have hkrest := (List.nodup_cons.mp hk).2
    rw [List.forall_mem_cons] at hd
    refine .cons (reordered_sortKeys v hd.1) (reordered_sortValues rest hkrest hd.2) ?_
    have hrest : (sortMembers (sortValues rest)).Perm (sortValues rest) :=
      sortMembers_perm (by rwa [keys_sortValues])
    refine (sortMembers_perm ?_).trans (hrest.symm.cons _)
    rwa [keys_sortValues]

end

/-- The members of the value are in key order, and so are those of all objects reached through
objects. -/
inductive InKeyOrder : Json → Prop
  | leaf {v : Json} (h : v.isObject = false) : InKeyOrder v
  | object {members : List (String × Json)} (h : members.Pairwise fun a b ↦ a.1 < b.1)
    (hm : ∀ e ∈ members, InKeyOrder e.2) : InKeyOrder (.object members)

mutual

/-- A sorted value is in key order. -/
theorem inKeyOrder_sortKeys (v : Json) (hd : v.Distinct) : InKeyOrder v.sortKeys := by
  match v with
  | .object members =>
    obtain ⟨hk, hm⟩ := (distinct_object_iff members).mp hd
    refine .object (ascending_sortMembers _) fun e he ↦ ?_
    rw [mem_sortMembers_iff (by rwa [keys_sortValues])] at he
    exact inKeyOrder_sortValues members hm e he
  | .null | .bool _ | .number _ | .string _ | .array _ => exact .leaf rfl

private theorem inKeyOrder_sortValues (members : List (String × Json))
    (hd : ∀ e ∈ members, e.2.Distinct) : ∀ e ∈ sortValues members, InKeyOrder e.2 := by
  match members with
  | [] => simp [sortValues]
  | (key, v) :: rest =>
    rw [List.forall_mem_cons] at hd
    rw [sortValues, List.forall_mem_cons]
    exact ⟨inKeyOrder_sortKeys v hd.1, inKeyOrder_sortValues rest hd.2⟩

end

/-- Members with distinct keys are sorted alike exactly if one list is an arrangement of the
other. -/
theorem sortMembers_eq_iff {a b : Members} (ha : (a.map Prod.fst).Nodup)
    (hb : (b.map Prod.fst).Nodup) : sortMembers a = sortMembers b ↔ a.Perm b := by
  constructor
  · intro h
    exact (sortMembers_perm ha).symm.trans (h ▸ sortMembers_perm hb)
  · intro h
    rw [sortMembers_eq_entries ha, sortMembers_eq_entries hb, KeyMap.ofList_perm h hb]

private theorem reordered_leaf_iff {v w : Json} (hv : v.isObject = false) :
    Reordered v w ↔ v = w.sortKeys := by
  constructor
  · rintro (h | -)
    · exact (sortKeys_of_leaf h).symm
    · cases hv
  · rintro rfl
    cases w with
    | object members => cases hv
    | null | bool | number | string | array => exact .leaf rfl

mutual

/-- Two values are the same up to the order of members exactly if they are sorted to the same
value. -/
theorem reordered_iff_sortKeys_eq (v : Json) {w : Json} (hv : v.Distinct) (hw : w.Distinct) :
    Reordered v w ↔ v.sortKeys = w.sortKeys := by
  match v with
  | .object a =>
    obtain ⟨hka, ha⟩ := (distinct_object_iff a).mp hv
    cases w with
    | object b =>
      obtain ⟨hkb, hb⟩ := (distinct_object_iff b).mp hw
      have hmembers : Reordered (.object a) (.object b) ↔ MembersReordered a b := by
        constructor
        · rintro (h | h)
          · cases h
          · exact h
        · exact .object
      rw [hmembers, membersReordered_iff_perm a ha hb, sortKeys, sortKeys, Json.object.injEq,
        sortMembers_eq_iff (by rwa [keys_sortValues]) (by rwa [keys_sortValues])]
    | null | bool | number | string | array =>
      exact iff_of_false (fun h ↦ by cases h) fun h ↦ by cases h
  | .null | .bool _ | .number _ | .string _ | .array _ => exact reordered_leaf_iff rfl

private theorem membersReordered_iff_perm (a : List (String × Json)) {b : List (String × Json)}
    (ha : ∀ e ∈ a, e.2.Distinct) (hb : ∀ e ∈ b, e.2.Distinct) :
    MembersReordered a b ↔ (sortValues a).Perm (sortValues b) := by
  match a with
  | [] =>
    constructor
    · rintro ⟨⟩
      exact List.Perm.nil
    · intro h
      have hnil : b = [] := by simpa [sortValues_eq_map, sortValues] using h
      exact hnil ▸ .nil
  | (key, v) :: rest =>
    rw [List.forall_mem_cons] at ha
    rw [sortValues]
    constructor
    · rintro ⟨⟩
      next w b' hv hrest hp =>
      have hb' : w.Distinct ∧ ∀ e ∈ b', e.2.Distinct :=
        List.forall_mem_cons.mp fun e he ↦ hb e (hp.mem_iff.mpr he)
      have hperm : (sortValues b).Perm ((key, w.sortKeys) :: sortValues b') := by
        simpa only [sortValues_eq_map, List.map_cons] using hp.map fun e ↦ (e.1, e.2.sortKeys)
      rw [(reordered_iff_sortKeys_eq v ha.1 hb'.1).mp hv]
      exact (((membersReordered_iff_perm rest ha.2 hb'.2).mp hrest).cons _).trans hperm.symm
    · intro h
      -- Some member is sorted to the first one, and the others are an arrangement of the rest.
      have hmem : (key, v.sortKeys) ∈ sortValues b := h.mem_iff.mp List.mem_cons_self
      rw [sortValues_eq_map b, List.mem_map] at hmem
      obtain ⟨⟨key', w⟩, hmem, heq⟩ := hmem
      obtain ⟨rfl, hw⟩ : key' = key ∧ w.sortKeys = v.sortKeys := Prod.mk.inj heq
      obtain ⟨front, back, rfl⟩ := List.append_of_mem hmem
      have hb' := List.forall_mem_cons.mp fun e he ↦ hb e (List.perm_middle.mem_iff.mpr he)
      have hrest : (sortValues rest).Perm (sortValues (front ++ back)) := by
        rw [sortValues_eq_map (front ++ _), List.map_append, List.map_cons, hw] at h
        rw [sortValues_eq_map (front ++ back), List.map_append]
        exact (h.trans List.perm_middle).cons_inv
      refine .cons ((reordered_iff_sortKeys_eq v ha.1 hb'.1).mpr hw.symm) ?_ List.perm_middle
      exact (membersReordered_iff_perm rest ha.2 hb'.2).mpr hrest

end

end KeyHarvest.Json
