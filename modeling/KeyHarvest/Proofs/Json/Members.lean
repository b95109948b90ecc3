import KeyHarvest.Json.Basic
import KeyHarvest.Proofs.Json.Everywhere
import KeyHarvest.Proofs.KeyMap

/-!
# Members of objects

Members are looked up like the entries of a map (`get?_eq_firstValue`). Giving a key a value
replaces one member or puts one at the end, which `set_of_get?_eq_none` and
`exists_of_get?_eq_some` say as equations between lists. Of two values for one key the second counts
(`set_set`), and values for two keys are given in either order (`set_set_perm`).
-/

namespace KeyHarvest

namespace Members

/-- Members are looked up like the entries of a map. -/
theorem get?_eq_firstValue (members : Members) (key : String) :
    members.get? key = KeyMap.firstValue members key := by
  induction members with
  | nil => rfl
  | cons e rest ih => rw [get?, KeyMap.firstValue_cons, ih]

/-- In members with distinct keys the lookup finds every member. -/
theorem get?_eq_some_iff {members : Members} (hd : (members.map Prod.fst).Nodup) (key : String)
    (value : Json) : members.get? key = some value ↔ (key, value) ∈ members := by
  rw [get?_eq_firstValue, KeyMap.firstValue_eq_some_iff hd]

/-- Nothing is found exactly under a key that no member has. -/
theorem get?_eq_none_iff (members : Members) (key : String) :
    members.get? key = none ↔ key ∉ members.map Prod.fst := by
  rw [get?_eq_firstValue, KeyMap.firstValue_eq_none_iff]

/-- What is found is a member. -/
theorem mem_of_get? {members : Members} {key : String} {value : Json}
    (h : members.get? key = some value) : (key, value) ∈ members :=
  KeyMap.mem_of_firstValue (get?_eq_firstValue members key ▸ h)

/-- Members in key order are decided by their lookup. -/
theorem ext_get? {l m : Members} (hl : l.Pairwise fun a b ↦ a.1 < b.1)
    (hm : m.Pairwise fun a b ↦ a.1 < b.1) (h : ∀ key, l.get? key = m.get? key) : l = m := by
  have he : (⟨l, hl⟩ : KeyMap String Json) = ⟨m, hm⟩ := by
    apply KeyMap.ext_get?
    intro key
    rw [KeyMap.get?_eq_firstValue, KeyMap.get?_eq_firstValue, ← get?_eq_firstValue,
      ← get?_eq_firstValue, h]
  exact congrArg KeyMap.entries he

/-- A key that is not there is put at the end. -/
theorem set_of_get?_eq_none {members : Members} {key : String} (h : members.get? key = none)
    (value : Json) : members.set key value = members ++ [(key, value)] := by
  induction members with
  | nil => rfl
  | cons e rest ih =>
    rw [get?] at h
    split at h
    · cases h
    · next hne => rw [set, if_neg hne, ih h, List.cons_append]

/-- A key that is there keeps its place. -/
theorem exists_of_get?_eq_some {members : Members} {key : String} {old : Json}
    (h : members.get? key = some old) :
    ∃ front back, members = front ++ (key, old) :: back ∧
      ∀ value, members.set key value = front ++ (key, value) :: back := by
  induction members with
  | nil => cases h
  | cons e rest ih =>
    rw [get?] at h
    split at h
    · next heq =>
      cases h
      refine ⟨[], rest, by rw [← heq]; rfl, fun value ↦ ?_⟩
      rw [set, if_pos heq, heq, List.nil_append]
    · next hne =>
      obtain ⟨front, back, hsplit, hset⟩ := ih h
      refine ⟨e :: front, back, by rw [hsplit, List.cons_append], fun value ↦ ?_⟩
      rw [set, if_neg hne, hset, List.cons_append]

/-- Of two values given to a key the second counts. -/
theorem set_set (members : Members) (key : String) (v w : Json) :
    (members.set key v).set key w = members.set key w := by
  induction members with
  | nil => simp [set]
  | cons e rest ih =>
    by_cases h : e.1 = key
    · simp [set, h]
    · simp [set, h, ih]

/-- Two keys are given values in either order, up to the order of the members. -/
theorem set_set_perm {key other : String} (h : key ≠ other) (members : Members) (v w : Json) :
    ((members.set key v).set other w).Perm ((members.set other w).set key v) := by
  induction members with
  | nil =>
    simp only [set, if_neg h, if_neg h.symm]
    exact List.Perm.swap _ _ []
  | cons e rest ih =>
    by_cases hkey : e.1 = key
    · simp [set, hkey, h]
    · by_cases hother : e.1 = other
      · simp [set, hother, h.symm]
      · simpa [set, hkey, hother] using ih

/-- Giving a key a value keeps the keys distinct. -/
theorem nodup_keys_set {members : Members} (hd : (members.map Prod.fst).Nodup) (key : String)
    (value : Json) : ((members.set key value).map Prod.fst).Nodup := by
  cases h : members.get? key with
  | none =>
    have hn := (get?_eq_none_iff members key).mp h
    rw [set_of_get?_eq_none h, List.map_append, List.nodup_append]
    refine ⟨hd, by simp, ?_⟩
    intro a ha b hb hab
    have hk : b = key := by simpa using hb
    exact hn (hk ▸ hab ▸ ha)
  | some old =>
    obtain ⟨front, back, hsplit, hset⟩ := exists_of_get?_eq_some h
    rw [hset]
    rw [hsplit] at hd
    simpa using hd

/-- The members after giving a key a value are that one and earlier ones. -/
theorem mem_set {members : Members} {key : String} {value : Json} {e : String × Json}
    (h : e ∈ members.set key value) : e = (key, value) ∨ e ∈ members := by
  cases hg : members.get? key with
  | none =>
    rw [set_of_get?_eq_none hg, List.mem_append, List.mem_singleton] at h
    exact h.symm
  | some old =>
    obtain ⟨front, back, hsplit, hset⟩ := exists_of_get?_eq_some hg
    rw [hset, List.mem_append, List.mem_cons] at h
    rw [hsplit, List.mem_append, List.mem_cons]
    rcases h with h | h | h
    · exact .inr (.inl h)
    · exact .inl h
    · exact .inr (.inr (.inr h))

/-- Giving a key a value keeps keys distinct everywhere. -/
theorem distinct_set {members : Members} (hd : (Json.object members).Distinct) (key : String)
    {v : Json} (hv : v.Distinct) : (Json.object (members.set key v)).Distinct := by
  obtain ⟨hk, hm⟩ := (Json.distinct_object_iff members).mp hd
  refine (Json.distinct_object_iff _).mpr ⟨nodup_keys_set hk key v, ?_⟩
  intro e he
  rcases mem_set he with rfl | he
  · exact hv
  · exact hm e he

end Members

end KeyHarvest
