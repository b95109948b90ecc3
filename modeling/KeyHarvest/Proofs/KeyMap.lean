import KeyHarvest.KeyMap

/-!
# Lookup in maps in key order

Every operation of a `KeyMap` is described by what it does to the lookup `get?`: `get?_insert`,
`get?_ofList` and, for entries whose keys are distinct, `get?_ofList_of_nodup`. The lookup decides
the map (`ext_get?`), so two maps are shown equal key by key.

The lookup of a map is that of its list of entries, `firstValue`, whose laws need no order.
-/

namespace KeyHarvest

namespace KeyMap

/-! ### Lists of entries -/

section Entries

variable {κ α : Type} [DecidableEq κ]

/-- The value of a key in a list of entries, the first one counting. -/
def firstValue (l : List (κ × α)) (k : κ) : Option α :=
  l.findSome? fun e ↦ if e.1 = k then some e.2 else none

/-- Nothing is found where there are no entries. -/
@[simp] theorem firstValue_nil (k : κ) : firstValue ([] : List (κ × α)) k = none := rfl

/-- The first entry counts if it has the key. -/
theorem firstValue_cons (e : κ × α) (l : List (κ × α)) (k : κ) :
    firstValue (e :: l) k = if e.1 = k then some e.2 else firstValue l k := by
  by_cases h : e.1 = k <;> simp [firstValue, h]

/-- The entries in front count first. -/
theorem firstValue_append (l m : List (κ × α)) (k : κ) :
    firstValue (l ++ m) k = (firstValue l k).or (firstValue m k) := by
  simp [firstValue]

/-- Nothing is found exactly for a key that no entry has. -/
theorem firstValue_eq_none_iff (l : List (κ × α)) (k : κ) :
    firstValue l k = none ↔ k ∉ l.map Prod.fst := by
  induction l with
  | nil => simp
  | cons e l ih =>
    rw [firstValue_cons, List.map_cons, List.mem_cons]
    by_cases h : e.1 = k
    · simp [h]
    · simp [h, Ne.symm h, ih]

/-- In a list with distinct keys the lookup finds every entry. -/
theorem firstValue_eq_some_iff {l : List (κ × α)} (hd : (l.map Prod.fst).Nodup) (k : κ) (v : α) :
    firstValue l k = some v ↔ (k, v) ∈ l := by
  induction l with
  | nil => simp
  | cons e l ih =>
    rw [List.map_cons, List.nodup_cons] at hd
    rw [firstValue_cons, List.mem_cons]
    by_cases h : e.1 = k
    · subst h
      have hn : (e.1, v) ∉ l := fun hm ↦ hd.1 (List.mem_map.mpr ⟨_, hm, rfl⟩)
      simp [hn, Prod.ext_iff, eq_comm]
    · have he : (k, v) ≠ e := by
        intro he
        exact h (he ▸ rfl)
      simp [h, he, ih hd.2]

/-- What the lookup finds is an entry. -/
theorem mem_of_firstValue {l : List (κ × α)} {k : κ} {v : α} (h : firstValue l k = some v) :
    (k, v) ∈ l := by
  obtain ⟨e, he, hv⟩ := List.exists_of_findSome?_eq_some h
  split at hv
  · next hk =>
    cases hv
    exact hk ▸ he
  · cases hv

/-- Where all entries of a key agree the lookup finds their value. -/
theorem firstValue_eq_of_mem_iff {l : List (κ × α)} {k : κ} {o : Option α}
    (h : ∀ v, (k, v) ∈ l ↔ o = some v) : firstValue l k = o := by
  cases hv : firstValue l k with
  | some v => exact ((h v).mp (mem_of_firstValue hv)).symm
  | none =>
    cases o with
    | none => rfl
    | some v =>
      have hm : k ∈ l.map Prod.fst := List.mem_map.mpr ⟨_, (h v).mpr rfl, rfl⟩
      exact absurd hm ((firstValue_eq_none_iff l k).mp hv)

/-- Two arrangements of entries with distinct keys are looked up alike. -/
theorem firstValue_perm {l m : List (κ × α)} (hp : l.Perm m) (hd : (l.map Prod.fst).Nodup)
    (k : κ) : firstValue l k = firstValue m k := by
  have hm : (m.map Prod.fst).Nodup := (hp.map Prod.fst).nodup_iff.mp hd
  ext v
  rw [firstValue_eq_some_iff hd, firstValue_eq_some_iff hm, hp.mem_iff]

/-- With other values the lookup finds the other value of what it found. -/
theorem firstValue_map_values {β : Type} (f : κ × α → β) (l : List (κ × α)) (k : κ) :
    firstValue (l.map fun e ↦ (e.1, f e)) k = (firstValue l k).map fun v ↦ f (k, v) := by
  induction l with
  | nil => rfl
  | cons e l ih =>
    rw [List.map_cons, firstValue_cons, firstValue_cons, ih]
    by_cases h : e.1 = k
    · subst h
      simp
    · simp [h]

/-- Among the entries of some keys these keys are looked up as before, and the others not found. -/
theorem firstValue_filter (p : κ → Bool) (l : List (κ × α)) (k : κ) :
    firstValue (l.filter fun e ↦ p e.1) k = if p k then firstValue l k else none := by
  induction l with
  | nil => simp
  | cons e l ih =>
    rw [List.filter_cons, firstValue_cons]
    by_cases h : e.1 = k
    · subst h
      cases hp : p e.1 <;> simp [hp, firstValue_cons, ih]
    · cases hp : p e.1 <;> simp [h, firstValue_cons, ih]

/-- An entry put into a list is found under its key, and the others as before. -/
theorem firstValue_insertEntry [LT κ] [DecidableLT κ] (k : κ) (v : α) (l : List (κ × α)) (k' : κ) :
    firstValue (insertEntry k v l) k' = if k = k' then some v else firstValue l k' := by
  induction l with
  | nil => simp [insertEntry, firstValue_cons]
  | cons e l ih =>
    rw [insertEntry]
    split
    · rw [firstValue_cons]
    · split
      · next heq =>
        rw [firstValue_cons, firstValue_cons]
        by_cases hk : k = k'
        · simp [hk]
        · simp [hk, heq ▸ hk]
      · next hne =>
        rw [firstValue_cons, firstValue_cons, ih]
        by_cases hk : k = k'
        · simp [hk ▸ Ne.symm hne, hk]
        · simp [hk]

end Entries

/-! ### Order -/

section Ordered

variable {κ α : Type} [LT κ] [LE κ] [Std.LawfulOrderLT κ]

/-- The keys of an ordered list are distinct. -/
theorem nodup_of_ascending {l : List (κ × α)} (h : l.Pairwise fun a b ↦ a.1 < b.1) :
    (l.map Prod.fst).Nodup := by
  rw [List.Nodup, List.pairwise_map]
  exact h.imp fun {a b} (hlt : a.1 < b.1) (heq : a.1 = b.1) ↦ Std.lt_irrefl (heq ▸ hlt)

/-- The keys of a map are distinct. -/
theorem nodup_keys (m : KeyMap κ α) : m.keys.Nodup :=
  nodup_of_ascending m.ascending

/-- Two ordered lists with the same entries are equal. -/
theorem eq_of_ascending [Std.IsLinearOrder κ] {l m : List (κ × α)}
    (hl : l.Pairwise fun a b ↦ a.1 < b.1) (hm : m.Pairwise fun a b ↦ a.1 < b.1)
    (h : ∀ e, e ∈ l ↔ e ∈ m) : l = m := by
  have nodup {n : List (κ × α)} (hn : n.Pairwise fun a b ↦ a.1 < b.1) : n.Nodup :=
    hn.imp fun {a b} (hlt : a.1 < b.1) (heq : a = b) ↦ Std.lt_irrefl (heq ▸ hlt)
  apply List.Perm.eq_of_pairwise (fun a b _ _ hab hba ↦ ?_) hl hm
  · exact (List.perm_ext_iff_of_nodup (nodup hl) (nodup hm)).mpr h
  · exact absurd (Std.lt_trans hab hba) Std.lt_irrefl

end Ordered

/-! ### Lookup -/

section Lookup

variable {κ α : Type} [LT κ] [DecidableEq κ]

/-- The lookup of a map is that of its entries. -/
theorem get?_eq_firstValue (m : KeyMap κ α) (k : κ) : m.get? k = firstValue m.entries k := rfl

/-- The empty map binds no key. -/
@[simp] theorem get?_empty (k : κ) : (empty : KeyMap κ α).get? k = none := rfl

/-- The keys of a map are the bound ones. -/
theorem mem_keys_iff (m : KeyMap κ α) (k : κ) : k ∈ m.keys ↔ m.contains k = true := by
  have h := firstValue_eq_none_iff m.entries k
  rw [contains, get?_eq_firstValue, Option.isSome_iff_ne_none, ne_eq, h, Decidable.not_not, keys]

variable [LE κ] [Std.LawfulOrderLT κ]

/-- The entries of a map are its bindings. -/
theorem mem_entries_iff (m : KeyMap κ α) (k : κ) (v : α) :
    (k, v) ∈ m.entries ↔ m.get? k = some v :=
  (firstValue_eq_some_iff m.nodup_keys k v).symm

/-- Two maps have as many keys of each other. -/
theorem countP_contains_comm {β : Type} (m : KeyMap κ α) (n : KeyMap κ β) :
    m.keys.countP n.contains = n.keys.countP m.contains := by
  rw [List.countP_eq_length_filter, List.countP_eq_length_filter]
  apply List.Perm.length_eq
  rw [List.perm_ext_iff_of_nodup (m.nodup_keys.filter _) (n.nodup_keys.filter _)]
  intro k
  rw [List.mem_filter, List.mem_filter, mem_keys_iff, mem_keys_iff, and_comm]

/-- A map is decided by its lookup. -/
theorem ext_get? [Std.IsLinearOrder κ] {m n : KeyMap κ α} (h : ∀ k, m.get? k = n.get? k) :
    m = n := by
  have he : m.entries = n.entries := by
    apply eq_of_ascending m.ascending n.ascending
    rintro ⟨k, v⟩
    rw [mem_entries_iff, mem_entries_iff, h]
  cases m
  cases n
  cases he
  rfl

end Lookup

/-! ### Insertion -/

variable {κ α : Type} [LT κ] [LE κ] [DecidableLT κ] [DecidableEq κ]
  [Std.IsLinearOrder κ] [Std.LawfulOrderLT κ]

/-- Insertion changes the value of its key alone. -/
theorem get?_insert (m : KeyMap κ α) (k : κ) (v : α) (k' : κ) :
    (m.insert k v).get? k' = if k = k' then some v else m.get? k' :=
  firstValue_insertEntry k v m.entries k'

/-- Binding entries in turn lets the last of each key win over what was bound before. -/
theorem get?_foldl_insert (l : List (κ × α)) (m : KeyMap κ α) (k : κ) :
    (l.foldl (fun m e ↦ m.insert e.1 e.2) m).get? k = (firstValue l.reverse k).or (m.get? k) := by
  induction l generalizing m with
  | nil => simp
  | cons e l ih =>
    rw [List.foldl_cons, ih, List.reverse_cons, firstValue_append, firstValue_cons, get?_insert]
    cases firstValue l.reverse k <;> by_cases h : e.1 = k <;> simp [h]

/-- In a map made of entries the last entry of a key counts. -/
theorem get?_ofList (l : List (κ × α)) (k : κ) :
    (ofList l).get? k = firstValue l.reverse k := by
  rw [ofList, get?_foldl_insert, get?_empty, Option.or_none]

/-- A map made of entries with distinct keys has these bindings. -/
theorem get?_ofList_of_nodup {l : List (κ × α)} (hd : (l.map Prod.fst).Nodup) (k : κ) :
    (ofList l).get? k = firstValue l k := by
  rw [get?_ofList]
  apply firstValue_perm l.reverse_perm
  exact (l.reverse_perm.map Prod.fst).nodup_iff.mpr hd

/-- The arrangement of entries with distinct keys does not matter to the map made of them. -/
theorem ofList_perm {l m : List (κ × α)} (hp : l.Perm m) (hd : (m.map Prod.fst).Nodup) :
    ofList l = ofList m := by
  have hl : (l.map Prod.fst).Nodup := (hp.map Prod.fst).nodup_iff.mpr hd
  apply ext_get?
  intro k
  rw [get?_ofList_of_nodup hl, get?_ofList_of_nodup hd, firstValue_perm hp hl]

/-- The bindings of a map made of entries are among them. -/
theorem mem_of_get?_ofList {l : List (κ × α)} {k : κ} {v : α} (h : (ofList l).get? k = some v) :
    (k, v) ∈ l := by
  rw [get?_ofList] at h
  exact List.mem_reverse.mp (mem_of_firstValue h)

/-- A map is made of its own entries. -/
theorem ofList_entries (m : KeyMap κ α) : ofList m.entries = m :=
  ext_get? fun k ↦ by rw [get?_ofList_of_nodup m.nodup_keys, get?_eq_firstValue]

/-- An ordered list is the entries of the map made of it. -/
theorem entries_ofList {l : List (κ × α)} (h : l.Pairwise fun a b ↦ a.1 < b.1) :
    (ofList l).entries = l :=
  congrArg entries (ofList_entries ⟨l, h⟩)

/-- Entries with other values make the map that the entries make, with these values. -/
theorem entries_ofList_map {β : Type} (f : κ × α → β) (l : List (κ × α)) :
    (ofList (l.map fun e ↦ (e.1, f e))).entries = (ofList l).entries.map fun e ↦ (e.1, f e) := by
  have hascending : ((ofList l).entries.map fun e ↦ (e.1, f e)).Pairwise fun a b ↦ a.1 < b.1 :=
    List.pairwise_map.mpr (ofList l).ascending
  rw [← entries_ofList hascending]
  apply congrArg entries
  apply ext_get?
  intro k
  rw [get?_ofList, ← List.map_reverse, firstValue_map_values,
    get?_ofList_of_nodup (nodup_of_ascending hascending), firstValue_map_values,
    ← get?_eq_firstValue, get?_ofList]

/-! ### Overwriting -/

/-- A map overwritten by the bindings of another one. -/
def overwrite (m n : KeyMap κ α) : KeyMap κ α :=
  n.entries.foldl (fun m e ↦ m.insert e.1 e.2) m

/-- Where the second map binds a key its value counts, otherwise the value in the first one. -/
@[simp] theorem get?_overwrite (m n : KeyMap κ α) (k : κ) :
    (m.overwrite n).get? k = (n.get? k).or (m.get? k) := by
  have hd : (n.entries.reverse.map Prod.fst).Nodup :=
    (n.entries.reverse_perm.map Prod.fst).nodup_iff.mpr n.nodup_keys
  rw [overwrite, get?_foldl_insert, firstValue_perm n.entries.reverse_perm hd, ← get?_eq_firstValue]

/-- To overwrite twice is to overwrite by what was overwritten. -/
theorem overwrite_assoc (l m n : KeyMap κ α) :
    (l.overwrite m).overwrite n = l.overwrite (m.overwrite n) :=
  ext_get? fun k ↦ by simp [Option.or_assoc]

/-- The empty map overwritten is the other map. -/
theorem empty_overwrite (m : KeyMap κ α) : empty.overwrite m = m :=
  ext_get? fun k ↦ by simp

end KeyMap

end KeyHarvest
