import KeyHarvest.Proofs.Dictionary.Nest

/-!
# Insertion

A value put at a path is found there, with all that it holds (`getAt?_insertAt_append`). Objects
lead to it (`exists_getAt?_insertAt_above`), and lookup at paths apart from its own finds what it
found before (`getAt?_insertAt_of_apart`).

A second value put at the same path replaces the first (`insertAt_insertAt`). Values are put at
paths apart in either order; then only the order of members may differ
(`membersReordered_insertAt`).

An insertion at a vacant path, where no value stands and none but objects on the way, keeps every
value (`Vacant.keeps_insertAt`).
-/

namespace KeyHarvest.Dictionary

open Json

/-- A path leads on from what its front leads to. -/
theorem at?_append (v : Json) (front back : List String) :
    v.at? (front ++ back) = (v.at? front).bind fun w ↦ w.at? back := by
  induction front generalizing v with
  | nil => rfl
  | cons key front ih =>
    rw [List.cons_append]
    cases v with
    | object members =>
      rw [at?_object _ (List.cons_ne_nil _ _), at?_object _ (List.cons_ne_nil _ _), getAt?_cons,
        getAt?_cons]
      cases Members.get? members key with
      | none => rfl
      | some w => exact ih w
    | null | bool | number | string | array => rfl

/-- What is at a path in two parts is at the second part in what is at the first. -/
theorem getAt?_append (d : Dictionary) {front : List String} (h : front ≠ [])
    (back : List String) :
    d.getAt? (front ++ back) = (d.getAt? front).bind fun v ↦ v.at? back := by
  have hne : front ++ back ≠ [] := fun hnil ↦ h (List.append_eq_nil_iff.mp hnil).1
  rw [← at?_object d h, ← at?_object d hne, at?_append]

/-- Below a key leads what the branch under it leads to. -/
theorem getAt?_branch (value : Option Json) {path : List String} (h : path ≠ []) :
    getAt? (branch value) path = value.bind fun v ↦ v.at? path := by
  have hnil : getAt? [] path = none := by
    cases path with
    | nil => exact absurd rfl h
    | cons key rest => rw [getAt?_cons]; rfl
  cases value with
  | none => exact hnil
  | some v =>
    cases v with
    | object members => exact (at?_object members h).symm
    | null | bool | number | string | array => exact hnil.trans (at?_of_leaf rfl h).symm

/-- A value put at a path is found there, and what it holds is found below. -/
theorem getAt?_insertAt_append (d : Dictionary) {path : List String} (hne : path ≠ []) (v : Json)
    (below : List String) : (d.insertAt path v).getAt? (path ++ below) = v.at? below := by
  induction path generalizing d with
  | nil => exact absurd rfl hne
  | cons key rest ih =>
    rw [List.cons_append, getAt?_cons]
    by_cases hr : rest = []
    · rw [hr, insertAt, Members.get?_set_self]
      rfl
    · have hbelow : rest ++ below ≠ [] := fun h ↦ hr (List.append_eq_nil_iff.mp h).1
      rw [insertAt_cons d key hr, Members.get?_set_self, Option.bind_some, at?_object _ hbelow,
        ih _ hr]

/-- Objects lead to a value put at a path. -/
theorem exists_getAt?_insertAt_above (d : Dictionary) {above rest : List String} (ha : above ≠ [])
    (hr : rest ≠ []) (v : Json) :
    ∃ members, (d.insertAt (above ++ rest) v).getAt? above = some (.object members) := by
  induction above generalizing d with
  | nil => exact absurd rfl ha
  | cons key above ih =>
    have hne : above ++ rest ≠ [] := fun h ↦ hr (List.append_eq_nil_iff.mp h).2
    rw [List.cons_append, insertAt_cons d key hne, getAt?_cons, Members.get?_set_self,
      Option.bind_some]
    by_cases habove : above = []
    · rw [habove]
      exact ⟨_, rfl⟩
    · rw [at?_object _ habove]
      exact ih _ habove

/-- At a path apart from that of a value put elsewhere nothing changes. -/
theorem getAt?_insertAt_of_apart (d : Dictionary) {path other : List String}
    (h : Apart other path) (v : Json) : (d.insertAt path v).getAt? other = d.getAt? other := by
  induction path generalizing d other with
  | nil => exact absurd List.nil_prefix h.2
  | cons key rest ih =>
    cases other with
    | nil => exact absurd List.nil_prefix h.1
    | cons key' rest' =>
      rw [getAt?_cons, getAt?_cons]
      by_cases hk : key' = key
      · subst hk
        rw [apart_cons_iff] at h
        have hr : rest ≠ [] := by
          rintro rfl
          exact h.2 List.nil_prefix
        have hr' : rest' ≠ [] := by
          rintro rfl
          exact h.1 List.nil_prefix
        rw [insertAt_cons d key' hr, Members.get?_set_self, Option.bind_some, at?_object _ hr',
          ih _ h, getAt?_branch _ hr']
      · have hset (w : Json) : Members.get? (Members.set d key w) key' = d.get? key' :=
          Members.get?_set_of_ne d w hk
        by_cases hr : rest = []
        · rw [hr, insertAt, hset]
        · rw [insertAt_cons d key hr, hset]

/-! ### Two insertions -/

/-- Of two values put at a path the second counts. -/
theorem insertAt_insertAt (d : Dictionary) (path : List String) (v w : Json) :
    (d.insertAt path v).insertAt path w = d.insertAt path w := by
  induction path generalizing d with
  | nil => rfl
  | cons key rest ih =>
    by_cases hr : rest = []
    · rw [hr]
      exact Members.set_set d key v w
    · rw [insertAt_cons d key hr, insertAt_cons _ key hr, insertAt_cons d key hr,
        Members.get?_set_self, Members.set_set, branch, ih]

/-- An insertion gives the first key of its path a value that depends on the one it has. -/
theorem exists_insertAt_eq_set (key : String) (rest : List String) (v : Json) :
    ∃ f : Option Json → Json, ∀ d : Dictionary,
      d.insertAt (key :: rest) v = d.set key (f (d.get? key)) := by
  by_cases hr : rest = []
  · exact ⟨fun _ ↦ v, fun d ↦ by rw [hr, insertAt]⟩
  · exact ⟨fun value ↦ .object (insertAt (branch value) rest v), fun d ↦ insertAt_cons d key hr v⟩

/-- Values are put at two paths apart in either order, up to the order of members. -/
theorem membersReordered_insertAt {p q : List String} (h : Apart p q) (d : Dictionary)
    (v w : Json) :
    MembersReordered ((d.insertAt p v).insertAt q w) ((d.insertAt q w).insertAt p v) := by
  induction p generalizing d q with
  | nil => exact absurd List.nil_prefix h.1
  | cons key p ih =>
    cases q with
    | nil => exact absurd List.nil_prefix h.2
    | cons other q =>
      by_cases hkey : key = other
      · -- The second insertion finds the branch that the first one made or kept.
        subst hkey
        rw [apart_cons_iff] at h
        have hp : p ≠ [] := by
          rintro rfl
          exact h.1 List.nil_prefix
        have hq : q ≠ [] := by
          rintro rfl
          exact h.2 List.nil_prefix
        rw [insertAt_cons d key hp, insertAt_cons d key hq, insertAt_cons _ key hq,
          insertAt_cons _ key hp, Members.get?_set_self, Members.get?_set_self, Members.set_set,
          Members.set_set]
        exact membersReordered_set d key (.object (ih h _))
      · obtain ⟨f, hf⟩ := exists_insertAt_eq_set key p v
        obtain ⟨g, hg⟩ := exists_insertAt_eq_set other q w
        rw [hf, hg, hg, hf, Members.get?_set_of_ne d _ (Ne.symm hkey),
          Members.get?_set_of_ne d _ hkey]
        exact membersReordered_of_perm _ (Members.set_set_perm hkey d _ _)

/-- A value put at a path is found there, objects lead to it, and at paths apart from its own
nothing changes. A second value at the path replaces the first, and values are put at paths apart in
either order, up to the order of members. -/
theorem insertAt_laws (d : Dictionary) {path : List String} (hne : path ≠ []) (v : Json) :
    (d.insertAt path v).getAt? path = some v ∧
    (∀ other, Apart other path → (d.insertAt path v).getAt? other = d.getAt? other) ∧
    (∀ above, above ≠ [] → above <+: path → above ≠ path →
      ∃ members, (d.insertAt path v).getAt? above = some (.object members)) ∧
    (∀ w, (d.insertAt path v).insertAt path w = d.insertAt path w) ∧
    ∀ other w, Apart path other →
      Reordered (.object ((d.insertAt path v).insertAt other w))
        (.object ((d.insertAt other w).insertAt path v)) := by
  refine ⟨?_, fun other h ↦ getAt?_insertAt_of_apart d h v, ?_, insertAt_insertAt d path v,
    fun other w h ↦ .object (membersReordered_insertAt h d v w)⟩
  · have hfound := getAt?_insertAt_append d hne v []
    rwa [List.append_nil] at hfound
  · rintro above habove ⟨rest, rfl⟩ hproper
    have hrest : rest ≠ [] := by
      rintro rfl
      exact hproper (List.append_nil above).symm
    exact exists_getAt?_insertAt_above d habove hrest v

/-- Two values put below a text, which gives way to an object with both. -/
theorem insertAt_laws_menu :
    let d : Dictionary := [("menu", .string "Menu"), ("title", .null)]
    let path := ["menu", "file", "open"]
    let other := ["menu", "edit"]
    let inserted := d.insertAt path (.string "Ouvrir")
    path ≠ [] ∧ Apart ["title"] path ∧ Apart path other ∧
      inserted.getAt? path = some (.string "Ouvrir") ∧ inserted.getAt? ["title"] = some .null ∧
      (∃ members, inserted.getAt? ["menu"] = some (.object members)) ∧
      inserted.insertAt path .null = d.insertAt path .null ∧
      inserted.insertAt other .null ≠ (d.insertAt other .null).insertAt path (.string "Ouvrir") ∧
      Reordered (.object (inserted.insertAt other .null))
        (.object ((d.insertAt other .null).insertAt path (.string "Ouvrir"))) := by
  intro d path other inserted
  have hne : path ≠ [] := by decide
  have htitle : Apart ["title"] path := by simp [Apart, path]
  have hother : Apart path other := by simp [Apart, path, other]
  obtain ⟨hfound, hkept, habove, hagain, hcomm⟩ := insertAt_laws d hne (.string "Ouvrir")
  exact ⟨hne, htitle, hother, hfound, hkept ["title"] htitle,
    habove ["menu"] (by decide) (by simp [path]) (by decide), hagain .null, by decide,
    hcomm other .null hother⟩

/-! ### Vacant paths -/

/-- No value stands at a path, and none but objects stand on the way to it. -/
structure Vacant (d : Dictionary) (path : List String) : Prop where
  free : d.getAt? path = none
  way : ∀ above v, above <+: path → d.getAt? above = some v → v.isObject = true

/-- Every value of a dictionary is still there in another one, where an object may have got further
members. -/
def Keeps (d d' : Dictionary) : Prop :=
  ∀ path v, d.getAt? path = some v → ∃ v', d'.getAt? path = some v' ∧
    (v' = v ∨ v.isObject = true ∧ v'.isObject = true)

/-- A value put at a vacant path replaces none. -/
theorem Vacant.keeps_insertAt {d : Dictionary} {path : List String} (h : d.Vacant path)
    (v : Json) : d.Keeps (d.insertAt path v) := by
  intro other w hw
  have hother : other ≠ [] := by
    rintro rfl
    cases hw
  by_cases hbelow : path <+: other
  · obtain ⟨below, rfl⟩ := hbelow
    by_cases hne : path = []
    · rw [hne] at hw ⊢
      exact ⟨w, hw, .inl rfl⟩
    · rw [getAt?_append d hne, h.free] at hw
      cases hw
  · by_cases habove : other <+: path
    · have hobject := h.way other w habove hw
      obtain ⟨rest, rfl⟩ := habove
      have hrest : rest ≠ [] := by
        rintro rfl
        simp at hbelow
      obtain ⟨members, hmembers⟩ := exists_getAt?_insertAt_above d hother hrest v
      exact ⟨_, hmembers, .inr ⟨hobject, rfl⟩⟩
    · exact ⟨w, (getAt?_insertAt_of_apart d ⟨habove, hbelow⟩ v).trans hw, .inl rfl⟩

end KeyHarvest.Dictionary
