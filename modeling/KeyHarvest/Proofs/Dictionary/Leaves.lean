import KeyHarvest.Dictionary.Reconcile
import KeyHarvest.Proofs.Json.Sorting

/-!
# Leaves by their paths

`pathLeaves` lists the leaves of a value with their paths, where flattening lists them with the
texts of the paths (`memberLeaves_eq`). In a dictionary with distinct keys a leaf is what a path
leads to (`mem_memberPathLeaves_iff`).

`mapLeaves` replaces every leaf by what its path and it give. Overlaying a template and filling
empty entries are both of this kind (`overlayMembers_eq`, `fillMembers_eq`), so what they do to
leaves, keys and shape is proved once.
-/

namespace KeyHarvest

/-- The text of a path below a place that has a text already. -/
def pathTextFrom (above : String) (path : List String) : String :=
  path.foldl joinPath above

/-- The text under which flattening lists the leaf at a path. -/
def pathText (path : List String) : String :=
  pathTextFrom "" path

namespace Json

mutual

/-- The leaves of a value with their paths, in document order. -/
def pathLeaves : Json → List (List String × Json)
  | .object members => memberPathLeaves members
  | .null => [([], .null)]
  | .bool b => [([], .bool b)]
  | .number n => [([], .number n)]
  | .string s => [([], .string s)]
  | .array items => [([], .array items)]

/-- The leaves of members with their paths, in document order. -/
def memberPathLeaves : List (String × Json) → List (List String × Json)
  | [] => []
  | (key, value) :: rest =>
    (pathLeaves value).map (fun e ↦ (key :: e.1, e.2)) ++ memberPathLeaves rest

end

mutual

/-- The value with every leaf replaced by what its path and it give. -/
def mapLeaves (f : List String → Json → Json) : Json → Json
  | .object members => .object (mapMembers f members)
  | .null => f [] .null
  | .bool b => f [] (.bool b)
  | .number n => f [] (.number n)
  | .string s => f [] (.string s)
  | .array items => f [] (.array items)

/-- The members with every leaf replaced by what its path and it give. -/
def mapMembers (f : List String → Json → Json) : List (String × Json) → List (String × Json)
  | [] => []
  | (key, value) :: rest =>
    (key, mapLeaves (fun path ↦ f (key :: path)) value) :: mapMembers f rest

end

/-- The value at a path below a value; the value itself is at the empty path. -/
def at? : Json → List String → Option Json
  | v, [] => some v
  | .object members, path => Dictionary.getAt? members path
  | .null, _ | .bool _, _ | .number _, _ | .string _, _ | .array _, _ => none

/-! ### Leaves of leaves and of members -/

/-- A value that is no object is its own only leaf. -/
theorem pathLeaves_of_leaf {v : Json} (h : v.isObject = false) : pathLeaves v = [([], v)] := by
  cases v with
  | object members => cases h
  | null | bool | number | string | array => rfl

/-- To change the leaves of a value that is no object is to change the value. -/
theorem mapLeaves_of_leaf (f : List String → Json → Json) {v : Json} (h : v.isObject = false) :
    mapLeaves f v = f [] v := by
  cases v with
  | object members => cases h
  | null | bool | number | string | array => rfl

/-- The leaves of members in two parts. -/
theorem memberPathLeaves_append (l m : List (String × Json)) :
    memberPathLeaves (l ++ m) = memberPathLeaves l ++ memberPathLeaves m := by
  induction l with
  | nil => rfl
  | cons e l ih => rw [List.cons_append, memberPathLeaves, ih, memberPathLeaves, List.append_assoc]

/-- A leaf of members is a leaf of one of them. -/
theorem mem_memberPathLeaves (members : List (String × Json)) (path : List String) (v : Json) :
    (path, v) ∈ memberPathLeaves members ↔
      ∃ key rest value, path = key :: rest ∧ (key, value) ∈ members ∧
        (rest, v) ∈ pathLeaves value := by
  induction members with
  | nil => simp [memberPathLeaves]
  | cons e members ih =>
    rw [memberPathLeaves, List.mem_append, ih, List.mem_map]
    constructor
    · rintro (⟨⟨rest, w⟩, hm, he⟩ | ⟨key, rest, value, hp, hm, hl⟩)
      · cases he
        exact ⟨e.1, rest, e.2, rfl, List.mem_cons_self, hm⟩
      · exact ⟨key, rest, value, hp, List.mem_cons_of_mem _ hm, hl⟩
    · rintro ⟨key, rest, value, rfl, hm, hl⟩
      rcases List.mem_cons.mp hm with rfl | hm
      · exact .inl ⟨(rest, v), hl, rfl⟩
      · exact .inr ⟨key, rest, value, rfl, hm, hl⟩

mutual

/-- No leaf is an object. -/
theorem isObject_of_mem_pathLeaves (v : Json) {e : List String × Json} (h : e ∈ pathLeaves v) :
    e.2.isObject = false := by
  match v with
  | .object members => exact isObject_of_mem_memberPathLeaves members h
  | .null | .bool _ | .number _ | .string _ | .array _ =>
    rw [List.mem_singleton.mp h]
    rfl

/-- No leaf is an object. -/
theorem isObject_of_mem_memberPathLeaves (members : List (String × Json))
    {e : List String × Json} (h : e ∈ memberPathLeaves members) : e.2.isObject = false := by
  match members with
  | [] => cases h
  | (key, value) :: rest =>
    rcases List.mem_append.mp h with h | h
    · obtain ⟨e', he', rfl⟩ := List.mem_map.mp h
      have hl := isObject_of_mem_pathLeaves value he'
      exact hl
    · exact isObject_of_mem_memberPathLeaves rest h

end

/-! ### Leaves and lookup -/

/-- What is at a path is found from the member of its first key. -/
theorem getAt?_cons (d : Dictionary) (key : String) (rest : List String) :
    d.getAt? (key :: rest) = (d.get? key).bind fun v ↦ v.at? rest := by
  cases rest with
  | nil => cases h : d.get? key <;> simp [Dictionary.getAt?, at?, h]
  | cons key' rest =>
    rw [Dictionary.getAt?]
    cases h : d.get? key with
    | none => rfl
    | some v => cases v <;> rfl
    intro h
    cases h

/-- What is at a path in an object is what is there in its members. -/
theorem at?_object (members : Members) {path : List String} (h : path ≠ []) :
    (Json.object members).at? path = Dictionary.getAt? members path := by
  cases path with
  | nil => exact absurd rfl h
  | cons key rest => rfl

/-- No path leads on from a leaf. -/
theorem at?_of_leaf {v : Json} (h : v.isObject = false) {path : List String} (hne : path ≠ []) :
    v.at? path = none := by
  cases path with
  | nil => exact absurd rfl hne
  | cons key rest =>
    cases v with
    | object members => cases h
    | null | bool | number | string | array => rfl

/-- What holds everywhere in a value holds everywhere in what a path leads to. -/
theorem everywhere_of_at? {p : Json → Bool} {v w : Json} (hv : v.everywhere p = true)
    {path : List String} (h : v.at? path = some w) : w.everywhere p = true := by
  induction path generalizing v with
  | nil =>
    cases h
    exact hv
  | cons key rest ih =>
    cases v with
    | object members =>
      rw [at?_object members (List.cons_ne_nil _ _), getAt?_cons, Option.bind_eq_some_iff] at h
      obtain ⟨x, hg, h⟩ := h
      exact ih (((everywhere_object_iff p members).mp hv).2 _ (Members.mem_of_get? hg)) h
    | null | bool | number | string | array => cases h

/-- What holds everywhere in members holds everywhere in what a path leads to. -/
theorem everywhere_of_getAt? {p : Json → Bool} {d : Dictionary} {w : Json}
    (hd : ∀ e ∈ d, e.2.everywhere p = true) {path : List String} (h : d.getAt? path = some w) :
    w.everywhere p = true := by
  cases path with
  | nil => cases h
  | cons key rest =>
    rw [getAt?_cons, Option.bind_eq_some_iff] at h
    obtain ⟨v, hg, h⟩ := h
    exact everywhere_of_at? (hd _ (Members.mem_of_get? hg)) h

/-- The leaves of a value with distinct keys are what paths lead to, objects apart. -/
theorem mem_pathLeaves_iff {v : Json} (hd : v.Distinct) (path : List String) (w : Json) :
    (path, w) ∈ pathLeaves v ↔ v.at? path = some w ∧ w.isObject = false := by
  induction path generalizing v with
  | nil =>
    rw [at?]
    constructor
    · intro h
      have hw := isObject_of_mem_pathLeaves v h
      cases v with
      | object members =>
        obtain ⟨key, rest, value, hp, -⟩ := (mem_memberPathLeaves members [] w).mp h
        cases hp
      | null | bool | number | string | array =>
        cases List.mem_singleton.mp h
        exact ⟨rfl, rfl⟩
    · rintro ⟨hv, hw⟩
      cases hv
      rw [pathLeaves_of_leaf hw]
      exact List.mem_singleton_self _
  | cons key rest ih =>
    cases v with
    | object members =>
      obtain ⟨hk, hm⟩ := (distinct_object_iff members).mp hd
      rw [at?_object members (List.cons_ne_nil _ _), getAt?_cons, Option.bind_eq_some_iff,
        pathLeaves, mem_memberPathLeaves]
      constructor
      · rintro ⟨key', rest', value, hp, hv, hl⟩
        cases hp
        obtain ⟨hat, hw⟩ := (ih (hm _ hv)).mp hl
        exact ⟨⟨value, (Members.get?_eq_some_iff hk key value).mpr hv, hat⟩, hw⟩
      · rintro ⟨⟨value, hg, hat⟩, hw⟩
        have hv := (Members.get?_eq_some_iff hk key value).mp hg
        exact ⟨key, rest, value, rfl, hv, (ih (hm _ hv)).mpr ⟨hat, hw⟩⟩
    | null | bool | number | string | array => simp [pathLeaves, at?]

/-- The leaves of a dictionary with distinct keys are what paths lead to, objects apart. -/
theorem mem_memberPathLeaves_iff {d : Dictionary} (hd : (Json.object d).Distinct)
    (path : List String) (w : Json) :
    (path, w) ∈ memberPathLeaves d ↔ d.getAt? path = some w ∧ w.isObject = false := by
  have h := mem_pathLeaves_iff hd path w
  cases path with
  | nil =>
    rw [mem_memberPathLeaves, Dictionary.getAt?]
    simp
  | cons key rest => rwa [at?_object d (List.cons_ne_nil _ _)] at h

/-! ### Flattening -/

mutual

/-- The leaves under the texts of their paths are those under their paths. -/
theorem leaves_eq (above : String) (v : Json) :
    leaves above v = (pathLeaves v).map fun e ↦ (pathTextFrom above e.1, e.2) := by
  match v with
  | .object members => exact memberLeaves_eq above members
  | .null | .bool _ | .number _ | .string _ | .array _ => rfl

/-- Flattening lists every leaf under the text of its path. -/
theorem memberLeaves_eq (above : String) (members : List (String × Json)) :
    memberLeaves above members =
      (memberPathLeaves members).map fun e ↦ (pathTextFrom above e.1, e.2) := by
  match members with
  | [] => rfl
  | (key, value) :: rest =>
    rw [memberLeaves, memberPathLeaves, List.map_append, List.map_map,
      leaves_eq (joinPath above key) value, memberLeaves_eq above rest]
    rfl

end

/-! ### Replacing leaves -/

mutual

/-- Replacing leaves by leaves keeps their paths. -/
theorem pathLeaves_mapLeaves (f : List String → Json → Json)
    (hf : ∀ path v, (f path v).isObject = false) (v : Json) :
    pathLeaves (mapLeaves f v) = (pathLeaves v).map fun e ↦ (e.1, f e.1 e.2) := by
  match v with
  | .object members => exact memberPathLeaves_mapMembers f hf members
  | .null | .bool _ | .number _ | .string _ | .array _ =>
    rw [mapLeaves, pathLeaves_of_leaf (hf _ _)]
    rfl

/-- Where leaves stay leaves, those of changed members are the changed ones. -/
theorem memberPathLeaves_mapMembers (f : List String → Json → Json)
    (hf : ∀ path v, (f path v).isObject = false) (members : List (String × Json)) :
    memberPathLeaves (mapMembers f members) =
      (memberPathLeaves members).map fun e ↦ (e.1, f e.1 e.2) := by
  match members with
  | [] => rfl
  | (key, value) :: rest =>
    rw [mapMembers, memberPathLeaves, memberPathLeaves, List.map_append,
      pathLeaves_mapLeaves _ (fun path v ↦ hf (key :: path) v) value, List.map_map, List.map_map,
      memberPathLeaves_mapMembers f hf rest]
    rfl

end

mutual

/-- Only what is put in place of the leaves matters. -/
theorem mapLeaves_congr {f g : List String → Json → Json} (v : Json)
    (h : ∀ e ∈ pathLeaves v, f e.1 e.2 = g e.1 e.2) : mapLeaves f v = mapLeaves g v := by
  match v with
  | .object members => rw [mapLeaves, mapLeaves, mapMembers_congr members h]
  | .null | .bool _ | .number _ | .string _ | .array _ => exact h _ (List.mem_singleton_self _)

/-- Members are changed alike by what changes each of their leaves alike. -/
theorem mapMembers_congr {f g : List String → Json → Json} (members : List (String × Json))
    (h : ∀ e ∈ memberPathLeaves members, f e.1 e.2 = g e.1 e.2) :
    mapMembers f members = mapMembers g members := by
  match members with
  | [] => rfl
  | (key, value) :: rest =>
    rw [memberPathLeaves, List.forall_mem_append, List.forall_mem_map] at h
    have hv : mapLeaves (fun path ↦ f (key :: path)) value =
        mapLeaves (fun path ↦ g (key :: path)) value := mapLeaves_congr value h.1
    rw [mapMembers, mapMembers, hv, mapMembers_congr rest h.2]

end

mutual

/-- Leaves replaced twice are replaced once by both together. -/
theorem mapLeaves_mapLeaves (f g : List String → Json → Json)
    (hf : ∀ path v, (f path v).isObject = false) (v : Json) :
    mapLeaves g (mapLeaves f v) = mapLeaves (fun path w ↦ g path (f path w)) v := by
  match v with
  | .object members =>
    rw [mapLeaves, mapLeaves, mapLeaves, mapMembers_mapMembers f g hf members]
  | .null | .bool _ | .number _ | .string _ | .array _ =>
    exact mapLeaves_of_leaf g (hf _ _)

/-- To change leaves twice is to change them once by both. -/
theorem mapMembers_mapMembers (f g : List String → Json → Json)
    (hf : ∀ path v, (f path v).isObject = false) (members : List (String × Json)) :
    mapMembers g (mapMembers f members) = mapMembers (fun path w ↦ g path (f path w)) members := by
  match members with
  | [] => rfl
  | (key, value) :: rest =>
    rw [mapMembers, mapMembers, mapMembers, mapMembers_mapMembers f g hf rest,
      mapLeaves_mapLeaves _ _ (fun path v ↦ hf (key :: path) v) value]

end

private theorem get?_mapMembers (f : List String → Json → Json) (members : Members) (key : String) :
    Members.get? (mapMembers f members) key =
      (members.get? key).map (mapLeaves fun path ↦ f (key :: path)) := by
  induction members with
  | nil => rfl
  | cons e rest ih =>
    rw [mapMembers, Members.get?, Members.get?]
    split
    · next h => rw [h, Option.map_some]
    · exact ih

/-- Replacing leaves by leaves replaces the leaves of what a path leads to. -/
theorem at?_mapLeaves (f : List String → Json → Json)
    (hf : ∀ path v, (f path v).isObject = false) (v : Json) (path : List String) :
    (mapLeaves f v).at? path = (v.at? path).map (mapLeaves fun below ↦ f (path ++ below)) := by
  induction path generalizing f v with
  | nil => rfl
  | cons key rest ih =>
    have hne : key :: rest ≠ [] := List.cons_ne_nil _ _
    cases v with
    | object members =>
      rw [mapLeaves, at?_object _ hne, at?_object _ hne, getAt?_cons, getAt?_cons, get?_mapMembers]
      cases Members.get? members key with
      | none => rfl
      | some w => exact ih _ (fun path v ↦ hf (key :: path) v) w
    | null | bool | number | string | array =>
      rw [mapLeaves_of_leaf f rfl, at?_of_leaf (hf _ _) hne, at?_of_leaf rfl hne, Option.map_none]

private theorem keys_mapMembers (f : List String → Json → Json) (members : List (String × Json)) :
    (mapMembers f members).map Prod.fst = members.map Prod.fst := by
  induction members with
  | nil => rfl
  | cons e rest ih => rw [mapMembers, List.map_cons, List.map_cons, ih]

mutual

/-- What holds of objects with distinct keys holds everywhere after replacing leaves if it holds
everywhere in what takes their place. -/
theorem everywhere_mapLeaves {p : Json → Bool}
    (hobj : ∀ members, (members.map Prod.fst).Nodup → p (.object members) = true)
    (f : List String → Json → Json) (v : Json) (hd : v.Distinct)
    (hf : ∀ e ∈ pathLeaves v, (f e.1 e.2).everywhere p = true) :
    (mapLeaves f v).everywhere p = true := by
  match v with
  | .object members =>
    obtain ⟨hk, hm⟩ := (distinct_object_iff members).mp hd
    rw [mapLeaves, everywhere_object_iff]
    exact ⟨hobj _ (by rwa [keys_mapMembers]), everywhere_mapMembers hobj f members hm hf⟩
  | .null | .bool _ | .number _ | .string _ | .array _ => exact hf _ (List.mem_singleton_self _)

private theorem everywhere_mapMembers {p : Json → Bool}
    (hobj : ∀ members, (members.map Prod.fst).Nodup → p (.object members) = true)
    (f : List String → Json → Json) (members : List (String × Json))
    (hd : ∀ e ∈ members, e.2.Distinct)
    (hf : ∀ e ∈ memberPathLeaves members, (f e.1 e.2).everywhere p = true) :
    ∀ e ∈ mapMembers f members, e.2.everywhere p = true := by
  match members with
  | [] => simp [mapMembers]
  | (key, value) :: rest =>
    rw [List.forall_mem_cons] at hd
    rw [memberPathLeaves, List.forall_mem_append, List.forall_mem_map] at hf
    rw [mapMembers, List.forall_mem_cons]
    exact ⟨everywhere_mapLeaves hobj _ value hd.1 hf.1, everywhere_mapMembers hobj f rest hd.2 hf.2⟩

end

mutual

/-- What holds everywhere in a value holds everywhere in its leaves. -/
theorem everywhere_of_mem_pathLeaves {p : Json → Bool} (v : Json) (hv : v.everywhere p = true)
    {e : List String × Json} (h : e ∈ pathLeaves v) : e.2.everywhere p = true := by
  match v with
  | .object members =>
    exact everywhere_of_mem_memberPathLeaves members ((everywhere_object_iff p members).mp hv).2 h
  | .null | .bool _ | .number _ | .string _ | .array _ =>
    rw [List.mem_singleton.mp h]
    exact hv

/-- What holds everywhere in members holds everywhere in their leaves. -/
theorem everywhere_of_mem_memberPathLeaves {p : Json → Bool} (members : List (String × Json))
    (hv : ∀ e ∈ members, e.2.everywhere p = true) {e : List String × Json}
    (h : e ∈ memberPathLeaves members) : e.2.everywhere p = true := by
  match members with
  | [] => cases h
  | (key, value) :: rest =>
    rw [List.forall_mem_cons] at hv
    rcases List.mem_append.mp h with h | h
    · obtain ⟨e', he', rfl⟩ := List.mem_map.mp h
      have hl := everywhere_of_mem_pathLeaves value hv.1 he'
      exact hl
    · exact everywhere_of_mem_memberPathLeaves rest hv.2 h

end

end Json

namespace Dictionary

open Json

/-! ### Overlaying and filling -/

mutual

private theorem overlayValue_eq (d : Dictionary) (above : List String) (v : Json) :
    overlayValue d above v =
      mapLeaves (fun path _ ↦ (d.lookupLeaf (above ++ path)).getD (.string "")) v := by
  match v with
  | .object members => rw [overlayValue, mapLeaves, overlayMembers_eq d above members]
  | .null | .bool _ | .number _ | .string _ | .array _ =>
    simp [overlayValue, mapLeaves]

/-- Overlaying replaces every leaf of the template by what is found at its path. -/
theorem overlayMembers_eq (d : Dictionary) (above : List String) (members : List (String × Json)) :
    overlayMembers d above members =
      mapMembers (fun path _ ↦ (d.lookupLeaf (above ++ path)).getD (.string "")) members := by
  match members with
  | [] => rfl
  | (key, value) :: rest =>
    rw [overlayMembers, mapMembers, overlayValue_eq d (above ++ [key]) value,
      overlayMembers_eq d above rest]
    simp only [List.append_assoc, List.singleton_append]

end

mutual

private theorem fillValue_eq (fill : String → Json) (above : String) (v : Json) :
    fillValue fill above v =
      mapLeaves (fun path w ↦ if w.isBlank then fill (pathTextFrom above path) else w) v := by
  match v with
  | .object members => rw [fillValue, mapLeaves, fillMembers_eq fill above members]
  | .string s => simp [fillValue, mapLeaves, isBlank, pathTextFrom]
  | .null | .bool _ | .number _ | .array _ => rfl

/-- Filling replaces every blank leaf by what the text of its path gives. -/
theorem fillMembers_eq (fill : String → Json) (above : String) (members : List (String × Json)) :
    fillMembers fill above members =
      mapMembers (fun path w ↦ if w.isBlank then fill (pathTextFrom above path) else w)
        members := by
  match members with
  | [] => rfl
  | (key, value) :: rest =>
    rw [fillMembers, mapMembers, fillValue_eq fill (joinPath above key) value,
      fillMembers_eq fill above rest]
    rfl

end

end Dictionary

end KeyHarvest
