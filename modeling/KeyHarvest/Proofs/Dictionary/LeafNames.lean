import KeyHarvest.Proofs.Dictionary.Reconciliation

/-!
# The names of leaves

Flattening lists a leaf under a name, and filling writes that name into it if it is empty. The name
joins the keys on the path of the leaf with dots, without the empty keys that the path begins with:
the text of these is empty, as it is at the root, so nothing tells them from it
(`pathText_eq_leafName`). Empty keys further down keep their dots. A name thus is the text of the
whole path unless the path goes on from an empty key at the root (`leafName_eq_dotted_iff`), and
then it is shorter and may be that of another leaf.
-/

namespace KeyHarvest

/-! ### Names of paths -/

/-- The keys of a path joined with dots, without the empty ones that it begins with. -/
def leafName (path : List String) : String :=
  dotted (path.dropWhile (· == ""))

private theorem leafName_cons_empty (rest : List String) :
    leafName ("" :: rest) = leafName rest := rfl

private theorem leafName_cons {key : String} (h : key ≠ "") (rest : List String) :
    leafName (key :: rest) = dotted (key :: rest) := by
  rw [leafName, List.dropWhile_cons, if_neg (by simpa using h)]

/-- The text of a path, to which a key is joined where there is text before it, is its name. -/
theorem pathText_eq_leafName (path : List String) : pathText path = leafName path := by
  induction path with
  | nil => rfl
  | cons key rest ih =>
    by_cases h : key = ""
    · subst h
      exact ih
    · rw [pathText_cons h, leafName_cons h]

private theorem dotted_cons_cons (first second : String) (rest : List String) :
    dotted (first :: second :: rest) = first ++ "." ++ dotted (second :: rest) :=
  String.intercalate_cons_cons

private theorem length_leafName_le (path : List String) :
    (leafName path).length ≤ (dotted path).length := by
  induction path with
  | nil => exact Nat.le_refl _
  | cons key rest ih =>
    by_cases h : key = ""
    · subst h
      rw [leafName_cons_empty]
      cases rest with
      | nil => exact ih
      | cons second rest =>
        rw [dotted_cons_cons, String.length_append]
        exact Nat.le_trans ih (Nat.le_add_left _ _)
    · exact Nat.le_of_eq (congrArg String.length (leafName_cons h rest))

/-- The name of a path is the text of all its keys unless it goes on from an empty first key. -/
theorem leafName_eq_dotted_iff (path : List String) :
    leafName path = dotted path ↔ ∀ key rest, path ≠ "" :: key :: rest := by
  constructor
  · rintro h key rest rfl
    have hlength := length_leafName_le (key :: rest)
    rw [leafName_cons_empty, dotted_cons_cons] at h
    rw [h, String.length_append, String.length_append] at hlength
    have hdot : ".".length = 1 := rfl
    omega
  · intro h
    match path with
    | [] => rfl
    | [key] =>
      by_cases hkey : key = ""
      · rw [hkey]
        rfl
      · exact leafName_cons hkey []
    | first :: key :: rest =>
      have hfirst : first ≠ "" := by
        rintro rfl
        exact h key rest rfl
      exact leafName_cons hfirst (key :: rest)

/-! ### Named leaves -/

namespace Dictionary

open Json

/-- The last leaf that has a name, in document order. -/
def LastNamed (d : Dictionary) (name : List String → String) (key : String) (v : Json) : Prop :=
  ∃ front path back, memberPathLeaves d = front ++ (path, v) :: back ∧ name path = key ∧
    ∀ e ∈ back, name e.1 ≠ key

/-- Leaves go by names that their paths give. Flattening lists the names, each with the last leaf
that has it, and filling replaces every empty leaf by its own name and nothing else. -/
structure NamesLeaves (d : Dictionary) (name : List String → String) : Prop where
  mem_keys_flatten_iff : ∀ key, key ∈ d.flatten.keys ↔ ∃ e ∈ memberPathLeaves d, name e.1 = key
  get?_flatten_eq_some_iff : ∀ key v, d.flatten.get? key = some v ↔ d.LastNamed name key v
  fillWithPath_eq : d.fillWithPath =
    mapMembers (fun path v ↦ if v = .string "" then .string (name path) else v) d

private theorem flatten_eq_ofList (d : Dictionary) :
    d.flatten = KeyMap.ofList ((memberPathLeaves d).map fun e ↦ (leafName e.1, e.2)) := by
  rw [flatten, memberLeaves_eq]
  simp only [← pathText_eq_leafName]
  rfl

/-- Of leaves with one name the last one is listed. -/
theorem get?_flatten_eq_some_iff (d : Dictionary) (key : String) (v : Json) :
    d.flatten.get? key = some v ↔ d.LastNamed leafName key v := by
  rw [flatten_eq_ofList, KeyMap.get?_ofList, KeyMap.firstValue, List.findSome?_eq_some_iff]
  constructor
  · rintro ⟨back, e, front, hsplit, he, hback⟩
    have hkey : e.1 = key ∧ e.2 = v := by
      by_cases h : e.1 = key <;> simp_all
    rw [List.reverse_eq_append_iff, List.reverse_cons, List.append_assoc, List.singleton_append,
      List.map_eq_append_iff] at hsplit
    obtain ⟨before, rest, hleaves, -, hrest⟩ := hsplit
    obtain ⟨leaf, after, rfl, hleaf, hafter⟩ := List.map_eq_cons_iff.mp hrest
    refine ⟨before, leaf.1, after, ?_, ?_, fun other hother ↦ ?_⟩
    · rw [hleaves, ← hkey.2, ← hleaf]
    · rw [← hkey.1, ← hleaf]
    · have hmem : (leafName other.1, other.2) ∈ back := by
        rw [← List.mem_reverse, ← hafter]
        exact List.mem_map_of_mem hother
      simpa using hback _ hmem
  · rintro ⟨front, path, back, hleaves, hkey, hback⟩
    rw [hleaves]
    refine ⟨(back.map fun e ↦ (leafName e.1, e.2)).reverse, (key, v),
      (front.map fun e ↦ (leafName e.1, e.2)).reverse, ?_, if_pos rfl, fun e he ↦ ?_⟩
    · simp [hkey]
    · obtain ⟨other, hother, rfl⟩ := List.mem_map.mp (List.mem_reverse.mp he)
      exact if_neg (hback other hother)

/-- What is listed are the names of the leaves. -/
theorem mem_keys_flatten_iff (d : Dictionary) (key : String) :
    key ∈ d.flatten.keys ↔ ∃ e ∈ memberPathLeaves d, leafName e.1 = key := by
  rw [KeyMap.mem_keys_iff, KeyMap.contains, Option.isSome_iff_ne_none, flatten_eq_ofList,
    KeyMap.get?_ofList, Ne, KeyMap.firstValue_eq_none_iff, Decidable.not_not, List.map_reverse,
    List.mem_reverse, List.map_map, List.mem_map]
  rfl

private theorem fillWithPath_eq (d : Dictionary) : d.fillWithPath =
    mapMembers (fun path v ↦ if v = .string "" then .string (leafName path) else v) d := by
  rw [fillWithPath, fillEmpty, fillMembers_eq]
  simp only [← pathText_eq_leafName, ← MergeOptions.isBlank_iff]
  rfl

/-- Names that agree on all paths of leaves are as good as each other. -/
theorem NamesLeaves.congr {d : Dictionary} {name name' : List String → String}
    (h : d.NamesLeaves name) (heq : ∀ e ∈ memberPathLeaves d, name e.1 = name' e.1) :
    d.NamesLeaves name' := by
  refine ⟨fun key ↦ ?_, fun key v ↦ ?_, ?_⟩
  · rw [h.mem_keys_flatten_iff]
    exact exists_congr fun e ↦ and_congr_right fun he ↦ by rw [heq e he]
  · rw [h.get?_flatten_eq_some_iff]
    refine exists_congr fun front ↦ exists_congr fun path ↦ exists_congr fun back ↦
      and_congr_right fun hleaves ↦ ?_
    rw [hleaves] at heq
    rw [heq (path, v) (by simp)]
    refine and_congr_right fun _ ↦ forall₂_congr fun e he ↦ ?_
    rw [heq e (by simp [he])]
  · rw [h.fillWithPath_eq]
    exact mapMembers_congr d fun e he ↦ by rw [heq e he]

/-- Flattening and filling name the leaves of any dictionary by `leafName`. That is the text of
their full paths, unless the path of a leaf goes on from an empty key at the root. -/
theorem namesLeaves (d : Dictionary) : d.NamesLeaves leafName ∧
    ((∀ e ∈ memberPathLeaves d, ∀ key rest, e.1 ≠ "" :: key :: rest) → d.NamesLeaves dotted) ∧
    ∀ path, leafName path = dotted path ↔ ∀ key rest, path ≠ "" :: key :: rest := by
  have hnames : d.NamesLeaves leafName :=
    ⟨mem_keys_flatten_iff d, get?_flatten_eq_some_iff d, fillWithPath_eq d⟩
  exact ⟨hnames, fun h ↦ hnames.congr fun e he ↦ (leafName_eq_dotted_iff e.1).mpr (h e he),
    leafName_eq_dotted_iff⟩

/-- Leaves with one full path in two objects, an empty key below the root among their keys. -/
theorem namesLeaves_menu :
    let d : Dictionary :=
      [("menu", .object [("", .string ""), ("open", .string "Ouvrir")]), ("menu.", .string "x")]
    (∀ e ∈ memberPathLeaves d, ∀ key rest, e.1 ≠ "" :: key :: rest) ∧ d.NamesLeaves dotted := by
  intro d
  have h : ∀ e ∈ memberPathLeaves d, ∀ key rest, e.1 ≠ "" :: key :: rest := by
    simp [d, memberPathLeaves, pathLeaves]
  exact ⟨h, (namesLeaves d).2.1 h⟩

/-- A leaf below an empty key is listed under the name of another leaf, which takes its place, and
is filled with that name. -/
theorem leaf_below_empty_key :
    let d : Dictionary := [("", .object [("a", .string "")]), ("a", .string "y")]
    (Json.object d).Distinct ∧
      memberPathLeaves d = [(["", "a"], .string ""), (["a"], .string "y")] ∧
      dotted ["", "a"] = ".a" ∧ d.flatten.entries = [("a", .string "y")] ∧
      d.fillWithPath = [("", .object [("a", .string "a")]), ("a", .string "y")] ∧
      ¬ d.NamesLeaves dotted := by
  intro d
  have hflat : d.flatten.entries = [("a", .string "y")] := by decide
  refine ⟨by decide, rfl, by decide, hflat, by decide, fun h ↦ ?_⟩
  have hkey : ".a" ∈ d.flatten.keys :=
    (h.mem_keys_flatten_iff ".a").mpr ⟨(["", "a"], .string ""), List.mem_cons_self, by decide⟩
  rw [KeyMap.keys, hflat] at hkey
  simp at hkey

end Dictionary

end KeyHarvest
