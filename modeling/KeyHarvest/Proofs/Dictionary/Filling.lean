import KeyHarvest.Proofs.Dictionary.Reconciliation

/-!
# Filling and flattening

Filling and flattening give every leaf the same text, so that a filled dictionary flattened is the
flattened one filled (`entries_flatten_fillEmpty`): of leaves with one text the same one counts
before and after. Filling puts leaves in the place of empty texts and changes nothing else
(`membersFilled_fillMembers`), and doing it again changes nothing (`fillMembers_fillMembers`).
-/

namespace KeyHarvest

namespace Json

mutual

/-- The values are the same, keys and their order included, up to leaves in the place of empty
texts. -/
inductive Filled : Json → Json → Prop
  | empty {w : Json} (h : w.isObject = false) : Filled (.string "") w
  | leaf {v : Json} (h : v.isObject = false) : Filled v v
  | object {a b : List (String × Json)} (h : MembersFilled a b) : Filled (.object a) (.object b)

/-- The members have the same keys in the same order, and their values are the same up to leaves in
the place of empty texts. -/
inductive MembersFilled : List (String × Json) → List (String × Json) → Prop
  | nil : MembersFilled [] []
  | cons {key : String} {v w : Json} {a b : List (String × Json)} (hv : Filled v w)
    (h : MembersFilled a b) : MembersFilled ((key, v) :: a) ((key, w) :: b)

end

private theorem leaves_of_leaf (path : String) {v : Json} (h : v.isObject = false) :
    leaves path v = [(path, v)] := by
  rw [leaves_eq, pathLeaves_of_leaf h]
  rfl

private theorem fillValue_of_leaf (fill : String → Json) (path : String) {v : Json}
    (h : v.isObject = false) : fillValue fill path v = if v.isBlank then fill path else v := by
  cases v with
  | object members => cases h
  | string s => simp [fillValue, isBlank]
  | null | bool | number | array => rfl

section

variable {fill : String → Json}

/-! ### Filling a leaf -/

private theorem isObject_fillValue_of_leaf (hfill : ∀ text, (fill text).isObject = false)
    (path : String)
    {v : Json} (h : v.isObject = false) : (fillValue fill path v).isObject = false := by
  rw [fillValue_of_leaf fill path h]
  split
  · exact hfill path
  · exact h

private theorem filled_fillValue_of_leaf (hfill : ∀ text, (fill text).isObject = false)
    (path : String)
    {v : Json} (h : v.isObject = false) : Filled v (fillValue fill path v) := by
  rw [fillValue_of_leaf fill path h]
  split
  · next hblank =>
    rw [(MergeOptions.isBlank_iff v).mp hblank]
    exact .empty (hfill path)
  · exact .leaf h

private theorem leaves_fillValue_of_leaf (hfill : ∀ text, (fill text).isObject = false)
    (path : String)
    {v : Json} (h : v.isObject = false) : leaves path (fillValue fill path v) =
      (leaves path v).map fun e ↦ (e.1, if e.2.isBlank then fill e.1 else e.2) := by
  rw [leaves_of_leaf path (isObject_fillValue_of_leaf hfill path h), leaves_of_leaf path h,
    fillValue_of_leaf fill path h]
  rfl

/-- What takes the place of an empty text may be empty too; then it is put there again. -/
theorem fillValue_fillValue_of_leaf (hfill : ∀ text, (fill text).isObject = false) (path : String)
    {v : Json} (h : v.isObject = false) :
    fillValue fill path (fillValue fill path v) = fillValue fill path v := by
  rw [fillValue_of_leaf fill path h]
  split
  · rw [fillValue_of_leaf fill path (hfill path), ite_self]
  · next hblank => rw [fillValue_of_leaf fill path h, if_neg hblank]

/-! ### Filling members -/

mutual

private theorem filled_fillValue (hfill : ∀ text, (fill text).isObject = false) (path : String)
    (v : Json) : Filled v (fillValue fill path v) := by
  match v with
  | .object members => exact .object (membersFilled_fillMembers hfill path members)
  | .null | .bool _ | .number _ | .string _ | .array _ =>
    exact filled_fillValue_of_leaf hfill path rfl

/-- Filling puts leaves in the place of empty texts and changes nothing else. -/
theorem membersFilled_fillMembers (hfill : ∀ text, (fill text).isObject = false) (above : String)
    (members : List (String × Json)) : MembersFilled members (fillMembers fill above members) := by
  match members with
  | [] => exact .nil
  | (key, value) :: rest =>
    exact .cons (filled_fillValue hfill (joinPath above key) value)
      (membersFilled_fillMembers hfill above rest)

end

mutual

private theorem leaves_fillValue (hfill : ∀ text, (fill text).isObject = false) (path : String)
    (v : Json) : leaves path (fillValue fill path v) =
      (leaves path v).map fun e ↦ (e.1, if e.2.isBlank then fill e.1 else e.2) := by
  match v with
  | .object members => exact memberLeaves_fillMembers hfill path members
  | .null | .bool _ | .number _ | .string _ | .array _ =>
    exact leaves_fillValue_of_leaf hfill path rfl

/-- Filled, the leaves have the same texts, and an empty one gives way to what its text gives. -/
theorem memberLeaves_fillMembers (hfill : ∀ text, (fill text).isObject = false) (above : String)
    (members : List (String × Json)) : memberLeaves above (fillMembers fill above members) =
      (memberLeaves above members).map fun e ↦ (e.1, if e.2.isBlank then fill e.1 else e.2) := by
  match members with
  | [] => rfl
  | (key, value) :: rest =>
    rw [fillMembers, memberLeaves, memberLeaves, List.map_append,
      leaves_fillValue hfill (joinPath above key) value, memberLeaves_fillMembers hfill above rest]

end

mutual

private theorem fillValue_fillValue (hfill : ∀ text, (fill text).isObject = false) (path : String)
    (v : Json) : fillValue fill path (fillValue fill path v) = fillValue fill path v := by
  match v with
  | .object members => rw [fillValue, fillValue, fillMembers_fillMembers hfill path members]
  | .null | .bool _ | .number _ | .string _ | .array _ =>
    exact fillValue_fillValue_of_leaf hfill path rfl

/-- What was filled stays as it is when it is filled again. -/
theorem fillMembers_fillMembers (hfill : ∀ text, (fill text).isObject = false) (above : String)
    (members : List (String × Json)) :
    fillMembers fill above (fillMembers fill above members) = fillMembers fill above members := by
  match members with
  | [] => rfl
  | (key, value) :: rest =>
    rw [fillMembers, fillMembers, fillValue_fillValue hfill (joinPath above key) value,
      fillMembers_fillMembers hfill above rest]

end

end

end Json

namespace Dictionary

open Json

/-- A filled dictionary flattened is the flattened one filled. -/
theorem entries_flatten_fillEmpty (d : Dictionary) {fill : String → Json}
    (hfill : ∀ text, (fill text).isObject = false) :
    (d.fillEmpty fill).flatten.entries =
      d.flatten.entries.map fun e ↦ (e.1, if e.2 = .string "" then fill e.1 else e.2) := by
  rw [fillEmpty, flatten, memberLeaves_fillMembers hfill, KeyMap.entries_ofList_map]
  simp only [MergeOptions.isBlank_iff]
  rfl

/-- Flattened, a dictionary filled with the texts of paths has at each key with an empty text the
key itself, and one filled with null has null there. Both fillings leave all keys in their order and
all values but the empty texts as they are, and change nothing when they are repeated. -/
theorem flatten_fill (d : Dictionary) :
    d.fillWithPath.flatten.entries =
      (d.flatten.entries.map fun e ↦ (e.1, if e.2 = .string "" then .string e.1 else e.2)) ∧
    d.fillWithNull.flatten.entries =
      (d.flatten.entries.map fun e ↦ (e.1, if e.2 = .string "" then .null else e.2)) ∧
    MembersFilled d d.fillWithPath ∧ MembersFilled d d.fillWithNull ∧
    d.fillWithPath.fillWithPath = d.fillWithPath ∧
    d.fillWithNull.fillWithNull = d.fillWithNull := by
  have htext (text : String) : (Json.string text).isObject = false := rfl
  have hnull (_ : String) : Json.null.isObject = false := rfl
  exact ⟨entries_flatten_fillEmpty d htext, entries_flatten_fillEmpty d hnull,
    membersFilled_fillMembers htext "" d, membersFilled_fillMembers hnull "" d,
    fillMembers_fillMembers htext "" d, fillMembers_fillMembers hnull "" d⟩

/-- Two leaves with one text, the empty one before and behind the other. -/
example :
    let first : Dictionary := [("a", .object [("b", .string "")]), ("a.b", .string "x")]
    let second : Dictionary := [("a.b", .string "x"), ("a", .object [("b", .string "")])]
    first.fillWithPath.flatten.entries = [("a.b", .string "x")] ∧
      second.fillWithPath.flatten.entries = [("a.b", .string "a.b")] := by
  decide

end Dictionary

end KeyHarvest
