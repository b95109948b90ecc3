import KeyHarvest.Json.Basic

/-!
# Properties of all values inside a value

`Json.everywhere p` asks `p` of a value and of every value inside it. Two such properties describe
the values that a text can hold: in every object each key stands once (`Distinct`), and every number
is an integer of at most 64 bits (`Integral`). `nesting` counts the arrays and objects around the
innermost value.
-/

namespace KeyHarvest

/-- Whether a number is an integer of 64 bits, with or without sign. The text `-0` stands for one
too, though it is read as the negative zero of the doubles. -/
def Number.isIntegral : Number → Bool
  | .int n => -0x8000000000000000 ≤ n && n < 0x10000000000000000
  | .double x => x == ⟨true, 0, -1074⟩

namespace Json

mutual

/-- Whether a property holds of a value and of every value inside it. -/
def everywhere (p : Json → Bool) : Json → Bool
  | .null => p .null
  | .bool b => p (.bool b)
  | .number n => p (.number n)
  | .string s => p (.string s)
  | .array items => p (.array items) && everyItem p items
  | .object members => p (.object members) && everyMember p members

/-- Whether a property holds everywhere in each of some values. -/
def everyItem (p : Json → Bool) : List Json → Bool
  | [] => true
  | v :: rest => everywhere p v && everyItem p rest

/-- Whether a property holds everywhere in the value of each of some members. -/
def everyMember (p : Json → Bool) : List (String × Json) → Bool
  | [] => true
  | (_, v) :: rest => everywhere p v && everyMember p rest

end

/-- Whether the keys of a value, if it is an object, are distinct. -/
def hasDistinctKeys : Json → Bool
  | .object members => (members.map Prod.fst).Nodup
  | _ => true

/-- Whether a value, if it is a number, is an integer. -/
def isIntegral : Json → Bool
  | .number n => n.isIntegral
  | _ => true

/-- In every object of a value each key stands once. -/
def Distinct (v : Json) : Prop :=
  v.everywhere hasDistinctKeys = true

/-- Every number in a value is an integer. -/
def Integral (v : Json) : Prop :=
  v.everywhere isIntegral = true

instance (v : Json) : Decidable v.Distinct :=
  inferInstanceAs (Decidable (_ = true))

instance (v : Json) : Decidable v.Integral :=
  inferInstanceAs (Decidable (_ = true))

mutual

/-- The number of arrays and objects around the innermost value, the value itself among them. -/
def nesting : Json → Nat
  | .null | .bool _ | .number _ | .string _ => 0
  | .array items => itemsNesting items + 1
  | .object members => membersNesting members + 1

/-- The greatest nesting among values. -/
def itemsNesting : List Json → Nat
  | [] => 0
  | v :: rest => max (nesting v) (itemsNesting rest)

/-- The greatest nesting among the values of members. -/
def membersNesting : List (String × Json) → Nat
  | [] => 0
  | (_, v) :: rest => max (nesting v) (membersNesting rest)

end

/-! ### Items and members one by one -/

private theorem everyItem_iff (p : Json → Bool) (items : List Json) :
    everyItem p items = true ↔ ∀ v ∈ items, everywhere p v = true := by
  induction items with
  | nil => simp [everyItem]
  | cons v rest ih => simp [everyItem, ih]

private theorem everyMember_iff (p : Json → Bool) (members : List (String × Json)) :
    everyMember p members = true ↔ ∀ e ∈ members, everywhere p e.2 = true := by
  induction members with
  | nil => simp [everyMember]
  | cons e rest ih => simp [everyMember, ih]

private theorem everywhere_array_iff (p : Json → Bool) (items : List Json) :
    everywhere p (.array items) = true ↔
      p (.array items) = true ∧ ∀ v ∈ items, everywhere p v = true := by
  rw [everywhere, Bool.and_eq_true, everyItem_iff]

/-- What holds everywhere in an object holds of it and everywhere in its members. -/
theorem everywhere_object_iff (p : Json → Bool) (members : List (String × Json)) :
    everywhere p (.object members) = true ↔
      p (.object members) = true ∧ ∀ e ∈ members, everywhere p e.2 = true := by
  rw [everywhere, Bool.and_eq_true, everyMember_iff]

/-- What holds everywhere in a value holds of the value. -/
theorem of_everywhere {p : Json → Bool} {v : Json} (h : everywhere p v = true) : p v = true := by
  cases v with
  | array items => exact ((everywhere_array_iff p items).mp h).1
  | object members => exact ((everywhere_object_iff p members).mp h).1
  | null | bool | number | string => exact h

/-- An array has distinct keys if its items have. -/
theorem distinct_array_iff (items : List Json) :
    (Json.array items).Distinct ↔ ∀ v ∈ items, v.Distinct := by
  simp [Distinct, everywhere_array_iff, hasDistinctKeys]

/-- An object has distinct keys if its own are distinct and those of its members are. -/
theorem distinct_object_iff (members : List (String × Json)) :
    (Json.object members).Distinct ↔
      (members.map Prod.fst).Nodup ∧ ∀ e ∈ members, e.2.Distinct := by
  rw [Distinct, everywhere_object_iff, hasDistinctKeys, decide_eq_true_iff]
  rfl

/-- An array is integral if its items are. -/
theorem integral_array_iff (items : List Json) :
    (Json.array items).Integral ↔ ∀ v ∈ items, v.Integral := by
  simp [Integral, everywhere_array_iff, isIntegral]

/-- An object is integral if its members are. -/
theorem integral_object_iff (members : List (String × Json)) :
    (Json.object members).Integral ↔ ∀ e ∈ members, e.2.Integral := by
  simp [Integral, everywhere_object_iff, isIntegral]

private theorem itemsNesting_le_iff (n : Nat) (items : List Json) :
    itemsNesting items ≤ n ↔ ∀ v ∈ items, v.nesting ≤ n := by
  induction items with
  | nil => simp [itemsNesting]
  | cons v rest ih => rw [itemsNesting, Nat.max_le, ih, List.forall_mem_cons]

/-- Members are nested as deep as each of them at most. -/
theorem membersNesting_le_iff (n : Nat) (members : List (String × Json)) :
    membersNesting members ≤ n ↔ ∀ e ∈ members, e.2.nesting ≤ n := by
  induction members with
  | nil => simp [membersNesting]
  | cons e rest ih => rw [membersNesting, Nat.max_le, ih, List.forall_mem_cons]

/-- An array is nested one deeper than its items. -/
theorem nesting_array_le_iff (n : Nat) (items : List Json) :
    (Json.array items).nesting ≤ n + 1 ↔ ∀ v ∈ items, v.nesting ≤ n := by
  rw [nesting, Nat.succ_le_succ_iff, itemsNesting_le_iff]

/-- An object is nested one deeper than its members. -/
theorem nesting_object_le_iff (n : Nat) (members : List (String × Json)) :
    (Json.object members).nesting ≤ n + 1 ↔ ∀ e ∈ members, e.2.nesting ≤ n := by
  rw [nesting, Nat.succ_le_succ_iff, membersNesting_le_iff]

/-- An array is too deep exactly if an item is. -/
theorem lt_nesting_array_iff (n : Nat) (items : List Json) :
    n + 1 < (Json.array items).nesting ↔ ∃ v ∈ items, n < v.nesting := by
  rw [← Nat.not_le, nesting_array_le_iff]
  simp

/-- An object is too deep exactly if a member is. -/
theorem lt_nesting_object_iff (n : Nat) (members : List (String × Json)) :
    n + 1 < (Json.object members).nesting ↔ ∃ e ∈ members, n < e.2.nesting := by
  rw [← Nat.not_le, nesting_object_le_iff]
  simp

end Json

end KeyHarvest
