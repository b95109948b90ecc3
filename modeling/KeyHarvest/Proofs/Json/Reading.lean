import KeyHarvest.Json.Reader
import KeyHarvest.Proofs.Except
import KeyHarvest.Proofs.Json.Members

/-!
# What reading can give

Whatever text is read, the objects of its value have distinct keys (`distinct_parse`), since a key
that comes again replaces the value it had, and the value is nested no deeper than the reader allows
(`nesting_parse`). What the loops over elements and members give is made of what the reader of one
element gives (`mem_elements`, `members_induction`), so a property of the values that are read is
proved by induction over what they are made of (`value_induction`).
-/

namespace KeyHarvest.Json

namespace Reader

variable {α β : Type} {element : List Char → Except Fault (α × List Char)}

/-- Each element of an array has been read. -/
theorem mem_elements {P : α → Prop} (hel : ∀ cs v rest, element cs = .ok (v, rest) → P v)
    {first : Bool} {fuel : Nat} {cs : List Char} {items : List α} {rest : List Char}
    (h : elements element first fuel cs = .ok (items, rest)) : ∀ v ∈ items, P v := by
  induction fuel generalizing first cs items with
  | zero => cases h
  | succ fuel ih =>
    rw [elements, bind_eq_ok_iff] at h
    obtain ⟨⟨more, next⟩, -, h⟩ := h
    cases more with
    | false =>
      cases h
      simp
    | true =>
      simp only [if_true, bind_eq_ok_iff] at h
      obtain ⟨⟨v, afterValue⟩, hv, ⟨vs, afterAll⟩, hvs, h⟩ := h
      cases h
      exact List.forall_mem_cons.mpr ⟨hel _ _ _ hv, ih hvs⟩

/-- What holds before the first member, and is kept by each that is put in, holds after the last. -/
theorem members_induction {P : α → Prop} {Q : β → Prop}
    (hel : ∀ cs v rest, element cs = .ok (v, rest) → P v) {put : β → String → α → β}
    (hput : ∀ b key v, Q b → P v → Q (put b key v)) {first : Bool} {sofar : β} (hq : Q sofar)
    {fuel : Nat} {cs : List Char} {made : β} {rest : List Char}
    (h : members element put first sofar fuel cs = .ok (made, rest)) : Q made := by
  induction fuel generalizing first sofar cs with
  | zero => cases h
  | succ fuel ih =>
    rw [members, bind_eq_ok_iff] at h
    obtain ⟨⟨more, next⟩, -, h⟩ := h
    cases more with
    | false =>
      cases h
      exact hq
    | true =>
      simp only [if_true, bind_eq_ok_iff] at h
      obtain ⟨⟨key, afterKey⟩, -, afterColon, -, ⟨v, afterValue⟩, hv, h⟩ := h
      exact ih (hput _ key v hq (hel _ _ _ hv)) h

/-- What is read as one token is neither an array nor an object. -/
theorem nesting_scalar {fuel : Nat} {cs : List Char} {v : Json} {rest : List Char}
    (h : scalar fuel cs = .ok (v, rest)) : v.nesting = 0 := by
  rw [scalar.eq_def] at h
  repeat' split at h
  all_goals
    first
    | cases h
    | rw [bind_eq_ok_iff] at h
      obtain ⟨_, -, h⟩ := h
      cases h
      rfl

/-- What holds of single tokens, and goes over to arrays from their items and to objects member by
member, holds of a value that is read, where the number says how deep it may be nested. -/
theorem value_induction {P : Nat → Json → Prop} (htoken : ∀ depth v, v.nesting = 0 → P depth v)
    (harray : ∀ depth items, (∀ v ∈ items, P depth v) → P (depth + 1) (.array items))
    (hempty : ∀ depth, P (depth + 1) (.object []))
    (hset : ∀ depth (entries : Members) key v, P (depth + 1) (.object entries) → P depth v →
      P (depth + 1) (.object (entries.set key v)))
    {fuel depth : Nat} {cs : List Char} {v : Json} {rest : List Char}
    (h : value fuel depth cs = .ok (v, rest)) : P depth v := by
  induction depth generalizing cs v rest with
  | zero =>
    rw [value] at h
    split at h
    · cases h
    · cases h
    · exact htoken 0 v (nesting_scalar h)
  | succ depth ih =>
    have hel (cs : List Char) (v : Json) (rest : List Char)
        (hv : value fuel depth cs = .ok (v, rest)) : P depth v := ih hv
    rw [value] at h
    split at h
    · rw [bind_eq_ok_iff] at h
      obtain ⟨⟨items, last⟩, hitems, h⟩ := h
      cases h
      exact harray depth items (mem_elements hel hitems)
    · rw [bind_eq_ok_iff] at h
      obtain ⟨⟨entries, last⟩, hentries, h⟩ := h
      cases h
      exact members_induction (Q := fun entries ↦ P (depth + 1) (.object entries)) hel
        (fun entries key v ↦ hset depth entries key v) (hempty depth) hentries
    · exact htoken (depth + 1) v (nesting_scalar h)

/-- The keys of every object that is read are distinct. -/
theorem distinct_value {fuel depth : Nat} {cs : List Char} {v : Json} {rest : List Char}
    (h : value fuel depth cs = .ok (v, rest)) : v.Distinct := by
  refine value_induction (P := fun _ v ↦ v.Distinct) ?_ ?_ ?_ ?_ h
  · intro _ v hv
    cases v with
    | array | object => cases hv
    | null | bool | number | string => rfl
  · exact fun _ items ↦ (distinct_array_iff items).mpr
  · exact fun _ ↦ rfl
  · exact fun _ entries key v hentries hv ↦ Members.distinct_set hentries key hv

/-- A value that is read is nested no deeper than allowed. -/
theorem nesting_value {fuel depth : Nat} {cs : List Char} {v : Json} {rest : List Char}
    (h : value fuel depth cs = .ok (v, rest)) : v.nesting ≤ depth := by
  refine value_induction (P := fun depth v ↦ v.nesting ≤ depth) ?_ ?_ ?_ ?_ h
  · exact fun depth v hv ↦ hv ▸ Nat.zero_le depth
  · exact fun depth items ↦ (nesting_array_le_iff depth items).mpr
  · exact fun depth ↦ Nat.le_add_left 1 depth
  · intro depth entries key v hentries hv
    rw [nesting_object_le_iff] at hentries ⊢
    intro e he
    rcases Members.mem_set he with rfl | he
    · exact hv
    · exact hentries e he

/-- What `finish` lets through has been read, with only spaces behind it. -/
theorem exists_of_finish {result : Except Fault (α × List Char)} {a : α}
    (h : finish result = .ok a) : ∃ rest, result = .ok (a, rest) := by
  rw [finish, bind_eq_ok_iff] at h
  obtain ⟨⟨b, rest⟩, hb, h⟩ := h
  simp only at h
  split at h
  · cases h
    exact ⟨rest, hb⟩
  · cases h

end Reader

/-- The objects of a value that is read have distinct keys. -/
theorem distinct_parse {text : String} {v : Json} (h : parse text = .ok v) : v.Distinct := by
  obtain ⟨rest, hread⟩ := Reader.exists_of_finish h
  exact Reader.distinct_value hread

/-- No value that is read is nested deeper than the reader allows. -/
theorem nesting_parse {text : String} {v : Json} (h : parse text = .ok v) : v.nesting < 128 := by
  obtain ⟨rest, hread⟩ := Reader.exists_of_finish h
  exact Nat.lt_succ_of_le (Reader.nesting_value hread)

end KeyHarvest.Json
