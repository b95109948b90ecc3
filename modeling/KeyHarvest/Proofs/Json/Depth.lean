import KeyHarvest.Proofs.Json.Everywhere
import KeyHarvest.Proofs.Json.Reading
import KeyHarvest.Proofs.Json.RoundTrip
import Mathlib.Data.List.Basic

/-!
# Values nested too deep

The reader allows 127 arrays and objects around one another, and the text of a value that is nested
deeper is refused for that reason (`parse_pretty_of_deep`): everything before the place where the
limit is passed is read back.
-/

namespace KeyHarvest.Json

namespace Reader

/-- Reading has failed because of nesting. -/
def TooDeep {α : Type} (result : Except Fault α) : Prop :=
  ∃ unread ahead, result = .error ⟨.nestedTooDeep, unread, ahead⟩

/-- A reader that meets too deep a value fails so whatever follows. -/
theorem TooDeep.bind {α β : Type} {result : Except Fault α} (h : TooDeep result)
    (f : α → Except Fault β) : TooDeep (result >>= f) := by
  obtain ⟨unread, ahead, rfl⟩ := h
  exact ⟨unread, ahead, rfl⟩

/-- A reader refuses a value, written behind some spaces, for its nesting. -/
def Refuses (element : List Char → Except Fault (Json × List Char)) (gap : List Char)
    (width level limit : Nat) (v : Json) : Prop :=
  ∀ rest, EndsNumber rest → (prettyChars width level v ++ rest).length < limit →
    TooDeep (element (gap ++ (prettyChars width level v ++ rest)))

/-- A reader takes a value back or refuses it for its nesting. -/
def Decides (element : List Char → Except Fault (Json × List Char)) (gap : List Char)
    (width level limit : Nat) (v : Json) : Prop :=
  TakesBack element gap width level limit v ∨ Refuses element gap width level limit v

/-- A value is refused also behind a space. -/
theorem Refuses.space {width level limit fuel depth : Nat} {v : Json}
    (h : Refuses (value fuel depth) [] width level limit v) :
    Refuses (value fuel depth) [' '] width level limit v := by
  intro rest hr hshort
  rw [List.singleton_append, value_space]
  exact h rest hr hshort

/-- A value is decided also behind a space. -/
theorem Decides.space {width level limit fuel depth : Nat} {v : Json}
    (h : Decides (value fuel depth) [] width level limit v) :
    Decides (value fuel depth) [' '] width level limit v :=
  h.imp TakesBack.space Refuses.space

/-- The loop over the elements of an array stops at the first that is refused. -/
theorem elements_refused (width level : Nat)
    {element : List Char → Except Fault (Json × List Char)} {items : List Json} {limit : Nat}
    (hi : ∀ v ∈ items, v.isIntegral = true)
    (hel : ∀ v ∈ items, Decides element [] width level limit v)
    (hex : ∃ v ∈ items, Refuses element [] width level limit v) (first : Bool)
    {rest : List Char} (hr : EndsNumber rest) {fuel : Nat} (hlimit : fuel ≤ limit)
    (hfuel : (dividedItems width level first items ++ rest).length < fuel) :
    TooDeep (elements element first fuel (dividedItems width level first items ++ rest)) := by
  induction items generalizing first fuel with
  | nil =>
    obtain ⟨v, hv, -⟩ := hex
    cases hv
  | cons x xs ih =>
    obtain ⟨hx, hxs⟩ := List.forall_mem_cons.mp hi
    obtain ⟨helx, helxs⟩ := List.forall_mem_cons.mp hel
    have hends := endsNumber_dividedItems width level xs hr
    cases fuel with
    | zero => cases hfuel
    | succ fuel =>
      have hshort := length_dividedItems_cons width level first x xs
      rw [List.length_append] at hfuel
      have hlength : (prettyChars width level x ++
          (dividedItems width level false xs ++ rest)).length < limit := by
        rw [List.length_append, List.length_append]
        omega
      rw [elements_divided width level element first hx]
      by_cases hrefuses : Refuses element [] width level limit x
      · exact (hrefuses _ hends hlength).bind _
      · have hread := helx.resolve_right hrefuses _ hends hlength
        rw [List.nil_append] at hread
        have hexs : ∃ v ∈ xs, Refuses element [] width level limit v :=
          (List.or_exists_of_exists_mem_cons hex).resolve_left hrefuses
        rw [hread, ok_bind]
        exact (ih hxs helxs hexs false (by omega) (by rw [List.length_append]; omega)).bind _

/-- The loop over the members of an object stops at the first that is refused. -/
theorem members_refused (width level : Nat)
    {element : List Char → Except Fault (Json × List Char)} {entries : Members} {limit : Nat}
    (hel : ∀ e ∈ entries, Decides element [' '] width level limit e.2)
    (hex : ∃ e ∈ entries, Refuses element [' '] width level limit e.2) (first : Bool)
    (sofar : Members) (hd : ((sofar ++ entries).map Prod.fst).Nodup)
    {rest : List Char} (hr : EndsNumber rest) {fuel : Nat} (hlimit : fuel ≤ limit)
    (hfuel : (dividedMembers width level first entries ++ rest).length < fuel) :
    TooDeep (members element Members.set first sofar fuel
      (dividedMembers width level first entries ++ rest)) := by
  induction entries generalizing first sofar fuel with
  | nil =>
    obtain ⟨e, he, -⟩ := hex
    cases he
  | cons e es ih =>
    obtain ⟨key, x⟩ := e
    obtain ⟨helx, heles⟩ := List.forall_mem_cons.mp hel
    have hends := endsNumber_dividedMembers width level es hr
    have hfree := not_mem_keys_of_nodup hd
    rw [← List.singleton_append, ← List.append_assoc] at hd
    cases fuel with
    | zero => cases hfuel
    | succ fuel =>
      have hshort := length_dividedMembers_cons width level first key x es
      rw [members_divided width level element first hfree x es _ hfuel]
      rw [List.length_append] at hfuel
      have hlength : (prettyChars width level x ++
          (dividedMembers width level false es ++ rest)).length < limit := by
        rw [List.length_append, List.length_append]
        omega
      by_cases hrefuses : Refuses element [' '] width level limit x
      · exact (hrefuses _ hends hlength).bind _
      · have hexs : ∃ e ∈ es, Refuses element [' '] width level limit e.2 :=
          (List.or_exists_of_exists_mem_cons hex).resolve_left hrefuses
        rw [helx.resolve_right hrefuses _ hends hlength, ok_bind]
        exact ih heles hexs false _ hd (by omega) (by rw [List.length_append]; omega)

/-- Where no further nesting is allowed, arrays and objects are refused. -/
theorem refuses_zero (width level limit : Nat) {v : Json} (hn : 0 < v.nesting) :
    Refuses (value limit 0) [] width level limit v := by
  intro rest _ _
  cases v with
  | null | bool | number | string => cases hn
  | array items => cases items <;> exact ⟨_, _, rfl⟩
  | object entries => cases entries <;> exact ⟨_, _, rfl⟩

/-- An array is refused if one of its elements is. -/
theorem refuses_array (width level limit depth : Nat) {items : List Json}
    (hi : ∀ v ∈ items, v.isIntegral = true)
    (hel : ∀ v ∈ items, Decides (value limit depth) [] width (level + 1) limit v)
    (hex : ∃ v ∈ items, Refuses (value limit depth) [] width (level + 1) limit v) :
    Refuses (value limit (depth + 1)) [] width level limit (.array items) := by
  intro rest hr hshort
  rw [List.nil_append]
  cases items with
  | nil =>
    obtain ⟨v, hv, -⟩ := hex
    cases hv
  | cons x xs =>
    have hends := endsNumber_newline width level (']' :: rest)
    have hloop := elements_refused width (level + 1) hi hel hex true hends (Nat.le_refl limit)
    rw [prettyChars_array_cons] at hshort ⊢
    rw [value, skipSpace_cons (by decide)]
    exact (hloop (Nat.lt_of_succ_lt hshort)).bind _

/-- An object is refused if one of its values is. -/
theorem refuses_object (width level limit depth : Nat) {entries : Members}
    (hd : (entries.map Prod.fst).Nodup)
    (hel : ∀ e ∈ entries, Decides (value limit depth) [] width (level + 1) limit e.2)
    (hex : ∃ e ∈ entries, Refuses (value limit depth) [] width (level + 1) limit e.2) :
    Refuses (value limit (depth + 1)) [] width level limit (.object entries) := by
  intro rest hr hshort
  rw [List.nil_append]
  cases entries with
  | nil =>
    obtain ⟨e, he, -⟩ := hex
    cases he
  | cons e es =>
    have hends := endsNumber_newline width level ('\x7d' :: rest)
    have hex' : ∃ e' ∈ e :: es, Refuses (value limit depth) [' '] width (level + 1) limit e'.2 :=
      hex.imp fun e' h ↦ ⟨h.1, h.2.space⟩
    have hloop := members_refused width (level + 1) (fun e he ↦ (hel e he).space) hex' true
      [] hd hends (Nat.le_refl limit)
    rw [prettyChars_object_cons] at hshort ⊢
    rw [value, skipSpace_cons (by decide)]
    exact (hloop (Nat.lt_of_succ_lt hshort)).bind _

/-- A written value that is nested too deep is refused. -/
theorem refuses_value (width limit depth level : Nat) {v : Json} (hd : v.Distinct)
    (hi : v.Integral) (hn : depth < v.nesting) :
    Refuses (value limit depth) [] width level limit v := by
  induction depth generalizing level v with
  | zero => exact refuses_zero width level limit hn
  | succ depth ih =>
    have hdecides {w : Json} (hd : w.Distinct) (hi : w.Integral) :
        Decides (value limit depth) [] width (level + 1) limit w := by
      rcases Nat.lt_or_ge depth w.nesting with hw | hw
      · exact .inr (ih (level + 1) hd hi hw)
      · exact .inl (takesBack_value width limit depth (level + 1) hd hi hw)
    cases v with
    | null | bool | number | string => cases hn
    | array items =>
      have hdi := (distinct_array_iff items).mp hd
      have hii := (integral_array_iff items).mp hi
      obtain ⟨v, hv, hdeep⟩ := (lt_nesting_array_iff depth items).mp hn
      apply refuses_array width level limit depth (fun v hv ↦ of_everywhere (hii v hv))
      · exact fun v hv ↦ hdecides (hdi v hv) (hii v hv)
      · exact ⟨v, hv, ih (level + 1) (hdi v hv) (hii v hv) hdeep⟩
    | object entries =>
      obtain ⟨hkeys, hde⟩ := (distinct_object_iff entries).mp hd
      have hie := (integral_object_iff entries).mp hi
      obtain ⟨e, he, hdeep⟩ := (lt_nesting_object_iff depth entries).mp hn
      apply refuses_object width level limit depth hkeys
      · exact fun e he ↦ hdecides (hde e he) (hie e he)
      · exact ⟨e, he, ih (level + 1) (hde e he) (hie e he) hdeep⟩

end Reader

/-- The text of a value that is nested deeper than the reader allows is refused for that reason. -/
theorem parse_pretty_of_deep (width : Nat) {v : Json} (hd : v.Distinct) (hi : v.Integral)
    (hn : 128 ≤ v.nesting) : Reader.TooDeep (parse (v.pretty width ++ "\n")) := by
  have hread := Reader.refuses_value width ((v.pretty width ++ "\n").length + 1)
    Reader.maxDepth 0 hd hi hn ['\n'] (Reader.endsNumber_newline 0 0 [])
  rw [List.nil_append, ← toList_pretty_newline] at hread
  exact (hread (by rw [String.length_toList]; exact Nat.lt_succ_self _)).bind _

end KeyHarvest.Json
