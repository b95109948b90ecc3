import KeyHarvest.Proofs.Json.Members
import KeyHarvest.Proofs.Json.Tokens
import Mathlib.Data.List.Forall2

/-!
# Values read back

A value written over several lines is read back (`parse_pretty`) if its objects have distinct keys,
its numbers are integers of at most 64 bits and its arrays and objects are nested no deeper than the
reader allows. The reader of arrays and objects is a loop over their elements, so the elements are
written here with their dividers in front of them (`dividedItems`, `dividedMembers`), one for each
turn of the loop. The loops serve other readers too, so what they give is said of any reader of
elements (`elements_array`, `members_object`).
-/

namespace KeyHarvest.Json

/-- Whether a value is neither an array nor an object. -/
def isScalar : Json → Bool
  | .array _ | .object _ => false
  | _ => true

/-- Values each on a line of its own, with a comma before all but the first. -/
def dividedItems (width level : Nat) : Bool → List Json → List Char
  | _, [] => []
  | first, x :: xs =>
    (if first then [] else [',']) ++ newline width level ++ prettyChars width level x ++
      dividedItems width level false xs

/-- Keys with their values, each on a line of its own, with a comma before all but the first. -/
def dividedMembers (width level : Nat) : Bool → List (String × Json) → List Char
  | _, [] => []
  | first, (k, x) :: xs =>
    (if first then [] else [',']) ++ newline width level ++ stringText k ++
      ':' :: ' ' :: prettyChars width level x ++ dividedMembers width level false xs

private theorem prettyItems_eq (width level : Nat) (items : List Json) :
    prettyItems width level items = dividedItems width level true items := by
  induction items with
  | nil => rfl
  | cons x xs ih =>
    cases xs with
    | nil => simp [prettyItems, dividedItems]
    | cons y ys =>
      rw [prettyItems, ih]
      · simp [dividedItems]
      · simp

/-- The text of an array with items, split where the loop of its reader begins and ends. -/
theorem prettyChars_array_cons (width level : Nat) (x : Json) (xs : List Json) (rest : List Char) :
    prettyChars width level (.array (x :: xs)) ++ rest =
      '[' :: (dividedItems width (level + 1) true (x :: xs) ++
        (newline width level ++ ']' :: rest)) := by
  rw [prettyChars, prettyItems_eq]
  · simp only [List.cons_append, List.append_assoc, List.nil_append]
  · simp

/-- Members are printed divided by commas and line breaks. -/
theorem prettyMembers_eq (width level : Nat) (members : List (String × Json)) :
    prettyMembers width level members = dividedMembers width level true members := by
  induction members with
  | nil => rfl
  | cons e xs ih =>
    cases xs with
    | nil => simp [prettyMembers, dividedMembers]
    | cons y ys =>
      rw [prettyMembers, ih]
      · simp [dividedMembers]
      · simp

/-- The text of an object with members, split where the loop of its reader begins and ends. -/
theorem prettyChars_object_cons (width level : Nat) (e : String × Json)
    (es : List (String × Json)) (rest : List Char) :
    prettyChars width level (.object (e :: es)) ++ rest =
      '\x7b' :: (dividedMembers width (level + 1) true (e :: es) ++
        (newline width level ++ '\x7d' :: rest)) := by
  rw [prettyChars, prettyMembers_eq]
  · simp only [List.cons_append, List.append_assoc, List.nil_append]
  · simp

namespace Reader

/-! ### Spaces -/

private theorem isSpace_eq_false_iff {c : Char} :
    isSpace c = false ↔ c ≠ ' ' ∧ c ≠ '\n' ∧ c ≠ '\t' ∧ c ≠ '\r' := by
  simp [isSpace, and_assoc]

private theorem skipSpace_newline (width level : Nat) (cs : List Char) :
    skipSpace (newline width level ++ cs) = skipSpace cs := by
  apply List.dropWhile_append_of_pos
  intro c hc
  rcases List.mem_cons.mp hc with rfl | hc
  · rfl
  · rw [(List.mem_replicate.mp hc).2]
    rfl

/-- Space is not passed over where none stands. -/
theorem skipSpace_cons {c : Char} (h : isSpace c = false) (cs : List Char) :
    skipSpace (c :: cs) = c :: cs := by
  rw [skipSpace, List.dropWhile_cons, h, if_neg Bool.false_ne_true]

/-- A line break ends a number. -/
theorem endsNumber_newline (width level : Nat) (rest : List Char) :
    EndsNumber (newline width level ++ rest) := by
  rintro c hc
  cases hc
  decide

private theorem endsNumber_comma (rest : List Char) : EndsNumber (',' :: rest) := by
  rintro c hc
  cases hc
  decide

/-- No value begins with a space or a closing bracket. -/
theorem prettyChars_eq_cons (width level : Nat) {v : Json} (hi : v.isIntegral = true) :
    ∃ c cs, prettyChars width level v = c :: cs ∧ isSpace c = false ∧ c ≠ ']' := by
  cases v with
  | null => exact ⟨_, _, rfl, by decide, by decide⟩
  | bool b => cases b <;> exact ⟨_, _, rfl, by decide, by decide⟩
  | string s => exact ⟨_, _, rfl, by decide, by decide⟩
  | array items => cases items <;> exact ⟨_, _, rfl, by decide, by decide⟩
  | object members => cases members <;> exact ⟨_, _, rfl, by decide, by decide⟩
  | number n =>
    obtain ⟨c, cs, htext, hc⟩ := numberText_eq_cons hi
    refine ⟨c, cs, htext, isSpace_eq_false_iff.mpr ⟨?_, ?_, ?_, ?_⟩, ?_⟩
    all_goals exact hc _ (by decide) (by decide)

/-! ### Loops -/

/-- The next value of an array is found behind its divider. -/
theorem nextElement_divided (width level : Nat) (first : Bool) {c : Char} (hs : isSpace c = false)
    (hc : c ≠ ']') (cs : List Char) :
    nextElement first ((if first then [] else [',']) ++ newline width level ++ c :: cs) =
      .ok (true, c :: cs) := by
  have hskip : skipSpace (newline width level ++ c :: cs) = c :: cs := by
    rw [skipSpace_newline, skipSpace_cons hs]
  cases first with
  | true =>
    rw [if_pos rfl, List.nil_append, nextElement, hskip]
    simp
  | false =>
    rw [if_neg Bool.false_ne_true, List.singleton_append, List.cons_append, nextElement,
      skipSpace_cons (by decide)]
    simp [hskip, hc]

private theorem nextElement_closed (width level : Nat) (first : Bool) (rest : List Char) :
    nextElement first (newline width level ++ ']' :: rest) = .ok (false, rest) := by
  rw [nextElement, skipSpace_newline, skipSpace_cons (by decide)]
  rfl

/-- The next key of an object is found behind its divider. -/
theorem nextKey_divided (width level : Nat) (first : Bool) (cs : List Char) :
    nextKey first ((if first then [] else [',']) ++ newline width level ++ '"' :: cs) =
      .ok (true, cs) := by
  have hskip : skipSpace (newline width level ++ '"' :: cs) = '"' :: cs := by
    rw [skipSpace_newline, skipSpace_cons (by decide)]
  cases first with
  | true =>
    rw [if_pos rfl, List.nil_append, nextKey, hskip]
    rfl
  | false =>
    rw [if_neg Bool.false_ne_true, List.singleton_append, List.cons_append, nextKey,
      skipSpace_cons (by decide)]
    simp [hskip]

/-- At the closing brace there is no further key. -/
theorem nextKey_closed (width level : Nat) (first : Bool) (rest : List Char) :
    nextKey first (newline width level ++ '\x7d' :: rest) = .ok (false, rest) := by
  rw [nextKey, skipSpace_newline, skipSpace_cons (by decide)]
  rfl

/-- What divides items ends a number. -/
theorem endsNumber_dividedItems (width level : Nat) (items : List Json) {rest : List Char}
    (hr : EndsNumber rest) : EndsNumber (dividedItems width level false items ++ rest) := by
  cases items with
  | nil => exact hr
  | cons x xs => exact endsNumber_comma _

/-- What divides members ends a number. -/
theorem endsNumber_dividedMembers (width level : Nat) (members : List (String × Json))
    {rest : List Char} (hr : EndsNumber rest) :
    EndsNumber (dividedMembers width level false members ++ rest) := by
  cases members with
  | nil => exact hr
  | cons x xs => exact endsNumber_comma _

section

variable {α β : Type}

/-- A reader takes something off the front of a text that is shorter than a limit, where a value is
written behind some spaces. -/
def Takes (element : List Char → Except Fault (α × List Char)) (gap : List Char)
    (width level limit : Nat) (v : Json) (a : α) : Prop :=
  ∀ rest, EndsNumber rest → (prettyChars width level v ++ rest).length < limit →
    element (gap ++ (prettyChars width level v ++ rest)) = .ok (a, rest)

/-- A reader takes a value, written behind some spaces, off the front of a text that is shorter than
a limit. -/
def TakesBack (element : List Char → Except Fault (Json × List Char)) (gap : List Char)
    (width level limit : Nat) (v : Json) : Prop :=
  ∀ rest, EndsNumber rest → (prettyChars width level v ++ rest).length < limit →
    element (gap ++ (prettyChars width level v ++ rest)) = .ok (v, rest)

/-- Among distinct keys none stands before itself. -/
theorem not_mem_keys_of_nodup {sofar es : Members} {key : String} {x : Json}
    (hd : ((sofar ++ (key, x) :: es).map Prod.fst).Nodup) : key ∉ sofar.map Prod.fst := by
  rw [List.map_append, List.nodup_append] at hd
  exact fun hm ↦ hd.2.2 key hm key List.mem_cons_self rfl

/-- One turn of the loop over the elements of an array reads the element behind the divider. -/
theorem elements_divided (width level : Nat) (element : List Char → Except Fault (α × List Char))
    (first : Bool) {x : Json} (hx : x.isIntegral = true) (xs : List Json) (tail : List Char)
    (fuel : Nat) :
    elements element first (fuel + 1) (dividedItems width level first (x :: xs) ++ tail) =
      element (prettyChars width level x ++ (dividedItems width level false xs ++ tail)) >>= fun e ↦
        elements element false fuel e.2 >>= fun es ↦ .ok (e.1 :: es.1, es.2) := by
  obtain ⟨c, cs, htext, hs, hc⟩ := prettyChars_eq_cons width level hx
  have hnext (tail : List Char) := nextElement_divided width level first hs hc (cs ++ tail)
  simp only [← List.cons_append, ← htext] at hnext
  rw [dividedItems, List.append_assoc, List.append_assoc, elements, hnext, ok_bind]
  rfl

/-- The next key of an object is read behind its divider. -/
theorem nextKey_dividedMembers (width level : Nat) (first : Bool) (key : String) (x : Json)
    (es : Members) (tail : List Char) :
    nextKey first (dividedMembers width level first ((key, x) :: es) ++ tail) =
      .ok (true, key.toList.flatMap escapeChar ++ '"' :: ':' :: ([' '] ++
        (prettyChars width level x ++ (dividedMembers width level false es ++ tail)))) := by
  rw [dividedMembers, stringText]
  simp only [List.cons_append, List.append_assoc, List.nil_append]
  rw [← List.append_assoc, nextKey_divided]

/-- A key is shorter than the members that begin with it. -/
theorem length_key_lt (width level : Nat) (first : Bool) (key : String) (x : Json) (es : Members)
    (tail : List Char) :
    key.toList.length < (dividedMembers width level first ((key, x) :: es) ++ tail).length := by
  have hescaped := length_le_length_escaped key.toList
  rw [dividedMembers, stringText]
  simp only [List.length_append, List.length_cons]
  omega

/-- One turn of the loop over the members of an object reads the value behind the divider and the
key, and puts it into what those before it have made. -/
theorem members_divided_put (width level : Nat)
    (element : List Char → Except Fault (α × List Char)) (put : β → String → α → β) (first : Bool)
    (sofar : β) (key : String) (x : Json) (es : Members) (tail : List Char) {fuel : Nat}
    (hfuel : (dividedMembers width level first ((key, x) :: es) ++ tail).length < fuel + 1) :
    members element put first sofar (fuel + 1)
        (dividedMembers width level first ((key, x) :: es) ++ tail) =
      element
          ([' '] ++ (prettyChars width level x ++ (dividedMembers width level false es ++ tail)))
        >>= fun e ↦ members element put false (put sofar key e.1) fuel e.2 := by
  have hkey := length_key_lt width level first key x es tail
  have hcolon (tail : List Char) : colon (':' :: tail) = .ok tail := rfl
  rw [members, nextKey_dividedMembers, ok_bind]
  simp only [if_true]
  rw [string_stringText key _ (Nat.lt_trans hkey hfuel), ok_bind]
  simp only [hcolon, ok_bind]

/-- A member whose key is new is put behind those before it. -/
theorem members_divided (width level : Nat) (element : List Char → Except Fault (Json × List Char))
    (first : Bool) {sofar : Members} {key : String} (hfree : key ∉ sofar.map Prod.fst) (x : Json)
    (es : Members) (tail : List Char) {fuel : Nat}
    (hfuel : (dividedMembers width level first ((key, x) :: es) ++ tail).length < fuel + 1) :
    members element Members.set first sofar (fuel + 1)
        (dividedMembers width level first ((key, x) :: es) ++ tail) =
      element
          ([' '] ++ (prettyChars width level x ++ (dividedMembers width level false es ++ tail)))
        >>= fun e ↦ members element Members.set false (sofar ++ [(key, e.1)]) fuel e.2 := by
  have hset (v : Json) : sofar.set key v = sofar ++ [(key, v)] :=
    Members.set_of_get?_eq_none ((Members.get?_eq_none_iff sofar key).mpr hfree) v
  rw [members_divided_put width level element Members.set first sofar key x es tail hfuel]
  simp only [hset]

/-- The first item and the others are shorter than all together. -/
theorem length_dividedItems_cons (width level : Nat) (first : Bool) (x : Json) (xs : List Json) :
    (prettyChars width level x).length + (dividedItems width level false xs).length <
      (dividedItems width level first (x :: xs)).length := by
  rw [dividedItems, newline]
  simp only [List.length_append, List.length_cons]
  omega

/-- The first value and the other members are shorter than all together. -/
theorem length_dividedMembers_cons (width level : Nat) (first : Bool) (key : String) (x : Json)
    (es : Members) :
    (prettyChars width level x).length + (dividedMembers width level false es).length <
      (dividedMembers width level first ((key, x) :: es)).length := by
  rw [dividedMembers, newline]
  simp only [List.length_append, List.length_cons]
  omega

/-- The loop over the elements of an array gives what the reader of one element takes. -/
theorem elements_dividedItems (width level outer : Nat)
    {element : List Char → Except Fault (α × List Char)} {items : List Json} {as : List α}
    {limit : Nat} (hi : ∀ v ∈ items, v.isIntegral = true)
    (hel : List.Forall₂ (Takes element [] width level limit) items as) (first : Bool)
    (rest : List Char) {fuel : Nat} (hlimit : fuel ≤ limit)
    (hfuel : (dividedItems width level first items ++ (newline width outer ++ ']' :: rest)).length <
      fuel) :
    elements element first fuel
      (dividedItems width level first items ++ (newline width outer ++ ']' :: rest)) =
        .ok (as, rest) := by
  induction hel generalizing first fuel with
  | nil =>
    cases fuel with
    | zero => cases hfuel
    | succ fuel =>
      rw [elements, dividedItems, List.nil_append, nextElement_closed]
      rfl
  | @cons x a xs as helx helxs ih =>
    obtain ⟨hx, hxs⟩ := List.forall_mem_cons.mp hi
    have hends := endsNumber_dividedItems width level xs
      (endsNumber_newline width outer (']' :: rest))
    cases fuel with
    | zero => cases hfuel
    | succ fuel =>
      have hshort := length_dividedItems_cons width level first x xs
      rw [List.length_append] at hfuel
      have hread := helx _ hends (by rw [List.length_append, List.length_append]; omega)
      rw [List.nil_append] at hread
      rw [elements_divided width level element first hx, hread, ok_bind,
        ih hxs false (by omega) (by rw [List.length_append]; omega)]
      rfl

/-- A reader takes something off a text where the value of a member is written, which has the key
of something else. -/
def TakesMember (element : List Char → Except Fault (α × List Char)) (width level limit : Nat)
    (e : String × Json) (made : String × α) : Prop :=
  e.1 = made.1 ∧ Takes element [' '] width level limit e.2 made.2

/-- The loop over the members of an object puts what the reader of one value takes into what those
before it have made. -/
theorem members_dividedMembers (width level outer : Nat)
    {element : List Char → Except Fault (α × List Char)} (put : β → String → α → β)
    {entries : Members} {made : List (String × α)} {limit : Nat}
    (hel : List.Forall₂ (TakesMember element width level limit) entries made) (first : Bool)
    (sofar : β) (rest : List Char) {fuel : Nat} (hlimit : fuel ≤ limit)
    (hfuel : (dividedMembers width level first entries ++
      (newline width outer ++ '\x7d' :: rest)).length < fuel) :
    members element put first sofar fuel
      (dividedMembers width level first entries ++ (newline width outer ++ '\x7d' :: rest)) =
        .ok (made.foldl (fun b e ↦ put b e.1 e.2) sofar, rest) := by
  induction hel generalizing first sofar fuel with
  | nil =>
    cases fuel with
    | zero => cases hfuel
    | succ fuel =>
      rw [members, dividedMembers, List.nil_append, nextKey_closed]
      rfl
  | @cons e made es more helx heles ih =>
    obtain ⟨key, x⟩ := e
    obtain ⟨rfl, htakes⟩ := helx
    have hends := endsNumber_dividedMembers width level es
      (endsNumber_newline width outer ('\x7d' :: rest))
    cases fuel with
    | zero => cases hfuel
    | succ fuel =>
      have hshort := length_dividedMembers_cons width level first made.1 x es
      rw [members_divided_put width level element put first sofar made.1 x es _ hfuel]
      rw [List.length_append] at hfuel
      have hread := htakes _ hends (by simp only [List.length_append] at hfuel ⊢; omega)
      rw [hread, ok_bind, ih false _ (by omega) (by rw [List.length_append]; omega),
        List.foldl_cons]

/-- The elements of a written array are what the reader of one element takes. -/
theorem elements_array {width level limit : Nat}
    {element : List Char → Except Fault (α × List Char)} {items : List Json} {as : List α}
    (hi : ∀ v ∈ items, v.isIntegral = true)
    (hel : List.Forall₂ (Takes element [] width (level + 1) limit) items as) {rest : List Char}
    (hshort : (prettyChars width level (.array items) ++ rest).length < limit) :
    ∃ body, prettyChars width level (.array items) ++ rest = '[' :: body ∧
      elements element true limit body = .ok (as, rest) := by
  cases hel with
  | nil =>
    cases limit with
    | zero => cases hshort
    | succ limit => exact ⟨_, rfl, rfl⟩
  | cons hx hxs =>
    have hloop := elements_dividedItems width (level + 1) level hi (.cons hx hxs) true rest
      (Nat.le_refl limit)
    rw [prettyChars_array_cons] at hshort ⊢
    exact ⟨_, rfl, hloop (Nat.lt_of_succ_lt hshort)⟩

/-- The members of a written object are what the reader of one value takes. -/
theorem members_object {width level limit : Nat}
    {element : List Char → Except Fault (α × List Char)} (put : β → String → α → β) (sofar : β)
    {entries : Members} {made : List (String × α)}
    (hel : List.Forall₂ (TakesMember element width (level + 1) limit) entries made)
    {rest : List Char}
    (hshort : (prettyChars width level (.object entries) ++ rest).length < limit) :
    ∃ body, prettyChars width level (.object entries) ++ rest = '\x7b' :: body ∧
      members element put true sofar limit body =
        .ok (made.foldl (fun b e ↦ put b e.1 e.2) sofar, rest) := by
  cases hel with
  | nil =>
    cases limit with
    | zero => cases hshort
    | succ limit => exact ⟨_, rfl, rfl⟩
  | cons hx hxs =>
    have hloop := members_dividedMembers width (level + 1) level put (.cons hx hxs) true sofar rest
      (Nat.le_refl limit)
    rw [prettyChars_object_cons] at hshort ⊢
    exact ⟨_, rfl, hloop (Nat.lt_of_succ_lt hshort)⟩

end

/-- Members with new keys stand behind those before them. -/
theorem foldl_set (sofar : Members) {entries : Members}
    (hd : ((sofar ++ entries).map Prod.fst).Nodup) :
    entries.foldl (fun b e ↦ b.set e.1 e.2) sofar = sofar ++ entries := by
  induction entries generalizing sofar with
  | nil => exact (List.append_nil sofar).symm
  | cons e es ih =>
    have hfree := (Members.get?_eq_none_iff sofar e.1).mpr (not_mem_keys_of_nodup hd)
    rw [← List.singleton_append, ← List.append_assoc] at hd
    rw [List.foldl_cons, Members.set_of_get?_eq_none hfree, ih _ hd, List.append_assoc,
      List.singleton_append]

/-! ### Values -/

/-- Spaces before a value are passed over. -/
theorem value_space (fuel depth : Nat) (cs : List Char) :
    value fuel depth (' ' :: cs) = value fuel depth cs := by
  have hskip : skipSpace (' ' :: cs) = skipSpace cs := rfl
  cases depth <;> rw [value, value, hskip]

/-- What begins neither an array nor an object is read as one token. -/
theorem value_eq_scalar (fuel depth : Nat) {c : Char} (hs : isSpace c = false) (ha : c ≠ '[')
    (ho : c ≠ '\x7b') (cs : List Char) : value fuel depth (c :: cs) = scalar fuel (c :: cs) := by
  cases depth <;> rw [value, skipSpace_cons hs] <;> simp [ha, ho]

private theorem takesBack_scalar (width level limit depth : Nat) {v : Json} (hv : v.isScalar = true)
    (hi : v.isIntegral = true) : TakesBack (value limit depth) [] width level limit v := by
  intro rest hr hshort
  rw [List.nil_append]
  cases v with
  | array => cases hv
  | object => cases hv
  | null => exact value_eq_scalar limit depth (by decide) (by decide) (by decide) _
  | bool b => cases b <;> exact value_eq_scalar limit depth (by decide) (by decide) (by decide) _
  | string s =>
    have hlength := length_le_length_escaped s.toList
    rw [prettyChars, compactChars, stringText] at hshort ⊢
    simp only [List.cons_append, List.append_assoc, List.nil_append, List.length_cons,
      List.length_append] at hshort ⊢
    rw [value_eq_scalar limit depth (by decide) (by decide) (by decide), scalar,
      string_stringText s rest (by omega), ok_bind]
  | number n =>
    obtain ⟨c, cs, htext, hc⟩ := numberText_eq_cons hi
    have hread := scalar_numberText hi limit hr
    have hs : isSpace c = false := by
      refine isSpace_eq_false_iff.mpr ⟨?_, ?_, ?_, ?_⟩
      all_goals exact hc _ (by decide) (by decide)
    rw [prettyChars, compactChars]
    rw [htext, List.cons_append] at hread ⊢
    have ha : c ≠ '[' := hc _ (by decide) (by decide)
    have ho : c ≠ '\x7b' := hc _ (by decide) (by decide)
    rw [value_eq_scalar limit depth hs ha ho, hread]

/-- An array is read back if its elements are. -/
theorem takesBack_array (width level limit depth : Nat) {items : List Json}
    (hi : ∀ v ∈ items, v.isIntegral = true)
    (hel : ∀ v ∈ items, TakesBack (value limit depth) [] width (level + 1) limit v) :
    TakesBack (value limit (depth + 1)) [] width level limit (.array items) := by
  intro rest hr hshort
  obtain ⟨body, htext, hread⟩ := elements_array hi (List.forall₂_same.mpr hel) hshort
  rw [List.nil_append, htext, value, skipSpace_cons (by decide)]
  show (elements (value limit depth) true limit body >>= _) = _
  rw [hread, ok_bind]

/-- A value is taken back also behind a space. -/
theorem TakesBack.space {width level limit fuel depth : Nat} {v : Json}
    (h : TakesBack (value fuel depth) [] width level limit v) :
    TakesBack (value fuel depth) [' '] width level limit v := by
  intro rest hr hshort
  rw [List.singleton_append, value_space]
  exact h rest hr hshort

/-- An object is read back if its keys are distinct and its values are read back. -/
theorem takesBack_object (width level limit depth : Nat) {entries : Members}
    (hd : (entries.map Prod.fst).Nodup)
    (hel : ∀ e ∈ entries, TakesBack (value limit depth) [] width (level + 1) limit e.2) :
    TakesBack (value limit (depth + 1)) [] width level limit (.object entries) := by
  intro rest hr hshort
  have hmembers : List.Forall₂ (TakesMember (value limit depth) width (level + 1) limit)
      entries entries := List.forall₂_same.mpr fun e he ↦ ⟨rfl, (hel e he).space⟩
  obtain ⟨body, htext, hread⟩ := members_object Members.set [] hmembers hshort
  rw [List.nil_append, htext, value, skipSpace_cons (by decide)]
  show (members (value limit depth) Members.set true [] limit body >>= _) = _
  rw [hread, ok_bind, foldl_set [] hd, List.nil_append]

/-- A written value is read back. -/
theorem takesBack_value (width limit depth level : Nat) {v : Json} (hd : v.Distinct)
    (hi : v.Integral) (hn : v.nesting ≤ depth) :
    TakesBack (value limit depth) [] width level limit v := by
  -- The reader recurses on the depth that is left, not on the value.
  induction depth generalizing level v with
  | zero =>
    cases v with
    | array | object => cases hn
    | null | bool | number | string =>
      exact takesBack_scalar width level limit 0 rfl (of_everywhere hi)
  | succ depth ih =>
    cases v with
    | null | bool | number | string =>
      exact takesBack_scalar width level limit (depth + 1) rfl (of_everywhere hi)
    | array items =>
      have hdi := (distinct_array_iff items).mp hd
      have hii := (integral_array_iff items).mp hi
      have hni := (nesting_array_le_iff depth items).mp hn
      apply takesBack_array width level limit depth (fun v hv ↦ of_everywhere (hii v hv))
      exact fun v hv ↦ ih (level + 1) (hdi v hv) (hii v hv) (hni v hv)
    | object entries =>
      obtain ⟨hkeys, hde⟩ := (distinct_object_iff entries).mp hd
      have hie := (integral_object_iff entries).mp hi
      have hne := (nesting_object_le_iff depth entries).mp hn
      apply takesBack_object width level limit depth hkeys
      exact fun e he ↦ ih (level + 1) (hde e he) (hie e he) (hne e he)

end Reader

/-- The characters of a printed value with a line break at the end. -/
theorem toList_pretty_newline (width : Nat) (v : Json) :
    (v.pretty width ++ "\n").toList = prettyChars width 0 v ++ ['\n'] := by
  rw [String.toList_append, pretty, String.toList_ofList]
  rfl

/-- A value written over several lines, a line break behind it, is read back. -/
theorem parse_pretty (width : Nat) {v : Json} (hd : v.Distinct) (hi : v.Integral)
    (hn : v.nesting < 128) : parse (v.pretty width ++ "\n") = .ok v := by
  have hread := Reader.takesBack_value width ((v.pretty width ++ "\n").length + 1)
    Reader.maxDepth 0 hd hi (Nat.le_of_lt_succ hn) ['\n'] (Reader.endsNumber_newline 0 0 [])
  rw [List.nil_append, ← toList_pretty_newline] at hread
  rw [parse, hread (by rw [String.length_toList]; exact Nat.lt_succ_self _)]
  rfl

end KeyHarvest.Json
