import KeyHarvest.Decimal.Binary64

/-!
# JSON values

A JSON value keeps the members of an object in the order of their text, each key once. Numbers are
integers, or doubles where the text has a fraction, an exponent or too many digits.

`Members` are the members of one object. They are looked up with `Members.get?` and changed with
`Members.set`, which keeps the place of a key that is already there.
-/

namespace KeyHarvest

/-- A JSON number. -/
inductive Number where
  /-- An integer from `-2 ^ 63` up to `2 ^ 64 - 1`. -/
  | int (n : Int)
  /-- Any other number. -/
  | double (x : Double)
  deriving DecidableEq, Repr

/-- A JSON value. -/
inductive Json where
  | null
  | bool (b : Bool)
  | number (n : Number)
  | string (s : String)
  | array (items : List Json)
  | object (members : List (String × Json))
  deriving Repr

/-- The members of an object, in order. -/
abbrev Members := List (String × Json)

namespace Json

instance : Inhabited Json := ⟨.null⟩

mutual

/-- Decide whether two values are equal. -/
def decEq : (a b : Json) → Decidable (a = b)
  | .null, .null => isTrue rfl
  | .bool a, .bool b => decidable_of_iff (a = b) (by simp)
  | .number a, .number b => decidable_of_iff (a = b) (by simp)
  | .string a, .string b => decidable_of_iff (a = b) (by simp)
  | .array a, .array b =>
    match decEqItems a b with
    | isTrue h => isTrue (h ▸ rfl)
    | isFalse h => isFalse fun e ↦ h (Json.array.inj e)
  | .object a, .object b =>
    match decEqMembers a b with
    | isTrue h => isTrue (h ▸ rfl)
    | isFalse h => isFalse fun e ↦ h (Json.object.inj e)
  | .null, .bool _ | .null, .number _ | .null, .string _ | .null, .array _ | .null, .object _
  | .bool _, .null | .bool _, .number _ | .bool _, .string _ | .bool _, .array _
  | .bool _, .object _ | .number _, .null | .number _, .bool _ | .number _, .string _
  | .number _, .array _ | .number _, .object _ | .string _, .null | .string _, .bool _
  | .string _, .number _ | .string _, .array _ | .string _, .object _ | .array _, .null
  | .array _, .bool _ | .array _, .number _ | .array _, .string _ | .array _, .object _
  | .object _, .null | .object _, .bool _ | .object _, .number _ | .object _, .string _
  | .object _, .array _ => isFalse (by simp)

/-- Decide whether two lists of values are equal. -/
def decEqItems : (a b : List Json) → Decidable (a = b)
  | [], [] => isTrue rfl
  | x :: xs, y :: ys =>
    match decEq x y, decEqItems xs ys with
    | isTrue h, isTrue hs => isTrue (h ▸ hs ▸ rfl)
    | isFalse h, _ => isFalse fun e ↦ h (List.cons.inj e).1
    | _, isFalse hs => isFalse fun e ↦ hs (List.cons.inj e).2
  | [], _ :: _ | _ :: _, [] => isFalse (by simp)

/-- Decide whether the members of two objects are equal. -/
def decEqMembers : (a b : List (String × Json)) → Decidable (a = b)
  | [], [] => isTrue rfl
  | (k, x) :: xs, (l, y) :: ys =>
    match instDecidableEqString k l, decEq x y, decEqMembers xs ys with
    | isTrue h, isTrue h', isTrue hs => isTrue (h ▸ h' ▸ hs ▸ rfl)
    | isFalse h, _, _ => isFalse fun e ↦ h (Prod.mk.inj (List.cons.inj e).1).1
    | _, isFalse h, _ => isFalse fun e ↦ h (Prod.mk.inj (List.cons.inj e).1).2
    | _, _, isFalse hs => isFalse fun e ↦ hs (List.cons.inj e).2
  | [], _ :: _ | _ :: _, [] => isFalse (by simp)

end

instance : DecidableEq Json := decEq

/-- Whether the value is an object. -/
def isObject : Json → Bool
  | .object _ => true
  | _ => false

end Json

namespace Members

/-- The value of a key. -/
def get? : Members → String → Option Json
  | [], _ => none
  | (k, v) :: rest, key => if k = key then some v else get? rest key

/-- Give a key a value: in place if the key is there, else at the end. -/
def set : Members → String → Json → Members
  | [], key, value => [(key, value)]
  | (k, v) :: rest, key, value =>
    if k = key then (k, value) :: rest else (k, v) :: set rest key value

/-- The keys, in order. -/
def keys (members : Members) : List String :=
  members.map Prod.fst

/-- Members given one after the other, so that of equal keys the first gives the place and the
last the value. -/
def ofList (entries : List (String × Json)) : Members :=
  entries.foldl (fun members e ↦ members.set e.1 e.2) []

/-- A member that is set has the value. -/
theorem get?_set_self (members : Members) (key : String) (value : Json) :
    (members.set key value).get? key = some value := by
  induction members with
  | nil => simp [set, get?]
  | cons e rest ih =>
    rw [set]
    split <;> simp_all [get?]

/-- The other members keep their values. -/
theorem get?_set_of_ne (members : Members) {key other : String} (value : Json)
    (h : other ≠ key) : (members.set key value).get? other = members.get? other := by
  induction members with
  | nil => simp [set, get?, h.symm]
  | cons e rest ih =>
    rw [set]
    split
    · next heq => simp [get?, heq, h.symm]
    · simp [get?, ih]

end Members

end KeyHarvest
