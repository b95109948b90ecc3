/-!
# Text as bytes

Files hold bytes. Dictionaries and settings are read strictly: bytes that are not UTF-8 are
refused. Source files are read leniently: each longest ill-formed stretch that could begin a
character becomes one replacement character, so reading never fails.

Positions in messages count bytes, which `byteLength` gives for a text held as characters.
-/

namespace KeyHarvest.Text

/-- The number of bytes of a text in UTF-8. -/
def byteLength (cs : List Char) : Nat :=
  cs.foldr (fun c n ↦ c.utf8Size + n) 0

/-- No characters have no bytes. -/
@[simp] theorem byteLength_nil : byteLength [] = 0 := rfl

/-- The bytes of a text are those of its first character and of the others. -/
@[simp] theorem byteLength_cons (c : Char) (cs : List Char) :
    byteLength (c :: cs) = c.utf8Size + byteLength cs := rfl

/-- The bytes of a text in two parts. -/
theorem byteLength_append (cs ds : List Char) :
    byteLength (cs ++ ds) = byteLength cs + byteLength ds := by
  induction cs with
  | nil => rw [List.nil_append, byteLength_nil, Nat.zero_add]
  | cons c cs ih => rw [List.cons_append, byteLength_cons, byteLength_cons, ih, Nat.add_assoc]

/-- A text has as many bytes as its characters. -/
theorem utf8ByteSize_ofList (cs : List Char) : (String.ofList cs).utf8ByteSize = byteLength cs := by
  induction cs with
  | nil => rfl
  | cons c cs ih =>
    rw [String.ofList_cons, String.utf8ByteSize_append, String.utf8ByteSize_singleton, ih,
      byteLength_cons]

/-- The text that bytes spell, if they are UTF-8. -/
def decode? (bytes : ByteArray) : Option String :=
  String.fromUTF8? bytes

/-- The character that stands for bytes which spell none. -/
def replacement : Char := Char.ofNat 0xFFFD

/-- The bytes that can follow a leading byte, as the range of the second byte and the number of
bytes after the leading one; `none` for a byte that leads no sequence. -/
def sequenceShape (lead : Nat) : Option (Nat × Nat × Nat) :=
  if 0xC2 ≤ lead && lead ≤ 0xDF then some (0x80, 0xBF, 1)
  else if lead == 0xE0 then some (0xA0, 0xBF, 2)
  else if lead == 0xED then some (0x80, 0x9F, 2)
  else if 0xE1 ≤ lead && lead ≤ 0xEF then some (0x80, 0xBF, 2)
  else if lead == 0xF0 then some (0x90, 0xBF, 3)
  else if lead == 0xF4 then some (0x80, 0x8F, 3)
  else if 0xF1 ≤ lead && lead ≤ 0xF3 then some (0x80, 0xBF, 3)
  else none

/-- Read continuation bytes onto the value so far: the character, or the replacement once a byte
does not continue, with the number of bytes taken. -/
def continueSequence (value taken : Nat) (low high : Nat) : Nat → List UInt8 → Char × Nat
  | 0, _ => (Char.ofNat value, taken)
  | more + 1, bytes =>
    match bytes with
    | [] => (replacement, taken)
    | b :: rest =>
      if low ≤ b.toNat && b.toNat ≤ high then
        continueSequence (value * 64 + b.toNat % 64) (taken + 1) 0x80 0xBF more rest
      else (replacement, taken)

/-- The character at the front of bytes, with the number of bytes it takes after the first. -/
def firstLossy (lead : UInt8) (rest : List UInt8) : Char × Nat :=
  let n := lead.toNat
  if n < 0x80 then (Char.ofNat n, 0)
  else
    match sequenceShape n with
    | none => (replacement, 0)
    | some (low, high, more) => continueSequence (n % Nat.pow 2 (6 - more)) 0 low high more rest

/-- The characters that bytes spell after some are skipped, ill-formed stretches replaced. -/
def lossyChars : Nat → List UInt8 → List Char
  | _, [] => []
  | skip + 1, _ :: rest => lossyChars skip rest
  | 0, b :: rest => (firstLossy b rest).1 :: lossyChars (firstLossy b rest).2 rest

/-- The text that bytes spell, each ill-formed stretch replaced by one character. -/
def decodeLossy (bytes : ByteArray) : String :=
  match decode? bytes with
  | some text => text
  | none => String.ofList (lossyChars 0 bytes.toList)

end KeyHarvest.Text
