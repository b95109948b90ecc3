import KeyHarvest.Json.Fault
import KeyHarvest.Text.Digit

/-!
# Reading JSON

A value is read from the front of a text; what follows it is returned unread. Arrays and objects
are read by loops over their elements that take the reader of one element as an argument, so the
recursion of `value` is on the number of nested arrays and objects still allowed, 127 at first.

Of equal keys in an object the first gives the place and the last the value.
-/

namespace KeyHarvest.Json.Reader

/-- Whether a character is a space between tokens. -/
def isSpace (c : Char) : Bool :=
  c == ' ' || c == '\n' || c == '\t' || c == '\r'

/-- The text from the first token on. -/
def skipSpace (cs : List Char) : List Char :=
  cs.dropWhile isSpace

/-- Read the characters of a literal word. -/
def word : List Char → List Char → Except Fault (List Char)
  | [], cs => .ok cs
  | _ :: _, [] => .error (.here .endInValue [])
  | w :: ws, c :: cs => if c = w then word ws cs else .error ⟨.expectedWord, c :: cs, 1⟩

/-! ### Strings -/

/-- Read four hexadecimal digits. -/
def hex4 (cs : List Char) : Except Fault (Nat × List Char) :=
  match cs with
  | a :: b :: c :: d :: rest =>
    match Text.hexNumber? [a, b, c, d] with
    | some n => .ok (n, rest)
    | none => .error ⟨.invalidEscape, cs, 4⟩
  | _ =>
    if 4 ≤ Text.byteLength cs then .error ⟨.invalidEscape, cs, 4⟩
    else .error (.here .endInString [])

/-- Read the second half of a surrogate pair, the first being `high`. -/
def lowSurrogate (high : Nat) (cs : List Char) : Except Fault (Char × List Char) :=
  match cs with
  | [] => .error (.here .endInString [])
  | '\\' :: [] => .error (.here .endInString [])
  | '\\' :: 'u' :: rest => do
    let (low, rest) ← hex4 rest
    if 0xDC00 ≤ low ∧ low ≤ 0xDFFF then
      .ok (Char.ofNat (0x10000 + (high - 0xD800) * 0x400 + (low - 0xDC00)), rest)
    else .error (.here .loneSurrogate rest)
  | '\\' :: rest => .error ⟨.unfinishedSurrogate, rest, 1⟩
  | _ => .error ⟨.unfinishedSurrogate, cs, 1⟩

/-- Read what follows `\u`. -/
def unicodeEscape (cs : List Char) : Except Fault (Char × List Char) := do
  let (n, rest) ← hex4 cs
  if 0xDC00 ≤ n ∧ n ≤ 0xDFFF then .error (.here .loneSurrogate rest)
  else if 0xD800 ≤ n ∧ n ≤ 0xDBFF then lowSurrogate n rest
  else .ok (Char.ofNat n, rest)

/-- Read what follows a backslash. -/
def escape (cs : List Char) : Except Fault (Char × List Char) :=
  match cs with
  | [] => .error (.here .endInString [])
  | '"' :: rest => .ok ('"', rest)
  | '\\' :: rest => .ok ('\\', rest)
  | '/' :: rest => .ok ('/', rest)
  | 'b' :: rest => .ok ('\x08', rest)
  | 'f' :: rest => .ok ('\x0c', rest)
  | 'n' :: rest => .ok ('\n', rest)
  | 'r' :: rest => .ok ('\r', rest)
  | 't' :: rest => .ok ('\t', rest)
  | 'u' :: rest => unicodeEscape rest
  | _ => .error ⟨.invalidEscape, cs, 1⟩

/-- Read the rest of a string up to its closing quote; `fuel` is at least the text's length. -/
def stringBody (fuel : Nat) (cs : List Char) : Except Fault (List Char × List Char) :=
  match fuel, cs with
  | _, [] => .error (.here .endInString [])
  | 0, _ => .error (.here .endInString cs)
  | fuel + 1, c :: rest =>
    if c = '"' then .ok ([], rest)
    else if c = '\\' then do
      let (e, rest) ← escape rest
      let (body, rest) ← stringBody fuel rest
      .ok (e :: body, rest)
    else if c.toNat < 0x20 then .error ⟨.controlCharacter, c :: rest, 1⟩
    else do
      let (body, rest) ← stringBody fuel rest
      .ok (c :: body, rest)

/-- Read a string whose opening quote has been read. -/
def string (fuel : Nat) (cs : List Char) : Except Fault (String × List Char) := do
  let (body, rest) ← stringBody fuel cs
  .ok (String.ofList body, rest)

/-! ### Numbers -/

/-- The greatest significand that is read digit by digit. -/
def maxSignificand : Nat := Nat.pow 2 64 - 1

/-- The greatest power of ten that is a double. -/
def maxPower : Nat := 308

/-- A power of ten as a double. -/
def tenPower (n : Nat) : Double :=
  (Double.ofNat? (Nat.pow 10 n)).getD .zero

/-- Scale a double by a power of ten; an exponent beyond the powers that are doubles is taken in
steps, each rounded. `none` when the result is too large. -/
def scaleTen (x : Double) (power : Int) : Nat → Option Double
  | 0 => some x
  | fuel + 1 =>
    if power.natAbs ≤ maxPower then
      if 0 ≤ power then x.mul? (tenPower power.natAbs) else x.div? (tenPower power.natAbs)
    else if x.significand = 0 then some x
    else if 0 ≤ power then none
    else
      match x.div? (tenPower maxPower) with
      | some y => scaleTen y (power + maxPower) fuel
      | none => none

/-- The double for a significand and a power of ten. -/
def scientific (negative : Bool) (significand : Nat) (power : Int) (rest : List Char) :
    Except Fault (Number × List Char) :=
  match Double.ofNat? significand with
  | none => .error (.here .numberOutOfRange rest)
  | some x =>
    match scaleTen x power 8 with
    | none => .error (.here .numberOutOfRange rest)
    | some y => .ok (.double (y.withSign negative), rest)

/-- The exponents that a number's text can have. -/
def maxExponent : Int := 0x7FFFFFFF

/-- Read the digits of an exponent, the first being read: `none` when it is beyond the greatest
exponent, with the text after the digit that went beyond. -/
def exponentDigits (n : Nat) : List Char → Option Nat × List Char
  | [] => (some n, [])
  | c :: cs =>
    if c.isDigit then
      let next := n * 10 + Text.digitValue c
      if maxExponent < next then (none, cs) else exponentDigits next cs
    else (some n, c :: cs)

/-- Add an exponent to the one that the fraction gives, within the exponents there are. -/
def shiftExponent (start exponent : Int) : Int :=
  max (-0x80000000) (min maxExponent (start + exponent))

/-- Read an exponent, its letter being read. -/
def exponent (negative : Bool) (significand : Nat) (start : Int) (cs : List Char) :
    Except Fault (Number × List Char) :=
  let (down, cs) :=
    match cs with
    | '+' :: rest => (false, rest)
    | '-' :: rest => (true, rest)
    | _ => (false, cs)
  match cs with
  | [] => .error (.here .endInValue [])
  | c :: rest =>
    if !c.isDigit then .error ⟨.invalidNumber, cs, 1⟩
    else
      match exponentDigits (Text.digitValue c) rest with
      | (some n, rest) =>
        scientific negative significand (shiftExponent start (if down then -(n : Int) else n)) rest
      | (none, rest) =>
        if significand ≠ 0 ∧ !down then .error (.here .numberOutOfRange rest)
        else .ok (.double (Double.zero.withSign negative), rest.dropWhile Char.isDigit)

/-- Read an exponent if there is one. -/
def optionalExponent (negative : Bool) (significand : Nat) (power : Int) (cs : List Char) :
    Except Fault (Number × List Char) :=
  match cs with
  | 'e' :: rest | 'E' :: rest => exponent negative significand power rest
  | _ => scientific negative significand power cs

/-- Take the digits of a fraction into the significand until it is full; `taken` counts them. -/
def fractionDigits (significand taken : Nat) : List Char → Nat × Nat × List Char
  | [] => (significand, taken, [])
  | c :: cs =>
    if c.isDigit && significand * 10 + Text.digitValue c ≤ maxSignificand then
      fractionDigits (significand * 10 + Text.digitValue c) (taken + 1) cs
    else (significand, taken, c :: cs)

/-- Read a fraction, its point being read. Digits beyond a full significand are passed over. -/
def fraction (negative : Bool) (significand : Nat) (before : Int) (cs : List Char) :
    Except Fault (Number × List Char) :=
  let (significand, taken, rest) := fractionDigits significand 0 cs
  if (cs.head?.map Char.isDigit).getD false then
    optionalExponent negative significand (before - taken) (rest.dropWhile Char.isDigit)
  else if cs.isEmpty then .error (.here .endInValue [])
  else .error (.next .invalidNumber cs)

/-- The integer of a significand, as a double where no integer type has it. -/
def integer (negative : Bool) (significand : Nat) : Number :=
  if !negative then .int significand
  else if significand = 0 ∨ Nat.pow 2 63 < significand then
    .double (((Double.ofNat? significand).getD .zero).withSign true)
  else .int (-(significand : Int))

/-- Read what can follow the digits before the point. -/
def numberTail (negative : Bool) (significand : Nat) (cs : List Char) :
    Except Fault (Number × List Char) :=
  match cs with
  | '.' :: rest => fraction negative significand 0 rest
  | 'e' :: rest | 'E' :: rest => exponent negative significand 0 rest
  | _ => .ok (integer negative significand, cs)

/-- Pass over the digits that a full significand has no room for. -/
def longInteger (negative : Bool) (significand : Nat) (cs : List Char) :
    Except Fault (Number × List Char) :=
  let passed := (cs.takeWhile Char.isDigit).length
  match cs.dropWhile Char.isDigit with
  | '.' :: rest => fraction negative significand passed rest
  | rest => optionalExponent negative significand passed rest

/-- Read the digits after the first one. -/
def integerDigits (negative : Bool) (significand : Nat) :
    List Char → Except Fault (Number × List Char)
  | [] => .ok (integer negative significand, [])
  | c :: cs =>
    if c.isDigit then
      if significand * 10 + Text.digitValue c ≤ maxSignificand then
        integerDigits negative (significand * 10 + Text.digitValue c) cs
      else longInteger negative significand (c :: cs)
    else numberTail negative significand (c :: cs)

/-- Read a number after its sign. A leading zero stands alone. -/
def unsigned (negative : Bool) (cs : List Char) : Except Fault (Number × List Char) :=
  match cs with
  | [] => .error (.here .endInValue [])
  | c :: rest =>
    if c = '0' then
      if (rest.head?.map Char.isDigit).getD false then .error (.next .invalidNumber rest)
      else numberTail negative 0 rest
    else if c.isDigit then integerDigits negative (Text.digitValue c) rest
    else .error ⟨.invalidNumber, cs, 1⟩

/-! ### Values -/

/-- Read up to the next element of an array, or the bracket that closes it: whether an element
follows, with the text from it or after the bracket. `first` holds before any element. -/
def nextElement (first : Bool) (cs : List Char) : Except Fault (Bool × List Char) :=
  match skipSpace cs with
  | [] => .error (.here .endInList [])
  | ']' :: rest => .ok (false, rest)
  | c :: rest =>
    if first then .ok (true, c :: rest)
    else if c = ',' then
      match skipSpace rest with
      | [] => .error (.here .endInValue [])
      | ']' :: rest => .error (.next .trailingComma (']' :: rest))
      | rest => .ok (true, rest)
    else .error (.next .expectedCommaOrBracket (c :: rest))

/-- Read the elements of an array and the bracket that closes it. -/
def elements {α : Type} (element : List Char → Except Fault (α × List Char)) (first : Bool) :
    Nat → List Char → Except Fault (List α × List Char)
  | 0, cs => .error (.here .endInList cs)
  | fuel + 1, cs => do
    let (more, rest) ← nextElement first cs
    if more then
      let (v, rest) ← element rest
      let (vs, rest) ← elements element false fuel rest
      .ok (v :: vs, rest)
    else .ok ([], rest)

/-- Read up to the next key of an object, or the brace that closes it: whether a key follows, with
the text after its opening quote or after the brace. `first` holds before any key. -/
def nextKey (first : Bool) (cs : List Char) : Except Fault (Bool × List Char) :=
  match skipSpace cs with
  | [] => .error (.here .endInObject [])
  | '\x7d' :: rest => .ok (false, rest)
  | c :: rest =>
    if first then
      if c = '"' then .ok (true, rest) else .error (.next .keyNotString (c :: rest))
    else if c = ',' then
      match skipSpace rest with
      | [] => .error (.here .endInValue [])
      | '"' :: rest => .ok (true, rest)
      | '\x7d' :: rest => .error (.next .trailingComma ('\x7d' :: rest))
      | rest => .error (.next .keyNotString rest)
    else .error (.next .expectedCommaOrBrace (c :: rest))

/-- Read the colon between a key and its value. -/
def colon (cs : List Char) : Except Fault (List Char) :=
  match skipSpace cs with
  | [] => .error (.here .endInObject [])
  | ':' :: rest => .ok rest
  | rest => .error (.next .expectedColon rest)

/-- Read the members of an object and the brace that closes it, putting each into what those before
it have made. -/
def members {α β : Type} (element : List Char → Except Fault (α × List Char))
    (put : β → String → α → β) (first : Bool) (sofar : β) :
    Nat → List Char → Except Fault (β × List Char)
  | 0, cs => .error (.here .endInObject cs)
  | fuel + 1, cs => do
    let (more, rest) ← nextKey first cs
    if more then
      let (key, rest) ← string (fuel + 1) rest
      let (v, rest) ← element (← colon rest)
      members element put false (put sofar key v) fuel rest
    else .ok (sofar, rest)

/-- Read a value that is no array and no object. -/
def scalar (fuel : Nat) (cs : List Char) : Except Fault (Json × List Char) :=
  match cs with
  | [] => .error (.here .endInValue [])
  | 'n' :: rest => do .ok (.null, ← word ['u', 'l', 'l'] rest)
  | 't' :: rest => do .ok (.bool true, ← word ['r', 'u', 'e'] rest)
  | 'f' :: rest => do .ok (.bool false, ← word ['a', 'l', 's', 'e'] rest)
  | '-' :: rest => do
    let (n, rest) ← unsigned true rest
    .ok (.number n, rest)
  | '"' :: rest => do
    let (s, rest) ← string fuel rest
    .ok (.string s, rest)
  | c :: rest =>
    if c.isDigit then do
      let (n, rest) ← unsigned false (c :: rest)
      .ok (.number n, rest)
    else .error (.next .expectedValue (c :: rest))

/-- Read a value whose arrays and objects are nested at most `depth` deep; `fuel` is more than the
length of the text. -/
def value (fuel : Nat) : Nat → List Char → Except Fault (Json × List Char)
  | 0, cs =>
    match skipSpace cs with
    | '[' :: rest => .error (.next .nestedTooDeep ('[' :: rest))
    | '\x7b' :: rest => .error (.next .nestedTooDeep ('\x7b' :: rest))
    | rest => scalar fuel rest
  | depth + 1, cs =>
    match skipSpace cs with
    | '[' :: rest => do
      let (items, rest) ← elements (value fuel depth) true fuel rest
      .ok (.array items, rest)
    | '\x7b' :: rest => do
      let (entries, rest) ← members (value fuel depth) Members.set true [] fuel rest
      .ok (.object entries, rest)
    | rest => scalar fuel rest

/-- The number of arrays and objects that may be nested in one another. -/
def maxDepth : Nat := 127

/-- Refuse text after a value, spaces apart. -/
def finish {α : Type} (result : Except Fault (α × List Char)) : Except Fault α := do
  let (v, rest) ← result
  match skipSpace rest with
  | [] => .ok v
  | rest => .error (.next .trailingCharacters rest)

end Reader

open Reader in
/-- The value that a text holds, or its first fault. -/
def parse (text : String) : Except Fault Json :=
  finish (value (text.length + 1) maxDepth text.toList)

/-- The value that a text holds, or the message of its first fault. -/
def read (text : String) : Except String Json :=
  (parse text).mapError (·.message text.toList)

end KeyHarvest.Json
