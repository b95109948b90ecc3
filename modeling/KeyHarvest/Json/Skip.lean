import KeyHarvest.Json.Reader

/-!
# Passing over JSON

A value that nobody asks for is passed over without being built. Its nesting is not limited, its
numbers may have any size, and of an escape by code point only the digits are looked at. The arrays
and objects it is inside of are kept as a list of frames.
-/

namespace KeyHarvest.Json.Skip

open Reader

/-- Pass over an escape, its backslash being read. -/
def escape (cs : List Char) : Except Fault (List Char) :=
  match cs with
  | [] => .error (.here .endInString [])
  | 'u' :: rest => do return (← hex4 rest).2
  | c :: rest =>
    if ['"', '\\', '/', 'b', 'f', 'n', 'r', 't'].contains c then .ok rest
    else .error ⟨.invalidEscape, cs, 1⟩

/-- Pass over a string, its opening quote being read. -/
def string : Nat → List Char → Except Fault (List Char)
  | _, [] => .error (.here .endInString [])
  | 0, cs => .error (.here .endInString cs)
  | fuel + 1, c :: rest =>
    if c = '"' then .ok rest
    else if c = '\\' then do string fuel (← escape rest)
    else if c.toNat < 0x20 then .error (.here .controlCharacter (c :: rest))
    else string fuel rest

/-- Pass over an exponent, its letter being read. -/
def exponent (cs : List Char) : Except Fault (List Char) :=
  let cs :=
    match cs with
    | '+' :: rest | '-' :: rest => rest
    | _ => cs
  match cs with
  | [] => .error (.here .invalidNumber [])
  | c :: rest =>
    if c.isDigit then .ok (rest.dropWhile Char.isDigit) else .error ⟨.invalidNumber, cs, 1⟩

/-- Pass over an exponent if there is one. -/
def optionalExponent (cs : List Char) : Except Fault (List Char) :=
  match cs with
  | 'e' :: rest | 'E' :: rest => exponent rest
  | _ => .ok cs

/-- Pass over a number after its sign. -/
def unsigned (cs : List Char) : Except Fault (List Char) := do
  let rest ←
    match cs with
    | [] => .error (.here .invalidNumber [])
    | c :: rest =>
      if c = '0' then
        if (rest.head?.map Char.isDigit).getD false then .error (.next .invalidNumber rest)
        else .ok rest
      else if c.isDigit then .ok (rest.dropWhile Char.isDigit)
      else .error ⟨.invalidNumber, cs, 1⟩
  match rest with
  | '.' :: rest =>
    if (rest.head?.map Char.isDigit).getD false then optionalExponent (rest.dropWhile Char.isDigit)
    else .error (.next .invalidNumber rest)
  | _ => optionalExponent rest

/-- What a value is inside of. -/
inductive Frame where
  | array
  | object
  deriving DecidableEq, Repr

/-- What text that ends inside a frame lacks. -/
def Frame.unfinished : Frame → Cause
  | .array => .endInList
  | .object => .endInObject

/-- What is missing after a value in a frame. -/
def Frame.undivided : Frame → Cause
  | .array => .expectedCommaOrBracket
  | .object => .expectedCommaOrBrace

/-- The character that closes a frame. -/
def Frame.closing : Frame → Char
  | .array => ']'
  | .object => '\x7d'

/-- Pass over a value up to its end, or up to the inside of the array or object that it opens. -/
def start (fuel : Nat) (cs : List Char) : Except Fault (Option Frame × List Char) :=
  match skipSpace cs with
  | [] => .error (.here .endInValue [])
  | 'n' :: rest => do return (none, ← word ['u', 'l', 'l'] rest)
  | 't' :: rest => do return (none, ← word ['r', 'u', 'e'] rest)
  | 'f' :: rest => do return (none, ← word ['a', 'l', 's', 'e'] rest)
  | '-' :: rest => do return (none, ← unsigned rest)
  | '"' :: rest => do return (none, ← string fuel rest)
  | '[' :: rest => .ok (some .array, rest)
  | '\x7b' :: rest => .ok (some .object, rest)
  | c :: rest =>
    if c.isDigit then do return (none, ← unsigned (c :: rest))
    else .error (.next .expectedValue (c :: rest))

/-- Pass over what stands before the next value in a frame: in an object a key and its colon. -/
def beforeValue (fuel : Nat) (frame : Frame) (cs : List Char) : Except Fault (List Char) :=
  match frame with
  | .array => .ok cs
  | .object =>
    match skipSpace cs with
    | [] => .error (.here .endInObject [])
    | '"' :: rest => do colon (← string fuel rest)
    | rest => .error (.next .keyNotString rest)

/-- Pass over the ends of frames up to the next value in one of them; `divided` holds where a comma
may come. -/
def leave (fuel : Nat) (divided : Bool) :
    List Frame → List Char → Except Fault (List Frame × List Char)
  | [], cs => .ok ([], cs)
  | frame :: outer, cs =>
    match skipSpace cs with
    | [] => .error (.here frame.unfinished [])
    | c :: rest =>
      if c = ',' ∧ divided then do return (frame :: outer, ← beforeValue fuel frame rest)
      else if c = frame.closing then leave fuel true outer rest
      else if divided then .error (.next frame.undivided (c :: rest))
      else do return (frame :: outer, ← beforeValue fuel frame (c :: rest))

/-- Pass over values up to the end of all frames. -/
def values (width : Nat) : Nat → List Frame → List Char → Except Fault (List Char)
  | 0, _, cs => .error (.here .endInValue cs)
  | fuel + 1, frames, cs => do
    let (opened, rest) ← start width cs
    let (frames, rest) ←
      match opened with
      | some frame => leave width false (frame :: frames) rest
      | none => leave width true frames rest
    if frames.isEmpty then .ok rest else values width fuel frames rest

/-- Pass over a value; `fuel` is more than the length of the text. -/
def value (fuel : Nat) (cs : List Char) : Except Fault (List Char) :=
  values fuel fuel [] cs

end KeyHarvest.Json.Skip
