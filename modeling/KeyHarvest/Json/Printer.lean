import KeyHarvest.Decimal.Shortest
import KeyHarvest.Json.Basic
import KeyHarvest.KeyMap
import KeyHarvest.Text.Quoted

/-!
# Written JSON

A value is written in one line without spaces (`compact`), or over several lines with one level of
indentation for each level of nesting (`pretty`). Inside a string only the quote, the backslash and
the characters below the space are escaped.

Doubles have a digit on each side of the point; from `1e+16` up and below `0.00001` they are
written with an exponent.
-/

namespace KeyHarvest

namespace Number

/-- The digits with a point after the first `whole` of them, zeros filling a missing part. -/
def positional (digits : List Char) (whole : Int) : List Char :=
  if whole ≤ 0 then ['0', '.'] ++ List.replicate (-whole).toNat '0' ++ digits
  else
    let n := whole.toNat
    let front := digits.take n ++ List.replicate (n - digits.length) '0'
    let back := digits.drop n
    front ++ ['.'] ++ (if back.isEmpty then ['0'] else back)

/-- The digits with a point after the first one, and the power of ten. -/
def scientific (digits : List Char) (power : Int) : List Char :=
  digits.take 1 ++ (if digits.length ≤ 1 then [] else '.' :: digits.drop 1) ++
    ['e', if power < 0 then '-' else '+'] ++ (Nat.repr power.natAbs).toList

/-- The text of a double. -/
def doubleText (x : Double) : List Char :=
  let a := x.shortest
  let digits := (Nat.repr a.digits).toList
  let whole := (digits.length : Int) + a.exponent
  (if x.negative then ['-'] else []) ++
    (if x.significand = 0 then ['0', '.', '0']
    else if -5 < whole ∧ whole ≤ 16 then positional digits whole
    else scientific digits (whole - 1))

/-- The text of a number. -/
def text : Number → List Char
  | .int n => (if n < 0 then ['-'] else []) ++ (Nat.repr n.natAbs).toList
  | .double x => doubleText x

end Number

namespace Json

/-- A character below the space as a letter or four hexadecimal digits. -/
def controlEscape (c : Char) : List Char :=
  if c.toNat = 8 then ['\\', 'b']
  else if c.toNat = 9 then ['\\', 't']
  else if c.toNat = 10 then ['\\', 'n']
  else if c.toNat = 12 then ['\\', 'f']
  else if c.toNat = 13 then ['\\', 'r']
  else ['\\', 'u', '0', '0', (c.toNat / 16).digitChar, (c.toNat % 16).digitChar]

/-- A character as it stands in a string. -/
def escapeChar (c : Char) : List Char :=
  if c = '"' then ['\\', '"']
  else if c = '\\' then ['\\', '\\']
  else if c.toNat < 0x20 then controlEscape c
  else [c]

/-- A string between its quotes. -/
def stringText (s : String) : List Char :=
  '"' :: s.toList.flatMap escapeChar ++ ['"']

mutual

/-- A value in one line, followed by further text. -/
def compactChars : Json → List Char
  | .null => ['n', 'u', 'l', 'l']
  | .bool true => ['t', 'r', 'u', 'e']
  | .bool false => ['f', 'a', 'l', 's', 'e']
  | .number n => n.text
  | .string s => stringText s
  | .array items => '[' :: compactItems items ++ [']']
  | .object members => '\x7b' :: compactMembers members ++ ['\x7d']

/-- Values divided by commas. -/
def compactItems : List Json → List Char
  | [] => []
  | [x] => compactChars x
  | x :: xs => compactChars x ++ ',' :: compactItems xs

/-- Keys with their values, divided by commas. -/
def compactMembers : List (String × Json) → List Char
  | [] => []
  | [(k, x)] => stringText k ++ ':' :: compactChars x
  | (k, x) :: xs => stringText k ++ ':' :: compactChars x ++ ',' :: compactMembers xs

end

/-- A line break and the indentation of a level. -/
def newline (width level : Nat) : List Char :=
  '\n' :: List.replicate (width * level) ' '

mutual

/-- A value over several lines; its first line stands at the given level. -/
def prettyChars (width level : Nat) : Json → List Char
  | .array [] => ['[', ']']
  | .array items =>
    '[' :: prettyItems width (level + 1) items ++ newline width level ++ [']']
  | .object [] => ['\x7b', '\x7d']
  | .object members =>
    '\x7b' :: prettyMembers width (level + 1) members ++ newline width level ++ ['\x7d']
  | .null => compactChars .null
  | .bool b => compactChars (.bool b)
  | .number n => compactChars (.number n)
  | .string s => compactChars (.string s)

/-- Values each on a line of its own. -/
def prettyItems (width level : Nat) : List Json → List Char
  | [] => []
  | [x] => newline width level ++ prettyChars width level x
  | x :: xs => newline width level ++ prettyChars width level x ++ ',' :: prettyItems width level xs

/-- Keys with their values, each on a line of its own. -/
def prettyMembers (width level : Nat) : List (String × Json) → List Char
  | [] => []
  | [(k, x)] => newline width level ++ stringText k ++ ':' :: ' ' :: prettyChars width level x
  | (k, x) :: xs =>
    newline width level ++ stringText k ++ ':' :: ' ' :: prettyChars width level x ++
      ',' :: prettyMembers width level xs

end

/-- The value in one line. -/
def compact (v : Json) : String :=
  String.ofList v.compactChars

/-- The value over several lines, each level indented by `width` spaces. -/
def pretty (v : Json) (width : Nat) : String :=
  String.ofList (v.prettyChars width 0)

/-- Members in key order; of equal keys the first stays. -/
def sortMembers (members : Members) : Members :=
  members.foldr (fun e sorted ↦ KeyMap.insertEntry e.1 e.2 sorted) []

mutual

/-- The value with its members in key order, and those of all objects reached through objects.
What stands inside an array stays as it is. -/
def sortKeys : Json → Json
  | .object members => .object (sortMembers (sortValues members))
  | v => v

/-- Members whose values have their keys in order. -/
def sortValues : List (String × Json) → List (String × Json)
  | [] => []
  | (k, v) :: rest => (k, sortKeys v) :: sortValues rest

end

end Json

end KeyHarvest
