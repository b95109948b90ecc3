import KeyHarvest.Text.Blank
import KeyHarvest.Text.Digit
import KeyHarvest.Text.Utf8

/-!
# Plural literals

The plural attribute of an element holds a bracketed list of one to three quoted strings, such as
`['one item', 'many items']`: the singular, the plural and an optional trailer. The list is data
only; anything else than strings in it is refused. Strings are quoted singly or doubly, blanks may
stand between all tokens, and a comma may follow the last string.

`Literal.parse` reads such a list. Its errors point at bytes of the input; inside the parser a
place is the text still unread.
-/

namespace KeyHarvest.Plural

/-- Why a plural literal is refused, with a place in the input. -/
inductive LiteralError (Place : Type) where
  /-- Another character than the one that must come. -/
  | expected (c : Char) (place : Place)
  /-- An element that is not a quoted string. -/
  | notAString (place : Place)
  /-- A string without its closing quote; the place is that of the opening one. -/
  | unterminated (place : Place)
  /-- An escape by code point without four digits, or of a surrogate. -/
  | invalidEscape (place : Place)
  /-- More than three strings. -/
  | tooManyElements (count : Nat)
  /-- Text after the closing bracket. -/
  | trailingContent (place : Place)
  deriving DecidableEq, Repr

namespace LiteralError

/-- The same error with its place expressed otherwise. -/
def map {α β : Type} (f : α → β) : LiteralError α → LiteralError β
  | .expected c place => .expected c (f place)
  | .notAString place => .notAString (f place)
  | .unterminated place => .unterminated (f place)
  | .invalidEscape place => .invalidEscape (f place)
  | .tooManyElements count => .tooManyElements count
  | .trailingContent place => .trailingContent (f place)

/-- The words of an error, its place being a byte offset. -/
def message : LiteralError Nat → String
  | .expected c n => "expected '" ++ String.singleton c ++ "' at offset " ++ Nat.repr n
  | .notAString n => "expected a quoted string at offset " ++ Nat.repr n
  | .unterminated n => "unterminated string starting at offset " ++ Nat.repr n
  | .invalidEscape n => "invalid unicode escape at offset " ++ Nat.repr n
  | .tooManyElements count => "too many elements: " ++ Nat.repr count ++ " (max 3)"
  | .trailingContent n => "unexpected trailing content at offset " ++ Nat.repr n

end LiteralError

namespace Literal

/-- An error whose place is the text still unread. -/
abbrev Refusal := LiteralError (List Char)

/-- The character of four hexadecimal digits, unless they name a surrogate. -/
def codePoint? (a b c d : Char) : Option Char := do
  let n ← Text.hexNumber? [a, b, c, d]
  if n.isValidChar then some (Char.ofNat n) else none

/-- The character that a letter after a backslash stands for; most stand for themselves. -/
def escaped (c : Char) : Char :=
  if c = 'n' then '\n'
  else if c = 'r' then '\r'
  else if c = 't' then '\t'
  else if c = 'b' then '\x08'
  else if c = 'f' then '\x0c'
  else if c = 'v' then '\x0b'
  else if c = '0' then '\x00'
  else c

/-- Put a character before the string that is read next. -/
def prepend (c : Char) (result : Except Refusal (List Char × List Char)) :
    Except Refusal (List Char × List Char) :=
  result.map fun (body, rest) ↦ (c :: body, rest)

/-- Read a string up to its closing quote; `start` is the text from its opening quote on. -/
def stringBody (quote : Char) (start : List Char) :
    List Char → Except Refusal (List Char × List Char)
  | [] => .error (.unterminated start)
  | c :: cs =>
    if c = quote then .ok ([], cs)
    else if c = '\\' then
      match cs with
      | [] => .error (.unterminated start)
      | e :: rest =>
        if e = 'u' then
          match rest with
          | a :: b :: c :: d :: after =>
            match codePoint? a b c d with
            | some x => prepend x (stringBody quote start after)
            | none => .error (.invalidEscape (e :: rest))
          | _ => .error (.invalidEscape (e :: rest))
        else prepend (escaped e) (stringBody quote start rest)
    else prepend c (stringBody quote start cs)

/-- Read a quoted string. -/
def string (cs : List Char) : Except Refusal (List Char × List Char) :=
  match cs with
  | [] => .error (.notAString cs)
  | q :: rest =>
    if q = '\'' ∨ q = '"' then stringBody q cs rest else .error (.notAString cs)

/-- Read strings and the commas between them up to the closing bracket; `fuel` is more than the
length of the text. -/
def strings : Nat → List Char → Except Refusal (List (List Char) × List Char)
  | 0, cs => .error (.notAString cs)
  | fuel + 1, cs =>
    if cs.head? = some ']' then .ok ([], cs.tail)
    else do
      let (s, rest) ← string cs
      let rest := Text.trimStart rest
      if rest.head? = some ',' then
        let (ss, rest) ← strings fuel (Text.trimStart rest.tail)
        .ok (s :: ss, rest)
      else if rest.head? = some ']' then .ok ([s], rest.tail)
      else .error (.expected ']' rest)

/-- The most strings that a literal may hold. -/
def maxElements : Nat := 3

/-- Read a whole literal. -/
def list (cs : List Char) : Except Refusal (List (List Char)) :=
  let cs := Text.trimStart cs
  if cs.head? = some '[' then do
    let (ss, rest) ← strings (cs.length + 1) (Text.trimStart cs.tail)
    let rest := Text.trimStart rest
    if !rest.isEmpty then .error (.trailingContent rest)
    else if maxElements < ss.length then .error (.tooManyElements ss.length)
    else .ok ss
  else .error (.expected '[' cs)

/-- The byte offset of a place in an input, given the text unread there. -/
def offset (input unread : List Char) : Nat :=
  Text.byteLength input - Text.byteLength unread

/-- The strings of a plural literal, or its first error by byte offset. -/
def parse (input : String) : Except (LiteralError Nat) (List String) :=
  match list input.toList with
  | .ok ss => .ok (ss.map String.ofList)
  | .error e => .error (e.map (offset input.toList))

end Literal

end KeyHarvest.Plural
