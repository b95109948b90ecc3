import KeyHarvest.Json.Printer
import KeyHarvest.Text.Utf8

/-!
# Faults in JSON text

A fault has a cause and a place. The place is held as the text still unread, with a number of bytes
beyond its start; only the final message turns it into a line and a column, which count bytes.
-/

namespace KeyHarvest.Json

/-- A value of the wrong kind, as a message names it. -/
inductive Found where
  | null
  | bool (b : Bool)
  | number (n : Number)
  | string (s : String)
  | sequence
  | map
  deriving DecidableEq, Repr

/-- The words for a value of the wrong kind. -/
def Found.phrase : Found → String
  | .null => "null"
  | .bool b => "boolean `" ++ (if b then "true" else "false") ++ "`"
  | .number (.int n) => "integer `" ++ String.ofList (Number.text (.int n)) ++ "`"
  | .number (.double x) => "floating point `" ++ String.ofList (Number.text (.double x)) ++ "`"
  | .string s => "string " ++ Text.quoted s
  | .sequence => "sequence"
  | .map => "map"

/-- Why text is refused. -/
inductive Cause where
  | endInValue
  | endInObject
  | endInList
  | endInString
  | expectedValue
  | expectedWord
  | expectedColon
  | expectedCommaOrBrace
  | expectedCommaOrBracket
  | keyNotString
  | trailingComma
  | trailingCharacters
  | invalidNumber
  | numberOutOfRange
  | invalidEscape
  | loneSurrogate
  | unfinishedSurrogate
  | controlCharacter
  | nestedTooDeep
  | wrongKind (found : Found) (expected : String)
  | duplicateField (name : String)
  deriving DecidableEq, Repr

/-- The words of a cause. -/
def Cause.phrase : Cause → String
  | .endInValue => "EOF while parsing a value"
  | .endInObject => "EOF while parsing an object"
  | .endInList => "EOF while parsing a list"
  | .endInString => "EOF while parsing a string"
  | .expectedValue => "expected value"
  | .expectedWord => "expected ident"
  | .expectedColon => "expected `:`"
  | .expectedCommaOrBrace => "expected `,` or `\x7d`"
  | .expectedCommaOrBracket => "expected `,` or `]`"
  | .keyNotString => "key must be a string"
  | .trailingComma => "trailing comma"
  | .trailingCharacters => "trailing characters"
  | .invalidNumber => "invalid number"
  | .numberOutOfRange => "number out of range"
  | .invalidEscape => "invalid escape"
  | .loneSurrogate => "lone leading surrogate in hex escape"
  | .unfinishedSurrogate => "unexpected end of hex escape"
  | .controlCharacter => "control character (\\u0000-\\u001F) found while parsing a string"
  | .nestedTooDeep => "recursion limit exceeded"
  | .wrongKind found expected => "invalid type: " ++ found.phrase ++ ", expected " ++ expected
  | .duplicateField name => "duplicate field `" ++ name ++ "`"

/-- A cause with its place: `ahead` bytes beyond the start of the unread text. -/
structure Fault where
  /-- Why the text is refused. -/
  cause : Cause
  /-- The text still unread. -/
  unread : List Char
  /-- How many bytes of it the place lies behind. -/
  ahead : Nat
  deriving DecidableEq, Repr

/-- A fault at the start of the unread text. -/
def Fault.here (cause : Cause) (unread : List Char) : Fault :=
  ⟨cause, unread, 0⟩

/-- A fault about the next byte of the unread text, which the place counts in if there is one. -/
def Fault.next (cause : Cause) (unread : List Char) : Fault :=
  ⟨cause, unread, if unread.isEmpty then 0 else 1⟩

/-- The line and column of a byte offset, for text that starts at the given line and column. A
line break starts a line, whose first byte has column one. -/
def lineColumn (line column : Nat) : List Char → Nat → Nat × Nat
  | [], _ => (line, column)
  | c :: cs, offset =>
    if offset = 0 then (line, column)
    else if c = '\n' then lineColumn (line + 1) 0 cs (offset - 1)
    else if offset < c.utf8Size then (line, column + offset)
    else lineColumn line (column + c.utf8Size) cs (offset - c.utf8Size)

/-- The message of a fault in a text. -/
def Fault.message (fault : Fault) (text : List Char) : String :=
  let offset := Text.byteLength text - Text.byteLength fault.unread + fault.ahead
  let (line, column) := lineColumn 1 0 text offset
  fault.cause.phrase ++ " at line " ++ Nat.repr line ++ " column " ++ Nat.repr column

end KeyHarvest.Json
