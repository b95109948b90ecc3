import KeyHarvest.Text.Category
import KeyHarvest.Text.Digit

/-!
# Quoted text in messages

A message quotes a text between double quotes. The quote and the backslash are escaped, tab, line
feed, carriage return and NUL have letters of their own, and a character that would not show, or
would merge with the one before it, is given by its code point. A quoted path has its single quotes
escaped too.
-/

namespace KeyHarvest.Text

/-- A character as it stands in a quoted text. -/
def quotedChar (c : Char) : List Char :=
  if c.toNat = 0 then ['\\', '0']
  else if c = '\t' then ['\\', 't']
  else if c = '\n' then ['\\', 'n']
  else if c = '\r' then ['\\', 'r']
  else if c = '"' then ['\\', '"']
  else if c = '\\' then ['\\', '\\']
  else if isPrintable c && !extendsGrapheme c then [c]
  else ['\\', 'u', '\x7b'] ++ hexDigits c.toNat ++ ['\x7d']

/-- A text between quotes, escaped. -/
def quoted (text : String) : String :=
  String.ofList ('"' :: text.toList.flatMap quotedChar ++ ['"'])

/-- The text of a path between quotes. A single quote in it is escaped as well. -/
def quotedPath (text : String) : String :=
  String.ofList ('"' :: text.toList.flatMap
    (fun c ↦ if c = '\'' then ['\\', '\''] else quotedChar c) ++ ['"'])

end KeyHarvest.Text
