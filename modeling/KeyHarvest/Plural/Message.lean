import KeyHarvest.Plural.Literal

/-!
# Plural messages

The strings of a plural literal become one message with a branch for each number, which is the
default text of the key that the literal belongs to.
-/

namespace KeyHarvest.Plural

/-- The message of a singular, a plural and an optional trailer; a single string makes none. -/
def message? : List String → Option String
  | one :: other :: rest =>
    let trailer :=
      match rest with
      | extra :: _ => if extra = "" then "" else " " ++ extra
      | [] => ""
    some ("\x7bNB, plural, one\x7b" ++ one ++ "\x7d other\x7b" ++ other ++ "\x7d" ++ trailer ++
      "\x7d")
  | _ => none

/-- The default text that a literal gives: the message of its strings, empty if the literal is
refused or has too few of them. -/
def defaultText (literal : String) : String :=
  match Literal.parse literal with
  | .ok strings => (message? strings).getD ""
  | .error _ => ""

end KeyHarvest.Plural
