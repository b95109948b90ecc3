import KeyHarvest.Regex.Property

/-!
# Engines

Expressions are read with the data of an engine: which properties of characters it knows, and which
expressions are too large for it. What is said of expressions holds for every engine.
-/

namespace KeyHarvest.Regex

/-- What an engine for regular expressions brings along besides their language. -/
structure Engine where
  /-- The class of a property, by the text between its braces. -/
  property? : List Char → Option CharClass
  /-- The class of the characters of which a property has a value. -/
  propertyValue? : List Char → List Char → Option CharClass
  /-- Whether `!=` between a property and its value asks for the other characters. -/
  unequal : Bool
  /-- Whether the expression that a text writes is within the limit on compiled expressions. -/
  fits : String → Bool
  /-- The words for what is wrong with a text that is not compiled. -/
  complaint : String → String

/-- The engine that knows the properties of `CharClass.ofPropertyName?` and limits nothing. -/
def Engine.standard : Engine where
  property? := CharClass.ofPropertyName?
  propertyValue? := CharClass.ofPropertyValue?
  unequal := false
  fits := fun _ ↦ true
  complaint := fun _ ↦ "regex parse error"

end KeyHarvest.Regex
