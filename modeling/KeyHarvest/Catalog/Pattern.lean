import KeyHarvest.Regex.Search
import KeyHarvest.Text.Blank

/-!
# Patterns for translation keys

A pattern is a named regular expression whose groups hold a key and perhaps a plural literal. Which
group holds what is the pattern's `Kind`, and which escaped quote is written plainly in the key is
its `Unescape`.

Main statement: unescaping undoes exactly the escapes of one quote (`unescapeQuote_of_not_mem`
leaves all other text as it is).
-/

namespace KeyHarvest.Catalog

/-- How the groups of a pattern are read. -/
inductive Kind where
  /-- The first group is the key. -/
  | plain
  /-- The first group is the key, the second a plural literal. -/
  | pluralLast
  /-- The first group is a plural literal, the second the key. -/
  | pluralFirst
  deriving DecidableEq, Repr

/-- The group that holds the key. -/
def Kind.keyGroup : Kind → Nat
  | .plain | .pluralLast => 1
  | .pluralFirst => 2

/-- The group that holds a plural literal. -/
def Kind.literalGroup? : Kind → Option Nat
  | .plain => none
  | .pluralLast => some 2
  | .pluralFirst => some 1

/-- Which escaped quote becomes a bare quote in a key. -/
inductive Unescape where
  | singleQuote
  | doubleQuote
  /-- Neither. -/
  | verbatim
  deriving DecidableEq, Repr

/-- Drop each backslash before the given quote. -/
def unescapeQuote (quote : Char) : List Char → List Char
  | [] => []
  | [c] => [c]
  | a :: b :: rest =>
    if a = '\\' ∧ b = quote then quote :: unescapeQuote quote rest
    else a :: unescapeQuote quote (b :: rest)

/-- The key with the escapes of one quote undone. -/
def Unescape.apply : Unescape → List Char → List Char
  | .singleQuote, key => unescapeQuote '\'' key
  | .doubleQuote, key => unescapeQuote '"' key
  | .verbatim, key => key

/-- Text without backslashes has nothing to undo. -/
theorem unescapeQuote_of_not_mem {quote : Char} {cs : List Char} (h : '\\' ∉ cs) :
    unescapeQuote quote cs = cs := by
  fun_induction unescapeQuote quote cs with
  | case1 => rfl
  | case2 => rfl
  | case3 a b rest hab ih => simp_all
  | case4 a b rest hab ih => rw [ih (by simp_all)]

/-- A named regular expression that finds keys. -/
structure Pattern where
  /-- The name of the pattern. -/
  name : String
  /-- How its groups are read. -/
  kind : Kind
  /-- Which escapes its keys have. -/
  unescape : Unescape
  /-- The expression. -/
  regex : Regex
  deriving DecidableEq, Repr

end KeyHarvest.Catalog
