import KeyHarvest.Regex.CharClass

/-!
# Names of character classes

A pattern names a class by a Unicode property between braces or by a bracket expression such as
`[:alpha:]`. Property names are compared loosely: case, spaces, `_`, `-` and characters outside
ASCII do not count, nor does a leading `is`. Of the properties, the general categories, the
alphabetic characters and white space are known here.
-/

namespace KeyHarvest.CharClass

open Text (Category)

/-- The characters of a property name that count in it, in lower case. -/
def keptName (name : List Char) : List Char :=
  (name.filter fun c ↦ c.toNat < 128 && c != ' ' && c != '_' && c != '-').map Char.toLower

/-- A property name as it is compared. The `is` of `isc` counts, for `c` is another name. -/
def looseName (name : List Char) : List Char :=
  match name with
  | i :: s :: rest =>
    if i.toLower = 'i' ∧ s.toLower = 's' then
      let kept := keptName rest
      if kept = ['c'] then ['i', 's', 'c'] else kept
    else keptName name
  | _ => keptName name

/-- The characters of some categories. -/
def ofCategories (ks : List Category) : CharClass :=
  unions (ks.map .category)

/-- The long name of a category, as loosely compared. -/
def categoryName : Category → String
  | .uppercaseLetter => "uppercaseletter"
  | .lowercaseLetter => "lowercaseletter"
  | .titlecaseLetter => "titlecaseletter"
  | .modifierLetter => "modifierletter"
  | .otherLetter => "otherletter"
  | .nonspacingMark => "nonspacingmark"
  | .spacingMark => "spacingmark"
  | .enclosingMark => "enclosingmark"
  | .decimalNumber => "decimalnumber"
  | .letterNumber => "letternumber"
  | .otherNumber => "othernumber"
  | .connectorPunctuation => "connectorpunctuation"
  | .dashPunctuation => "dashpunctuation"
  | .openPunctuation => "openpunctuation"
  | .closePunctuation => "closepunctuation"
  | .initialPunctuation => "initialpunctuation"
  | .finalPunctuation => "finalpunctuation"
  | .otherPunctuation => "otherpunctuation"
  | .mathSymbol => "mathsymbol"
  | .currencySymbol => "currencysymbol"
  | .modifierSymbol => "modifiersymbol"
  | .otherSymbol => "othersymbol"
  | .spaceSeparator => "spaceseparator"
  | .lineSeparator => "lineseparator"
  | .paragraphSeparator => "paragraphseparator"
  | .control => "control"
  | .format => "format"
  | .surrogate => "surrogate"
  | .privateUse => "privateuse"
  | .unassigned => "unassigned"

/-- The categories whose two letters begin with the given one. -/
def categoriesOf (letter : Char) : List Category :=
  Category.all.filter fun k ↦ k.abbreviation.toList.head? == some letter

/-- The class of a category or a group of categories, by its loosely compared name. No character is
a surrogate, and their category has no class. -/
def ofCategoryName? (name : String) : Option CharClass :=
  if name = "any" then some .any
  else if name = "assigned" then some (.compl (.category .unassigned))
  else if name = "ascii" then some (.range 0 127)
  else if name = "l" ∨ name = "letter" then some (ofCategories (categoriesOf 'L'))
  else if name = "lc" ∨ name = "casedletter" then
    some (ofCategories [.uppercaseLetter, .lowercaseLetter, .titlecaseLetter])
  else if name = "m" ∨ name = "mark" ∨ name = "combiningmark" then
    some (ofCategories (categoriesOf 'M'))
  else if name = "n" ∨ name = "number" then some (ofCategories (categoriesOf 'N'))
  else if name = "p" ∨ name = "punctuation" ∨ name = "punct" then
    some (ofCategories (categoriesOf 'P'))
  else if name = "s" ∨ name = "symbol" then some (ofCategories (categoriesOf 'S'))
  else if name = "z" ∨ name = "separator" then some (ofCategories (categoriesOf 'Z'))
  else if name = "c" ∨ name = "other" then some (ofCategories (categoriesOf 'C'))
  else if name = "digit" then some (.category .decimalNumber)
  else if name = "cntrl" then some (.category .control)
  else
    (Category.all.find? fun k ↦
      k != .surrogate && (k.abbreviation.toLower == name || categoryName k == name)).map .category

/-- The class of a property by its name between braces. -/
def ofPropertyName? (name : List Char) : Option CharClass :=
  let name := String.ofList (looseName name)
  if name = "alphabetic" ∨ name = "alpha" then some .alphabetic
  else if name = "whitespace" ∨ name = "wspace" ∨ name = "space" then some .blank
  else ofCategoryName? name

/-- The class of a property with a value; only general categories have values. -/
def ofPropertyValue? (property value : List Char) : Option CharClass :=
  let property := String.ofList (looseName property)
  if property = "gc" ∨ property = "generalcategory" then
    ofCategoryName? (String.ofList (looseName value))
  else Option.none

/-- The capital ASCII letters. -/
def asciiUpper : CharClass := .range 65 90

/-- The small ASCII letters. -/
def asciiLower : CharClass := .range 97 122

/-- The ASCII digits. -/
def asciiDigit : CharClass := .range 48 57

/-- The ASCII letters. -/
def asciiAlpha : CharClass := .union asciiUpper asciiLower

/-- The ASCII characters of words. -/
def asciiWord : CharClass := unions [asciiAlpha, asciiDigit, .single '_']

/-- The ASCII characters that are blank. -/
def asciiSpace : CharClass := .union (.range 9 13) (.single ' ')

/-- The class that a bracket expression names. -/
def ofBracketName? (name : String) : Option CharClass :=
  if name = "alnum" then some (.union asciiAlpha asciiDigit)
  else if name = "alpha" then some asciiAlpha
  else if name = "ascii" then some (.range 0 127)
  else if name = "blank" then some (ofList ['\t', ' '])
  else if name = "cntrl" then some (.union (.range 0 31) (.single '\x7f'))
  else if name = "digit" then some asciiDigit
  else if name = "graph" then some (.range 33 126)
  else if name = "lower" then some asciiLower
  else if name = "print" then some (.range 32 126)
  else if name = "punct" then
    some (unions [.range 33 47, .range 58 64, .range 91 96, .range 123 126])
  else if name = "space" then some asciiSpace
  else if name = "upper" then some asciiUpper
  else if name = "word" then some asciiWord
  else if name = "xdigit" then some (unions [asciiDigit, .range 65 70, .range 97 102])
  else Option.none

end KeyHarvest.CharClass
