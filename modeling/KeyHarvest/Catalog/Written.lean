import KeyHarvest.Catalog.Pattern

/-!
# The built-in patterns as they are written

Each built-in pattern is written as the text of a regular expression, into which the delimiters and
the name of the filter are put with a backslash before every sign (`Regex.escaped`).
-/

namespace KeyHarvest

/-- The characters that mean something in an expression or in a bracketed class. -/
def Regex.signs : List Char :=
  "\\.+*?()|[]\x7b\x7d^$#&-~".toList

/-- The text of an expression that matches a given text, up to case, and nothing else. -/
def Regex.escaped (s : String) : String :=
  String.ofList (s.toList.flatMap fun c ↦ if c ∈ signs then ['\\', c] else [c])

namespace Catalog.Written

/-- Any number of blanks. -/
def blanks : String := "\\s*"

/-- A quote. -/
def mark (quote : Char) : String := String.ofList [quote]

/-- The text of a string literal between its quotes: escapes, and characters other than the quote
and the backslash. -/
def body (quote : Char) : String := "((?:\\\\.|[^" ++ mark quote ++ "\\\\])*)"

/-- A string literal. -/
def quotedBody (quote : Char) : String := mark quote ++ body quote ++ mark quote

/-- The arguments of a filter. -/
def filterArguments : String := "(:.*?)?"

/-- A string literal after a marking comment. -/
def comment (quote : Char) : String :=
  "/\\*" ++ blanks ++ "i18nextract" ++ blanks ++ "\\*/" ++ quotedBody quote

/-- An interpolation that filters a string literal. -/
def htmlFilter (start stop filter : String) (quote : Char) : String :=
  start ++ blanks ++ quotedBody quote ++ blanks ++ "\\|" ++ blanks ++ filter ++ filterArguments ++
    blanks ++ stop

/-- An element whose tag holds the directive and whose content is the key. -/
def directive (filter : String) : String :=
  "<" ++ "[^>]*" ++ filter ++ "[^\x7b>]*" ++ ">" ++ "([^<]*)" ++ "</" ++ "[^>]*" ++ ">"

/-- An attribute with a value in double quotes. -/
def attributeValue (name : String) : String := name ++ "=" ++ quotedBody '"'

/-- Two attributes in one line. -/
def attributePair (first second : String) : String :=
  attributeValue first ++ ".*" ++ attributeValue second

/-- An attribute that binds a filtered string literal. -/
def bindHtml : String :=
  "ng-bind-html=\"" ++ blanks ++ quotedBody '\'' ++ blanks ++ "\\|" ++ blanks ++ "translate" ++
    filterArguments ++ blanks ++ "\""

/-- A call with a string literal as its first argument. -/
def call (function : String) (quote : Char) : String :=
  function ++ "\\(" ++ blanks ++ quotedBody quote ++ "[^)]*" ++ "\\)"

/-- The function that a filter name is looked up to give. -/
def filterFunction (filter : String) (quote : Char) : String :=
  "\\$filter\\(" ++ blanks ++ mark quote ++ filter ++ mark quote ++ blanks ++ "\\)" ++ blanks

/-- A pattern whose expression is still a text. -/
structure Source where
  /-- The name of the pattern. -/
  name : String
  /-- How its groups are read. -/
  kind : Kind
  /-- Which escapes its keys have. -/
  unescape : Unescape
  /-- The text of the expression. -/
  text : String

/-- The built-in patterns around texts that are written as expressions already. -/
def sourcesOf (start stop filter : String) : List Source := [
  ⟨"commentSimpleQuote", .plain, .singleQuote, comment '\''⟩,
  ⟨"commentDoubleQuote", .plain, .doubleQuote, comment '"'⟩,
  ⟨"HtmlFilterSimpleQuote", .plain, .singleQuote, htmlFilter start stop filter '\''⟩,
  ⟨"HtmlFilterDoubleQuote", .plain, .doubleQuote, htmlFilter start stop filter '"'⟩,
  ⟨"HtmlDirective", .plain, .verbatim, directive filter⟩,
  ⟨"HtmlDirectiveStandalone", .plain, .verbatim, attributeValue filter⟩,
  ⟨"HtmlDirectivePluralLast", .pluralLast, .verbatim,
    attributePair filter "angular-plural-extract"⟩,
  ⟨"HtmlDirectivePluralFirst", .pluralFirst, .verbatim,
    attributePair "angular-plural-extract" "translate"⟩,
  ⟨"HtmlNgBindHtml", .plain, .singleQuote, bindHtml⟩,
  ⟨"JavascriptServiceSimpleQuote", .plain, .singleQuote, call "\\$translate" '\''⟩,
  ⟨"JavascriptServiceDoubleQuote", .plain, .doubleQuote, call "\\$translate" '"'⟩,
  ⟨"JavascriptServiceInstantSimpleQuote", .plain, .singleQuote,
    call "\\$translate\\.instant" '\''⟩,
  ⟨"JavascriptServiceInstantDoubleQuote", .plain, .doubleQuote,
    call "\\$translate\\.instant" '"'⟩,
  ⟨"JavascriptFilterSimpleQuote", .plain, .singleQuote, call (filterFunction filter '\'') '\''⟩,
  ⟨"JavascriptFilterDoubleQuote", .plain, .doubleQuote, call (filterFunction filter '"') '"'⟩]

/-- The built-in patterns, in order, the delimiters and the name of the filter being literal
text. -/
def sources (start stop filter : String) : List Source :=
  sourcesOf (Regex.escaped start) (Regex.escaped stop) (Regex.escaped filter)

end Catalog.Written

end KeyHarvest
