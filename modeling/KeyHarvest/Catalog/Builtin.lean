import KeyHarvest.Catalog.Pattern

/-!
# The built-in patterns

Fifteen patterns find keys in templates and scripts: in marked string literals, in interpolations
that apply the translation filter, in the translation directive with and without a plural literal,
and in calls of the translation service. Delimiters and the name of the filter are literal text;
case never counts.

The order of the patterns matters, for of two matches of one key the later decides its default
text: the plural patterns stand after the directive that they overlap with.
-/

namespace KeyHarvest.Catalog.Builtin

open Regex (literal concat star optional)

/-- Any number of blanks. -/
def blanks : Regex := star true (.set .blank)

/-- Any character but a line break. -/
def inLine : Regex := .set (.compl (.single '\n'))

/-- Any number of characters that are none of the given ones. -/
def noneOf (cs : List Char) : Regex := star true (.set (.compl (CharClass.ofList cs)))

/-- The text of a string literal between its quotes, under a group number: escapes, and characters
other than the quote and the backslash. -/
def body (quote : Char) (index : Nat) : Regex :=
  .group index (star true (.alt (.seq (literal ['\\']) inLine)
    (.set (.compl (CharClass.ofList [quote, '\\'])))))

/-- A string literal. -/
def quotedBody (quote : Char) (index : Nat) : Regex :=
  concat [literal [quote], body quote index, literal [quote]]

/-- The arguments of a filter. -/
def filterArguments : Regex :=
  optional true (.group 2 (.seq (literal [':']) (star false inLine)))

/-- The text of a string as an expression. -/
def text (s : String) : Regex := literal s.toList

/-- A string literal after a marking comment. -/
def comment (quote : Char) : Regex :=
  concat [text "/*", blanks, text "i18nextract", blanks, text "*/", quotedBody quote 1]

/-- An interpolation that filters a string literal. -/
def htmlFilter (start stop filter : String) (quote : Char) : Regex :=
  concat [text start, blanks, quotedBody quote 1, blanks, text "|", blanks, text filter,
    filterArguments, blanks, text stop]

/-- An element whose tag holds the directive and whose content is the key. -/
def directive (filter : String) : Regex :=
  concat [text "<", noneOf ['>'], text filter, noneOf ['\x7b', '>'], text ">",
    .group 1 (noneOf ['<']), text "</", noneOf ['>'], text ">"]

/-- An attribute with a value in double quotes. -/
def attributeValue (name : String) (index : Nat) : Regex :=
  concat [text name, text "=", quotedBody '"' index]

/-- The name of the attribute that holds a plural literal. -/
def pluralAttribute : String := "angular-plural-extract"

/-- Two attributes in one line. -/
def attributePair (first second : String) : Regex :=
  concat [attributeValue first 1, star true inLine, attributeValue second 2]

/-- An attribute that binds a filtered string literal. -/
def bindHtml : Regex :=
  concat [text "ng-bind-html=\"", blanks, quotedBody '\'' 1, blanks, text "|", blanks,
    text "translate", filterArguments, blanks, text "\""]

/-- A call with a string literal as its first argument. -/
def call (function : List Regex) (quote : Char) : Regex :=
  concat (function ++ [text "(", blanks, quotedBody quote 1, noneOf [')'], text ")"])

/-- The function that a filter name is looked up to give. -/
def filterFunction (filter : String) (quote : Char) : List Regex :=
  [text "$filter(", blanks, literal [quote], text filter, literal [quote], blanks, text ")", blanks]

/-- The built-in patterns, in order. -/
def patterns (start stop filter : String) : List Pattern := [
  ⟨"commentSimpleQuote", .plain, .singleQuote, comment '\''⟩,
  ⟨"commentDoubleQuote", .plain, .doubleQuote, comment '"'⟩,
  ⟨"HtmlFilterSimpleQuote", .plain, .singleQuote, htmlFilter start stop filter '\''⟩,
  ⟨"HtmlFilterDoubleQuote", .plain, .doubleQuote, htmlFilter start stop filter '"'⟩,
  ⟨"HtmlDirective", .plain, .verbatim, directive filter⟩,
  ⟨"HtmlDirectiveStandalone", .plain, .verbatim, attributeValue filter 1⟩,
  ⟨"HtmlDirectivePluralLast", .pluralLast, .verbatim, attributePair filter pluralAttribute⟩,
  ⟨"HtmlDirectivePluralFirst", .pluralFirst, .verbatim,
    attributePair pluralAttribute "translate"⟩,
  ⟨"HtmlNgBindHtml", .plain, .singleQuote, bindHtml⟩,
  ⟨"JavascriptServiceSimpleQuote", .plain, .singleQuote, call [text "$translate"] '\''⟩,
  ⟨"JavascriptServiceDoubleQuote", .plain, .doubleQuote, call [text "$translate"] '"'⟩,
  ⟨"JavascriptServiceInstantSimpleQuote", .plain, .singleQuote,
    call [text "$translate.instant"] '\''⟩,
  ⟨"JavascriptServiceInstantDoubleQuote", .plain, .doubleQuote,
    call [text "$translate.instant"] '"'⟩,
  ⟨"JavascriptFilterSimpleQuote", .plain, .singleQuote,
    call (filterFunction filter '\'') '\''⟩,
  ⟨"JavascriptFilterDoubleQuote", .plain, .doubleQuote, call (filterFunction filter '"') '"'⟩]

end KeyHarvest.Catalog.Builtin
