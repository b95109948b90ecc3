/-!
# Colours of the report

A text is set in a style by the escape sequence that begins it and the one that ends all styles.
Where the text itself ends all styles, the style is begun anew.
-/

namespace KeyHarvest.Command

/-- A way to set a text. -/
inductive Style where
  | bold
  | boldYellow
  | red
  | green
  | yellow
  | blue
  | cyan
  | dimmed
  deriving DecidableEq, Repr

/-- The sequence that begins a style. -/
def Style.start : Style → String
  | .bold => "\x1b[1m"
  | .boldYellow => "\x1b[1;33m"
  | .red => "\x1b[31m"
  | .green => "\x1b[32m"
  | .yellow => "\x1b[33m"
  | .blue => "\x1b[34m"
  | .cyan => "\x1b[36m"
  | .dimmed => "\x1b[2m"

/-- The sequence that ends all styles. -/
def resetStyles : String := "\x1b[0m"

/-- The text with a style begun anew after each sequence that ends all styles. -/
def resume (start : List Char) : List Char → List Char
  | [] => []
  | c :: cs =>
    if resetStyles.toList.isPrefixOf (c :: cs) then
      c :: resumeAfter start (resetStyles.length - 1) cs
    else c :: resume start cs
where
  /-- Pass over so many characters, then begin the style anew. -/
  resumeAfter (start : List Char) : Nat → List Char → List Char
    | 0, cs => start ++ resume start cs
    | _, [] => start
    | n + 1, c :: cs => c :: resumeAfter start n cs

/-- The text in a style, where colours are shown. -/
def Style.apply (style : Style) (colored : Bool) (text : String) : String :=
  if colored then
    style.start ++ String.ofList (resume style.start.toList text.toList) ++ resetStyles
  else text

end KeyHarvest.Command
