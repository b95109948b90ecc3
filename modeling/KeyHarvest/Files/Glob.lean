/-!
# Glob patterns

A glob pattern is a text with wildcards: `?` stands for one character, `*` for any number, brackets
for one of some characters, and `**` as a whole piece for any number of pieces. Wildcards stand for
slashes and leading dots too, and case counts.

`Glob.parse` reads a pattern, and `Glob.accepts` says whether a text matches it as a whole.
-/

namespace KeyHarvest

namespace Glob

/-- An element between brackets. -/
inductive Element where
  | single (c : Char)
  | range (low high : Char)
  deriving DecidableEq, Repr

/-- A part of a pattern. -/
inductive Token where
  | char (c : Char)
  /-- One character. -/
  | anyChar
  /-- Any number of characters. -/
  | anySequence
  /-- Any number of whole pieces. -/
  | anyPieces
  /-- A character that is among some. -/
  | within (elements : List Element)
  /-- A character that is not among some. -/
  | without (elements : List Element)
  deriving DecidableEq, Repr

/-- What is wrong with a pattern. -/
inductive Flaw where
  | tooManyStars
  | notWholePiece
  | badBrackets
  deriving DecidableEq, Repr

/-- Why a text is no pattern. -/
structure PatternError where
  /-- The number of characters before the place of the error. -/
  position : Nat
  /-- What is wrong there. -/
  flaw : Flaw
  deriving DecidableEq, Repr

/-- The words for a flaw. -/
def Flaw.phrase : Flaw → String
  | .tooManyStars => "wildcards are either regular `*` or recursive `**`"
  | .notWholePiece => "recursive wildcards must form a single path component"
  | .badBrackets => "invalid range pattern"

/-- The words of an error. -/
def PatternError.message (e : PatternError) : String :=
  "Pattern syntax error near position " ++ Nat.repr e.position ++ ": " ++ e.flaw.phrase

/-- The elements of a text between brackets; a hyphen between two characters makes a range. -/
def elements : List Char → List Element
  | [] => []
  | a :: '-' :: b :: rest => .range a b :: elements rest
  | a :: rest => .single a :: elements rest

/-- The token of the brackets that a text begins with, and the text after them. The first character
between them may be a closing bracket. -/
def brackets? : List Char → Option (Token × List Char)
  | '[' :: '!' :: first :: rest =>
    if rest.contains ']' then
      some (.without (elements (first :: rest.takeWhile (· != ']'))),
        (rest.dropWhile (· != ']')).drop 1)
    else none
  | '[' :: first :: rest =>
    if first = '!' then none
    else if rest.contains ']' then
      some (.within (elements (first :: rest.takeWhile (· != ']'))),
        (rest.dropWhile (· != ']')).drop 1)
    else none
  | _ => none

/-- Add a token for whole pieces, unless the tokens before it end in one already. -/
def addPieces (tokens : List Token) : List Token :=
  match tokens with
  | .anyPieces :: _ :: _ => tokens
  | _ => .anyPieces :: tokens

/-- Read tokens from the front of a text, `before` being the character before it, `position` the
number of characters before it, and `sofar` the tokens read, last first. -/
def tokensFrom : Nat → Option Char → Nat → List Token → List Char →
    Except PatternError (List Token)
  | 0, _, _, sofar, _ => .ok sofar.reverse
  | fuel + 1, before, position, sofar, cs =>
    match cs with
    | [] => .ok sofar.reverse
    | '?' :: rest => tokensFrom fuel (some '?') (position + 1) (.anyChar :: sofar) rest
    | '*' :: _ =>
      let stars := (cs.takeWhile (· == '*')).length
      let rest := cs.drop stars
      if 2 < stars then .error ⟨position + 2, .tooManyStars⟩
      else if stars = 2 then
        if before = none ∨ before = some '/' then
          match rest with
          | [] => .ok (addPieces sofar).reverse
          | '/' :: rest => tokensFrom fuel (some '/') (position + 3) (addPieces sofar) rest
          | _ => .error ⟨position + 2, .notWholePiece⟩
        else .error ⟨position - 1, .notWholePiece⟩
      else tokensFrom fuel (some '*') (position + 1) (.anySequence :: sofar) rest
    | '[' :: _ =>
      match brackets? cs with
      | none => .error ⟨position, .badBrackets⟩
      | some (token, rest) =>
        tokensFrom fuel (some ']') (position + (cs.length - rest.length)) (token :: sofar) rest
    | c :: rest => tokensFrom fuel (some c) (position + 1) (.char c :: sofar) rest

end Glob

/-- A glob pattern. -/
structure Glob where
  /-- Its parts. -/
  tokens : List Glob.Token
  deriving DecidableEq, Repr

namespace Glob

/-- The pattern that a text writes. -/
def parse (text : String) : Except PatternError Glob :=
  (tokensFrom (text.length + 1) none 0 [] text.toList).map Glob.mk

/-- Whether a character is an element between brackets. -/
def Element.accepts : Element → Char → Bool
  | .single a, c => c == a
  | .range low high, c => low ≤ c && c ≤ high

/-- The text itself and all its ends. -/
def suffixes : List Char → List (List Char)
  | [] => [[]]
  | c :: cs => (c :: cs) :: suffixes cs

/-- The ends of a text after each of its slashes. -/
def afterSlashes : List Char → List (List Char)
  | [] => []
  | c :: cs => if c = '/' then cs :: afterSlashes cs else afterSlashes cs

/-- Whether a token that stands for one character stands for the given one. -/
def Token.takes : Token → Char → Bool
  | .char a, c => c == a
  | .anyChar, _ => true
  | .within es, c => es.any (·.accepts c)
  | .without es, c => !es.any (·.accepts c)
  | .anySequence, _ | .anyPieces, _ => false

/-- Whether tokens match a text as a whole. -/
def matchTokens : List Token → List Char → Bool
  | [], cs => cs.isEmpty
  | .anySequence :: ts, cs => (suffixes cs).any (matchTokens ts)
  | .anyPieces :: ts, cs => (cs :: afterSlashes cs ++ [[]]).any (matchTokens ts)
  | t :: ts, cs =>
    match cs with
    | [] => false
    | c :: rest => t.takes c && matchTokens ts rest

/-- Whether a text matches a pattern. -/
def accepts (g : Glob) (text : String) : Bool :=
  matchTokens g.tokens text.toList

/-- Whether a pattern is a single wildcard for whole pieces, or has one. -/
def isRecursive (g : Glob) : Bool :=
  g.tokens.contains .anyPieces

/-- The text of a pattern without wildcards. -/
def literal? (g : Glob) : Option String :=
  (g.tokens.mapM fun (t : Token) ↦
    match t with
    | .char c => some c
    | _ => none).map String.ofList

/-- Whether an entry of settings is a pattern and not a path: it has a star or a question mark. -/
def hasWildcard (text : String) : Bool :=
  text.toList.any fun c ↦ c == '*' || c == '?'

end Glob

end KeyHarvest
