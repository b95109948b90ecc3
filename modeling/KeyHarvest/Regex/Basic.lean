import KeyHarvest.Regex.CharClass

/-!
# Regular expressions

A regular expression is a tree. Choices are ordered: the first alternative is preferred, and a
greedy repetition prefers to go on. `star`, `optional` and counted repetitions are built from
`plus`, `alt` and `seq`.

A group remembers the text that its expression matched last.
-/

namespace KeyHarvest

/-- A condition on a place in a text. -/
inductive Assertion where
  /-- The start of the text. -/
  | textStart
  /-- The end of the text. -/
  | textEnd
  /-- The start of a line; with `crlf` a carriage return ends lines too. -/
  | lineStart (crlf : Bool)
  /-- The end of a line. -/
  | lineEnd (crlf : Bool)
  /-- A place between a word and no word, the words being made of the given characters. -/
  | wordBoundary (word : CharClass)
  /-- A place within a word or outside words. -/
  | noWordBoundary (word : CharClass)
  /-- The start of a word. -/
  | wordStart (word : CharClass)
  /-- The end of a word. -/
  | wordEnd (word : CharClass)
  /-- A place that no word character precedes. -/
  | wordStartHalf (word : CharClass)
  /-- A place that no word character follows. -/
  | wordEndHalf (word : CharClass)
  deriving DecidableEq, Repr

/-- A regular expression. -/
inductive Regex where
  /-- The empty text. -/
  | empty
  /-- One character of a class. -/
  | set (s : CharClass)
  /-- The empty text where a condition holds. -/
  | look (a : Assertion)
  /-- One expression after another. -/
  | seq (a b : Regex)
  /-- One of two expressions, the first preferred. -/
  | alt (a b : Regex)
  /-- An expression once or more often. -/
  | plus (greedy : Bool) (r : Regex)
  /-- An expression whose text is remembered under a number. -/
  | group (index : Nat) (r : Regex)
  deriving DecidableEq, Repr

namespace Regex

/-- An expression once or not at all. -/
def optional (greedy : Bool) (r : Regex) : Regex :=
  if greedy then .alt r .empty else .alt .empty r

/-- An expression any number of times. -/
def star (greedy : Bool) (r : Regex) : Regex :=
  optional greedy (.plus greedy r)

/-- Expressions one after the other. -/
def concat : List Regex → Regex
  | [] => .empty
  | [r] => r
  | r :: rs => .seq r (concat rs)

/-- Expressions in order of preference. -/
def choice : List Regex → Regex
  | [] => .set .none
  | [r] => r
  | r :: rs => .alt r (choice rs)

/-- An expression up to `n` times, each further time depending on the one before. -/
def atMost (greedy : Bool) (r : Regex) : Nat → Regex
  | 0 => .empty
  | 1 => optional greedy r
  | n + 1 => optional greedy (.seq r (atMost greedy r n))

/-- An expression from `low` to `high` times, without end for `none`. -/
def repeated (greedy : Bool) (r : Regex) (low : Nat) (high : Option Nat) : Regex :=
  match low, high with
  | 0, none => star greedy r
  | low + 1, none => concat (List.replicate low r ++ [.plus greedy r])
  | low, some high =>
    if high ≤ low then concat (List.replicate low r)
    else concat (List.replicate low r ++ [atMost greedy r (high - low)])

/-- The texts equal to a given one up to case. -/
def literal (cs : List Char) : Regex :=
  concat (cs.map fun c ↦ .set (.like c))

/-- The greatest number of a group, zero if there is none. -/
def maxGroup : Regex → Nat
  | .empty | .set _ | .look _ => 0
  | .seq a b | .alt a b => max a.maxGroup b.maxGroup
  | .plus _ r => r.maxGroup
  | .group i r => max i r.maxGroup

end Regex

end KeyHarvest
