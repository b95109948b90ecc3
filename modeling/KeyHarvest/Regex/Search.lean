import KeyHarvest.Regex.Match

/-!
# Successive matches

The matches of an expression in a text are found from left to right. Each begins at or after the
end of the one before, and an empty match does not begin right at that end.
-/

namespace KeyHarvest

/-- A match in a text. -/
structure Match where
  /-- The number of characters before the match. -/
  start : Nat
  /-- The number of characters before the end of the match. -/
  stop : Nat
  /-- What the groups matched, the latest first. -/
  captures : List Capture
  deriving DecidableEq, Repr

namespace Match

/-- The text that a group matched last, if it took part in the match. -/
def group? (m : Match) (i : Nat) : Option (List Char) :=
  (m.captures.find? (·.index == i)).map fun g ↦ g.start.take g.length

/-- The text that a group matched last, empty if it took no part in the match. -/
def group (m : Match) (i : Nat) : List Char :=
  (m.group? i).getD []

end Match

namespace Regex

/-- The match at a place, unless it is empty and begins where the last match ended. -/
def freshMatch (r : Regex) (last : Option Nat) (c : Cursor) : Option Match :=
  match r.matchAt c with
  | none => none
  | some s =>
    if s.cursor.position = c.position ∧ last = some c.position then none
    else some ⟨c.position, s.cursor.position, s.captures⟩

/-- The matches that begin in the rest of a text, `last` being the end of the match before them.
Places inside that match are passed over. -/
def matchesFrom (r : Regex) (last : Option Nat) (before : Option Char) (position : Nat) :
    List Char → List Match
  | [] =>
    if last.any (position < ·) then [] else (r.freshMatch last ⟨before, position, []⟩).toList
  | c :: cs =>
    if last.any (position < ·) then matchesFrom r last (some c) (position + 1) cs
    else
      match r.freshMatch last ⟨before, position, c :: cs⟩ with
      | none => matchesFrom r last (some c) (position + 1) cs
      | some m => m :: matchesFrom r (some m.stop) (some c) (position + 1) cs

/-- The successive matches of an expression in a text. -/
def allMatches (r : Regex) (text : List Char) : List Match :=
  r.matchesFrom none none 0 text

end Regex

end KeyHarvest
