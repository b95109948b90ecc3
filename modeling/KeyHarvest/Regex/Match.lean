import KeyHarvest.Regex.Basic

/-!
# Matching at a place

`Regex.run` tries an expression at a place of a text and hands each state it can end in, most
preferred first, to a continuation, until the continuation accepts one. Preference is thus the
order of trying, and `run` is defined by recursion on the expression.

A repetition goes on only from a place beyond where it last began, so it ends. Its first round may
match the empty text.
-/

namespace KeyHarvest

/-- A place in a text. -/
structure Cursor where
  /-- The character before the place. -/
  before : Option Char
  /-- The number of characters before the place. -/
  position : Nat
  /-- The text from the place on. -/
  rest : List Char
  deriving DecidableEq, Repr

/-- What a group matched: the text from its start on, and how much of it. -/
structure Capture where
  /-- The number of the group. -/
  index : Nat
  /-- The text from the start of the group on. -/
  start : List Char
  /-- The number of characters matched. -/
  length : Nat
  deriving DecidableEq, Repr

/-- A place, with the captures so far, the latest first. -/
structure MatchState where
  /-- The place. -/
  cursor : Cursor
  /-- The captures so far. -/
  captures : List Capture
  deriving DecidableEq, Repr

/-- The first character of the text at a place. -/
def Cursor.after (c : Cursor) : Option Char :=
  c.rest.head?

/-- Whether the characters next to a place are of a class. -/
def Cursor.besides (c : Cursor) (s : CharClass) : Bool × Bool :=
  ((c.before.map s.mem).getD false, (c.after.map s.mem).getD false)

/-- Whether an assertion holds at a place. -/
def Assertion.holds : Assertion → Cursor → Bool
  | .textStart, c => c.before.isNone
  | .textEnd, c => c.after.isNone
  | .lineStart crlf, c =>
    match c.before with
    | none => true
    | some b => b == '\n' || (crlf && b == '\r' && c.after != some '\n')
  | .lineEnd crlf, c =>
    match c.after with
    | none => true
    | some a => if crlf then a == '\r' || (a == '\n' && c.before != some '\r') else a == '\n'
  | .wordBoundary word, c => let (b, a) := c.besides word; b != a
  | .noWordBoundary word, c => let (b, a) := c.besides word; b == a
  | .wordStart word, c => let (b, a) := c.besides word; !b && a
  | .wordEnd word, c => let (b, a) := c.besides word; b && !a
  | .wordStartHalf word, c => !(c.besides word).1
  | .wordEndHalf word, c => !(c.besides word).2

/-- Further rounds of a repetition after one that has moved on, `fuel` bounding their number. -/
def furtherRounds {β : Type} (round : MatchState → (MatchState → Option β) → Option β)
    (greedy : Bool) (k : MatchState → Option β) : Nat → MatchState → Option β
  | 0, s => k s
  | fuel + 1, s =>
    let onward := fun (_ : Unit) ↦ round s fun t ↦
      if t.cursor.position = s.cursor.position then none
      else furtherRounds round greedy k fuel t
    if greedy then
      match onward () with
      | some result => some result
      | none => k s
    else
      match k s with
      | some result => some result
      | none => onward ()

namespace Regex

/-- Try an expression at a state, and continue from the first end that the continuation accepts. -/
def run {β : Type} : Regex → MatchState → (MatchState → Option β) → Option β
  | .empty, s, k => k s
  | .set p, s, k =>
    match s.cursor.rest with
    | [] => none
    | c :: rest =>
      if p.mem c then k { s with cursor := ⟨some c, s.cursor.position + 1, rest⟩ } else none
  | .look a, s, k => if a.holds s.cursor then k s else none
  | .seq a b, s, k => a.run s fun t ↦ b.run t k
  | .alt a b, s, k =>
    match a.run s k with
    | some result => some result
    | none => b.run s k
  | .plus greedy r, s, k =>
    r.run s fun t ↦
      if t.cursor.position = s.cursor.position then k t
      else furtherRounds r.run greedy k t.cursor.rest.length t
  | .group i r, s, k =>
    r.run s fun t ↦
      k { t with
        captures := ⟨i, s.cursor.rest, t.cursor.position - s.cursor.position⟩ :: t.captures }

/-- The preferred match of an expression at a place. -/
def matchAt (r : Regex) (c : Cursor) : Option MatchState :=
  r.run ⟨c, []⟩ some

end Regex

end KeyHarvest
