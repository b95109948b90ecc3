import KeyHarvest.Decimal.Binary64

/-!
# Similar texts

The similarity of two texts after Jaro: the mean of the shares of matched characters in either text
and the share of matches in their order. Characters match within half the longer length. The value
is a double, and of two texts with the same mean the way it is rounded decides.
-/

namespace KeyHarvest.Text

/-- Match each character of a text to the first free equal one of another text within reach: for
each character of the first text whether it is matched, and the marks of the second. -/
def matchWithin (reach : Nat) (other : List Char) :
    Nat → List Bool → List Char → List Bool × List Bool
  | _, marks, [] => ([], marks)
  | i, marks, c :: cs =>
    let candidates := (List.range other.length).filter fun j ↦
      i ≤ j + reach && j ≤ i + reach && other[j]? == some c && marks[j]? == some false
    match candidates with
    | [] =>
      let (mine, marks) := matchWithin reach other (i + 1) marks cs
      (false :: mine, marks)
    | j :: _ =>
      let (mine, marks) := matchWithin reach other (i + 1) (marks.set j true) cs
      (true :: mine, marks)

/-- The marked characters of a text. -/
def marked (cs : List Char) (marks : List Bool) : List Char :=
  ((cs.zip marks).filter Prod.snd).map Prod.fst

/-- The similarity of two texts; each quotient and sum on the way is rounded. -/
def similarity? (a b : List Char) : Option Double :=
  if a.isEmpty && b.isEmpty then Double.ofRatio 1 1
  else
    let reach := max a.length b.length / 2 - 1
    let (mine, theirs) := matchWithin reach b 0 (List.replicate b.length false) a
    let mineMarked := marked a mine
    let m := mineMarked.length
    if m = 0 then some .zero
    else do
      let moved := ((mineMarked.zip (marked b theirs)).filter fun (x, y) ↦ x != y).length / 2
      let shares ← (← Double.ofRatio m a.length).add? (← Double.ofRatio m b.length)
      let sum ← shares.add? (← Double.ofRatio (m - moved) m)
      sum.div? (← Double.ofNat? 3)

/-- Put a text with its similarity behind all that are at most as similar. -/
def insertCandidate (x : Double × String) : List (Double × String) → List (Double × String)
  | [] => [x]
  | y :: ys => if x.1.below y.1 then x :: y :: ys else y :: insertCandidate x ys

/-- The texts that are similar to a given one by more than seven tenths, the most similar last. -/
def similarTo (text : String) (others : List String) : List String :=
  let similar := others.filterMap fun other ↦ do
    let score ← similarity? text.toList other.toList
    if (← Double.ofRatio 7 10).below score then some (score, other) else none
  (similar.foldl (fun sorted x ↦ insertCandidate x sorted) []).map Prod.snd

end KeyHarvest.Text
