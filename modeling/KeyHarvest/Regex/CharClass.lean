import KeyHarvest.Text.Blank
import KeyHarvest.Text.CaseFolding
import KeyHarvest.Text.Category

/-!
# Classes of characters

A class is a description of a set of characters, built from single characters, ranges and
properties by union, intersection, complement and closure under case. `mem` decides membership by
recursion on the description, so the laws of sets hold by unfolding.
-/

namespace KeyHarvest

/-- A set of characters. -/
inductive CharClass where
  /-- No character. -/
  | none
  /-- Every character. -/
  | any
  /-- One character. -/
  | single (c : Char)
  /-- The characters equal to one up to case. -/
  | like (c : Char)
  /-- The characters from one code point to another. -/
  | range (low high : Nat)
  /-- The blank characters. -/
  | blank
  /-- The decimal digits of all scripts. -/
  | digit
  /-- The characters of words. -/
  | wordChar
  /-- The alphabetic characters. -/
  | alphabetic
  /-- The characters of one general category. -/
  | category (k : Text.Category)
  | union (a b : CharClass)
  | inter (a b : CharClass)
  | compl (a : CharClass)
  /-- The characters equal up to case to one of the class. -/
  | folded (a : CharClass)
  deriving DecidableEq, Repr

namespace CharClass

/-- Whether a character belongs to a class. -/
def mem : CharClass → Char → Bool
  | .none, _ => false
  | .any, _ => true
  | .single c, x => x == c
  | .like c, x => Text.sameFold x c
  | .range low high, x => low ≤ x.toNat && x.toNat ≤ high
  | .blank, x => Text.isBlank x
  | .digit, x => Text.isDecimalDigit x
  | .wordChar, x => Text.isWordChar x
  | .alphabetic, x => Text.isAlphabetic x
  | .category k, x => Text.category x == k
  | .union a b, x => a.mem x || b.mem x
  | .inter a b, x => a.mem x && b.mem x
  | .compl a, x => !a.mem x
  | .folded a, x => (Text.orbit x).any a.mem

/-- The characters of the first class outside the second. -/
def diff (a b : CharClass) : CharClass :=
  .inter a (.compl b)

/-- The characters of exactly one of two classes. -/
def symmDiff (a b : CharClass) : CharClass :=
  .union (a.diff b) (b.diff a)

/-- The characters of any of some classes. -/
def unions (classes : List CharClass) : CharClass :=
  classes.foldr .union .none

/-- The characters listed. -/
def ofList (cs : List Char) : CharClass :=
  unions (cs.map .single)

end CharClass

end KeyHarvest
