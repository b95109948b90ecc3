import KeyHarvest.Decimal.Binary64

/-!
# Decimals with one place

A share in percent is shown with one decimal place. The exact value of the double is rounded, and
a tie goes to the even digit.
-/

namespace KeyHarvest

/-- The number of tenths nearest to a double's magnitude. -/
def Double.tenths (x : Double) : Nat :=
  let (num, den) := x.toRatio
  roundDiv (num * 10) den

/-- A number of tenths with its decimal point. -/
def tenthsText (n : Nat) : String :=
  Nat.repr (n / 10) ++ "." ++ Nat.repr (n % 10)

/-- The double nearest to a natural number, the largest finite one standing for all beyond. -/
def Double.ofNat (n : Nat) : Double :=
  (Double.ofNat? n).getD ⟨false, Nat.pow 2 53 - 1, 971⟩

/-- A part of a whole in percent, as a double: the part is multiplied by one hundred before the
division, and a part of nothing is zero. -/
def percent (part whole : Nat) : Double :=
  if whole = 0 then .zero
  else
    let hundredfold := ((Double.ofNat part).mul? (Double.ofNat 100)).getD .zero
    (hundredfold.div? (Double.ofNat whole)).getD .zero

end KeyHarvest
