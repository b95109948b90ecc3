/-!
# Floating point numbers of double precision

A finite double is a sign, a significand below `2 ^ 53` and a power of two. Each operation
computes the exact quotient of two natural numbers and rounds it once, to the nearest double, a
tie going to the even significand. Equal values have equal representations, but for the two zeros.
-/

namespace KeyHarvest

/-- The quotient rounded to the nearest integer, a tie going to the even one. -/
def roundDiv (num den : Nat) : Nat :=
  let down := num / den
  let twice := 2 * (num % den)
  if twice < den then down
  else if den < twice then down + 1
  else down + down % 2

/-- A quotient within half a unit: rounding moves it by at most half of the divisor. -/
theorem roundDiv_within (num den : Nat) (h : 0 < den) :
    2 * num ≤ 2 * (roundDiv num den * den) + den ∧
      2 * (roundDiv num den * den) ≤ 2 * num + den := by
  have hsplit := Nat.div_add_mod num den
  have hlt := Nat.mod_lt num h
  have hcomm : num / den * den = den * (num / den) := Nat.mul_comm _ _
  have hnext : (num / den + 1) * den = den * (num / den) + den := by
    rw [Nat.add_mul, Nat.one_mul, hcomm]
  unfold roundDiv
  simp only
  split
  · omega
  · split
    · omega
    · rcases Nat.mod_two_eq_zero_or_one (num / den) with hp | hp <;> rw [hp]
      · rw [Nat.add_zero]; omega
      · omega

/-- A finite double: `significand · 2 ^ exponent` under a sign. The exponent is at least `-1074`
and as small as a significand of 53 bits allows. -/
structure Double where
  /-- Whether the sign is minus. -/
  negative : Bool
  /-- The significand, below `2 ^ 53`. -/
  significand : Nat
  /-- The power of two, from `-1074` to `971`. -/
  exponent : Int
  deriving DecidableEq, Repr

namespace Double

/-- Zero with a plus sign. -/
def zero : Double := ⟨false, 0, -1074⟩

instance : Inhabited Double := ⟨zero⟩

/-- Divide by a power of two, as a quotient of natural numbers. -/
def scaled (num den : Nat) (power : Int) : Nat × Nat :=
  if 0 ≤ power then (num, den * Nat.pow 2 power.toNat)
  else (num * Nat.pow 2 (-power).toNat, den)

/-- The double nearest to a quotient, `none` when that is beyond the largest finite one. -/
def ofRatio (num den : Nat) : Option Double :=
  if num = 0 then some zero
  else
    let guess : Int := (num.log2 : Int) - den.log2 - 52
    let (n, d) := scaled num den guess
    let power := max (if n / d < Nat.pow 2 52 then guess - 1 else guess) (-1074)
    let (n, d) := scaled num den power
    let m := roundDiv n d
    let (m, power) := if m = Nat.pow 2 53 then (Nat.pow 2 52, power + 1) else (m, power)
    if 971 < power then none else some ⟨false, m, power⟩

/-- The double nearest to a natural number. -/
def ofNat? (n : Nat) : Option Double :=
  ofRatio n 1

/-- The magnitude as a quotient of natural numbers. -/
def toRatio (x : Double) : Nat × Nat :=
  if 0 ≤ x.exponent then (x.significand * Nat.pow 2 x.exponent.toNat, 1)
  else (x.significand, Nat.pow 2 (-x.exponent).toNat)

/-- Whether one magnitude is below another. -/
def below (x y : Double) : Bool :=
  x.toRatio.1 * y.toRatio.2 < y.toRatio.1 * x.toRatio.2

/-- The double nearest to the sum of two magnitudes. -/
def add? (x y : Double) : Option Double :=
  let (n, d) := x.toRatio
  let (n', d') := y.toRatio
  ofRatio (n * d' + n' * d) (d * d')

/-- The double nearest to the product of two magnitudes. -/
def mul? (x y : Double) : Option Double :=
  let (n, d) := x.toRatio
  let (n', d') := y.toRatio
  ofRatio (n * n') (d * d')

/-- The double nearest to the quotient of two magnitudes, zero when dividing by zero. -/
def div? (x y : Double) : Option Double :=
  let (n, d) := x.toRatio
  let (n', d') := y.toRatio
  if n' = 0 then some zero else ofRatio (n * d') (d * n')

/-- The double under the given sign. -/
def withSign (x : Double) (negative : Bool) : Double :=
  { x with negative }

end Double

end KeyHarvest
