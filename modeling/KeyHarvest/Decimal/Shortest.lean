import KeyHarvest.Decimal.Binary64

/-!
# The shortest decimal of a double

A double is printed with the fewest digits that read back as the same double, and among those with
the digits nearest to it. The reals that round to a double form an interval around it; for one to
seventeen digits, the two decimals next to the double on the grid of that many digits are tried,
and the first grid with one of them in the interval wins.
-/

namespace KeyHarvest

/-- The decimal `digits · 10 ^ exponent`. -/
structure Decimal where
  /-- The digits, without trailing zeros unless the number is zero. -/
  digits : Nat
  /-- The power of ten. -/
  exponent : Int
  deriving DecidableEq, Repr

namespace Double

/-- Compare `a · 10 ^ power` with a quotient. -/
def compareDecimal (a : Nat) (power : Int) (num den : Nat) : Ordering :=
  if 0 ≤ power then compare (a * Nat.pow 10 power.toNat * den) num
  else compare (a * den) (num * Nat.pow 10 (-power).toNat)

/-- Four times the significand of the ends of the interval that rounds to a double, and whether
the ends themselves do. The lower end is nearer below a power of two. -/
def ends (x : Double) : Nat × Nat × Bool :=
  let m := x.significand
  let low := if m = Nat.pow 2 52 ∧ -1074 < x.exponent then 4 * m - 1 else 4 * m - 2
  (low, 4 * m + 2, m % 2 == 0)

/-- Whether a decimal rounds to the double. -/
def readsBack (x : Double) (a : Nat) (power : Int) : Bool :=
  let (low, high, closed) := x.ends
  let quotient (m : Nat) : Nat × Nat := toRatio ⟨false, m, x.exponent - 2⟩
  let aboveLow := compareDecimal a power (quotient low).1 (quotient low).2
  let belowHigh := compareDecimal a power (quotient high).1 (quotient high).2
  (aboveLow == .gt || (closed && aboveLow == .eq)) &&
    (belowHigh == .lt || (closed && belowHigh == .eq))

/-- The decimal on the grid of a power of ten that stands for the double: of its two neighbours
the one that reads back, of two such the nearer one, on a tie the even one. -/
def onGrid (x : Double) (power : Int) : Option Decimal :=
  let (num, den) := x.toRatio
  let (n, d) :=
    if 0 ≤ power then (num, den * Nat.pow 10 power.toNat)
    else (num * Nat.pow 10 (-power).toNat, den)
  let near := roundDiv n d
  let far := if near = n / d then near + 1 else n / d
  if near ≠ 0 ∧ x.readsBack near power then some ⟨near, power⟩
  else if far ≠ 0 ∧ x.readsBack far power then some ⟨far, power⟩
  else none

/-- The greatest power of ten, from `start` down, that is at most the double. -/
def topPower (x : Double) (start : Int) : Nat → Int
  | 0 => start
  | fuel + 1 =>
    let (num, den) := x.toRatio
    if compareDecimal 1 start num den == .gt then topPower x (start - 1) fuel else start

/-- Drop the trailing zeros of the digits of a decimal. -/
def stripZeros (a : Nat) (power : Int) : Nat → Decimal
  | 0 => ⟨a, power⟩
  | fuel + 1 =>
    if a ≠ 0 ∧ a % 10 = 0 then stripZeros (a / 10) (power + 1) fuel else ⟨a, power⟩

/-- The shortest decimal that reads back as the double. -/
def shortest (x : Double) : Decimal :=
  if x.significand = 0 then ⟨0, 0⟩
  else
    let estimate : Int := ((x.significand.log2 : Int) + x.exponent) * 30103 / 100000 + 2
    let top := x.topPower estimate 8
    let grids := (List.range 17).map fun (i : Nat) ↦ top - (i : Int)
    match grids.findSome? x.onGrid with
    | some a => stripZeros a.digits a.exponent 17
    | none => ⟨0, 0⟩

end Double

end KeyHarvest
