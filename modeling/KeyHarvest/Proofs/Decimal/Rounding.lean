import KeyHarvest.Decimal.Fixed
import Mathlib.Algebra.Order.Field.Power
import Mathlib.Algebra.Order.Ring.Rat
import Mathlib.Tactic.FieldSimp
import Mathlib.Tactic.GCongr
import Mathlib.Tactic.Linarith
import Mathlib.Tactic.NormNum
import Mathlib.Tactic.Positivity
import Mathlib.Tactic.Ring

/-!
# Rounding errors

A quotient of natural numbers is rounded to a double that differs from it by at most a part in
`2 ^ 53` and half of the least double (`abs_value_ofRatio_sub_le`). Three such roundings make up a
share in percent, so the share of a part in the whole is shown with at most `100.0`
(`tenths_percent_le`).
-/

namespace KeyHarvest

private theorem abs_roundDiv_sub_le (num : Nat) {den : Nat} (h : 0 < den) :
    |(roundDiv num den : ℚ) - num / den| ≤ 1 / 2 := by
  have hd : (0 : ℚ) < den := by exact_mod_cast h
  obtain ⟨hlow, hhigh⟩ := roundDiv_within num den h
  have hlow' : 2 * (num : ℚ) ≤ 2 * (roundDiv num den * den) + den := by exact_mod_cast hlow
  have hhigh' : 2 * ((roundDiv num den : ℚ) * den) ≤ 2 * num + den := by exact_mod_cast hhigh
  rw [abs_le]
  constructor
  · rw [neg_le_sub_iff_le_add, div_le_iff₀ hd]
    linarith
  · rw [sub_le_iff_le_add, ← sub_le_iff_le_add', le_div_iff₀ hd]
    linarith

namespace Double

/-- The magnitude of a double. -/
def value (x : Double) : ℚ :=
  x.significand * 2 ^ x.exponent

private theorem value_nonneg (x : Double) : 0 ≤ x.value := by
  rw [value]
  positivity

private theorem den_toRatio_pos (x : Double) : 0 < x.toRatio.2 := by
  rw [toRatio]
  split
  · exact Nat.one_pos
  · exact Nat.pow_pos Nat.two_pos

/-- The quotient that a double is read as is its magnitude. -/
theorem toRatio_eq_value (x : Double) : (x.toRatio.1 : ℚ) / x.toRatio.2 = x.value := by
  rw [toRatio, value]
  split
  · next h =>
    have hpow : (2 : ℚ) ^ x.exponent = 2 ^ x.exponent.toNat := by
      rw [← zpow_natCast, Int.toNat_of_nonneg h]
    rw [hpow]
    simp
  · next h =>
    have hpow : (2 : ℚ) ^ x.exponent = (2 ^ (-x.exponent).toNat)⁻¹ := by
      rw [← zpow_natCast, Int.toNat_of_nonneg (by omega), zpow_neg, inv_inv]
    rw [hpow, ← div_eq_mul_inv]
    simp

private theorem den_scaled_pos (num : Nat) {den : Nat} (h : 0 < den) (power : Int) :
    0 < (scaled num den power).2 := by
  rw [scaled]
  split
  · exact Nat.mul_pos h (Nat.pow_pos Nat.two_pos)
  · exact h

/-- Scaling divides a quotient by a power of two. -/
theorem scaled_eq (num den : Nat) (power : Int) :
    ((scaled num den power).1 : ℚ) / (scaled num den power).2 = num / den / 2 ^ power := by
  rw [scaled]
  split
  · next h =>
    have hpow : (2 : ℚ) ^ power = 2 ^ power.toNat := by
      rw [← zpow_natCast, Int.toNat_of_nonneg h]
    rw [hpow]
    simp [div_div]
  · next h =>
    have hpow : (2 : ℚ) ^ power = (2 ^ (-power).toNat)⁻¹ := by
      rw [← zpow_natCast, Int.toNat_of_nonneg (by omega), zpow_neg, inv_inv]
    rw [hpow, div_inv_eq_mul]
    simp [mul_div_right_comm]

/-! ### Significands of 53 bits -/

/-- The first guess of the power of two leaves 52 or 53 bits before the point. -/
theorem guess_bounds {num den : Nat} (hn : num ≠ 0) (hd : 0 < den) :
    (2 : ℚ) ^ 51 < num / den / 2 ^ ((num.log2 : Int) - den.log2 - 52) ∧
      (num : ℚ) / den / 2 ^ ((num.log2 : Int) - den.log2 - 52) < 2 ^ 53 := by
  have hd' : (0 : ℚ) < den := by exact_mod_cast hd
  have hnlow : (2 : ℚ) ^ num.log2 ≤ num := by exact_mod_cast Nat.log2_self_le hn
  have hnhigh : (num : ℚ) < 2 ^ (num.log2 + 1) := by exact_mod_cast Nat.lt_log2_self
  have hdlow : (2 : ℚ) ^ den.log2 ≤ den := by exact_mod_cast Nat.log2_self_le hd.ne'
  have hdhigh : (den : ℚ) < 2 ^ (den.log2 + 1) := by exact_mod_cast Nat.lt_log2_self
  have hpow : (2 : ℚ) ^ ((num.log2 : Int) - den.log2 - 52) =
      2 ^ num.log2 / 2 ^ den.log2 / 2 ^ 52 := by
    rw [zpow_sub₀ two_ne_zero, zpow_sub₀ two_ne_zero, zpow_natCast, zpow_natCast]
    rfl
  have hpos : (0 : ℚ) < 2 ^ num.log2 / 2 ^ den.log2 / 2 ^ 52 := by positivity
  rw [hpow, lt_div_iff₀ hpos, lt_div_iff₀ hd', div_lt_iff₀ hpos, div_lt_iff₀ hd']
  constructor
  · calc (2 : ℚ) ^ 51 * (2 ^ num.log2 / 2 ^ den.log2 / 2 ^ 52) * den
        < 2 ^ 51 * (2 ^ num.log2 / 2 ^ den.log2 / 2 ^ 52) * 2 ^ (den.log2 + 1) := by gcongr
      _ = 2 ^ num.log2 := by field_simp; ring
      _ ≤ num := hnlow
  · calc (num : ℚ) < 2 ^ (num.log2 + 1) := hnhigh
      _ = 2 ^ 53 * (2 ^ num.log2 / 2 ^ den.log2 / 2 ^ 52) * 2 ^ den.log2 := by field_simp; ring
      _ ≤ 2 ^ 53 * (2 ^ num.log2 / 2 ^ den.log2 / 2 ^ 52) * den := by gcongr

/-- The power of two that leaves 53 bits before the point. -/
def normalPower (num den : Nat) : Int :=
  let guess : Int := (num.log2 : Int) - den.log2 - 52
  let (n, d) := scaled num den guess
  if n / d < Nat.pow 2 52 then guess - 1 else guess

private theorem normalPower_bounds {num den : Nat} (hn : num ≠ 0) (hd : 0 < den) :
    (2 : ℚ) ^ 52 ≤ num / den / 2 ^ normalPower num den ∧
      (num : ℚ) / den / 2 ^ normalPower num den < 2 ^ 53 := by
  obtain ⟨hlow, hhigh⟩ := guess_bounds hn hd
  rw [normalPower]
  generalize (num.log2 : Int) - den.log2 - 52 = guess at hlow hhigh ⊢
  have hpos := den_scaled_pos num hd guess
  have hpos' : (0 : ℚ) < (scaled num den guess).2 := by exact_mod_cast hpos
  have hsmall : (scaled num den guess).1 / (scaled num den guess).2 < Nat.pow 2 52 ↔
      (num : ℚ) / den / 2 ^ guess < 2 ^ 52 := by
    rw [Nat.div_lt_iff_lt_mul hpos, ← scaled_eq, div_lt_iff₀ hpos']
    exact_mod_cast Iff.rfl
  simp only [hsmall]
  split
  · next h =>
    have hpow : (2 : ℚ) ^ (guess - 1) = 2 ^ guess / 2 := by rw [zpow_sub_one₀ two_ne_zero]; rfl
    have hdouble : (num : ℚ) / den / 2 ^ (guess - 1) = 2 * (num / den / 2 ^ guess) := by
      rw [hpow]
      field_simp
    rw [hdouble]
    constructor <;> linarith
  · next h => exact ⟨not_lt.mp h, hhigh⟩

private theorem roundDiv_scaled_le {num den : Nat} (hn : num ≠ 0) (hd : 0 < den) {power : Int}
    (hp : normalPower num den ≤ power) :
    roundDiv (scaled num den power).1 (scaled num den power).2 ≤ 2 ^ 53 := by
  have herror := (abs_le.mp (abs_roundDiv_sub_le (scaled num den power).1
    (den_scaled_pos num hd power))).2
  rw [scaled_eq] at herror
  have hquotient : (num : ℚ) / den / 2 ^ power ≤ num / den / 2 ^ normalPower num den := by
    gcongr
    norm_num
  have hlt := (normalPower_bounds hn hd).2
  have hcast : (roundDiv (scaled num den power).1 (scaled num den power).2 : ℚ) <
      (2 ^ 53 + 1 : Nat) := by
    push_cast
    linarith
  exact Nat.le_of_lt_succ (by exact_mod_cast hcast)

/-- A quotient other than zero is rounded at its normal power of two, or at the least power of two
if that is greater. The double has 53 bits and is not beyond the largest one. -/
theorem ofRatio_eq_some {num den : Nat} (hn : num ≠ 0) (hd : 0 < den) {x : Double}
    (h : ofRatio num den = some x) :
    let power := max (normalPower num den) (-1074)
    x.value = roundDiv (scaled num den power).1 (scaled num den power).2 * 2 ^ power ∧
      x.significand < 2 ^ 53 ∧ x.exponent ≤ 971 := by
  intro power
  rw [ofRatio, if_neg hn] at h
  have hsplit : (let m := roundDiv (scaled num den power).1 (scaled num den power).2
      let kept := if m = Nat.pow 2 53 then (Nat.pow 2 52, power + 1) else (m, power)
      if 971 < kept.2 then none else some (Double.mk false kept.1 kept.2)) = some x := h
  clear h
  have hm := roundDiv_scaled_le hn hd (le_max_left (normalPower num den) (-1074))
  generalize roundDiv (scaled num den power).1 (scaled num den power).2 = m at hsplit hm ⊢
  simp only at hsplit
  by_cases hfull : m = Nat.pow 2 53
  · -- A significand of 54 bits is halved, and the exponent takes its last bit.
    simp only [if_pos hfull] at hsplit
    split at hsplit
    · cases hsplit
    · next hexponent =>
      cases hsplit
      refine ⟨?_, Nat.pow_lt_pow_right (by decide) (by decide), not_lt.mp hexponent⟩
      rw [value, hfull, zpow_add_one₀ two_ne_zero]
      push_cast
      ring
  · simp only [if_neg hfull] at hsplit
    split at hsplit
    · cases hsplit
    · next hexponent =>
      cases hsplit
      exact ⟨rfl, lt_of_le_of_ne hm hfull, not_lt.mp hexponent⟩

/-! ### Errors -/

/-- The largest double. -/
def largest : Double := ⟨false, Nat.pow 2 53 - 1, 971⟩

/-- A quotient is rounded by at most a part in `2 ^ 53` of it and half of the least double. -/
theorem abs_value_ofRatio_sub_le {num den : Nat} (hd : 0 < den) {x : Double}
    (h : ofRatio num den = some x) :
    |x.value - num / den| ≤ num / den / 2 ^ 53 + 1 / 2 ^ 53 := by
  by_cases hn : num = 0
  · subst hn
    cases h
    simp [value, zero]
  obtain ⟨hvalue, -, -⟩ := ofRatio_eq_some hn hd h
  generalize hpower : max (normalPower num den) (-1074) = power at hvalue
  have hpos : (0 : ℚ) < 2 ^ power := by positivity
  have herror := abs_roundDiv_sub_le (scaled num den power).1 (den_scaled_pos num hd power)
  have hunit : (2 : ℚ) ^ power / 2 ≤ num / den / 2 ^ 53 + 1 / 2 ^ 53 := by
    have hquotient : (0 : ℚ) ≤ num / den := by positivity
    rcases max_choice (normalPower num den) (-1074) with hmax | hmax
    · have hnormal := (normalPower_bounds hn hd).1
      rw [← hmax, hpower, le_div_iff₀ hpos] at hnormal
      linarith
    · have hleast : (2 : ℚ) ^ (-1074 : Int) ≤ 2 ^ (-52 : Int) :=
        zpow_le_zpow_right₀ one_le_two (by decide)
      rw [← hmax, hpower] at hleast
      norm_num at hleast
      linarith
  have hx : x.value - num / den =
      (roundDiv (scaled num den power).1 (scaled num den power).2 - num / den / 2 ^ power) *
        2 ^ power := by
    rw [hvalue]
    field_simp
  rw [hx, abs_mul, abs_of_pos hpos]
  rw [scaled_eq] at herror
  calc _ ≤ 1 / 2 * (2 : ℚ) ^ power := by gcongr
    _ = 2 ^ power / 2 := by ring
    _ ≤ _ := hunit

/-- No double is beyond the largest one. -/
theorem value_ofRatio_le {num den : Nat} (hd : 0 < den) {x : Double}
    (h : ofRatio num den = some x) : x.value ≤ largest.value := by
  by_cases hn : num = 0
  · subst hn
    cases h
    have hzero : zero.value = 0 := by simp [value, zero]
    rw [hzero]
    exact largest.value_nonneg
  obtain ⟨-, hsignificand, hexponent⟩ := ofRatio_eq_some hn hd h
  have hle : x.significand ≤ Nat.pow 2 53 - 1 := Nat.le_sub_one_of_lt hsignificand
  rw [value, value, largest]
  gcongr
  exact one_le_two

/-- The value of zero. -/
@[simp] theorem value_zero : zero.value = 0 := by
  simp [value, zero]

/-- What rounding a quotient gives is at most the quotient and the error, zero standing for what is
beyond the largest double. -/
theorem value_getD_ofRatio_le (num : Nat) {den : Nat} (hd : 0 < den) :
    ((ofRatio num den).getD zero).value ≤ (num : ℚ) / den * (1 + 1 / 2 ^ 53) + 1 / 2 ^ 53 := by
  cases h : ofRatio num den with
  | none =>
    rw [Option.getD_none, value_zero]
    positivity
  | some x =>
    have herror := (abs_le.mp (abs_value_ofRatio_sub_le hd h)).2
    rw [Option.getD_some]
    linarith

private theorem value_mul_le (x y : Double) : ((x.mul? y).getD zero).value ≤
    x.value * y.value * (1 + 1 / 2 ^ 53) + 1 / 2 ^ 53 := by
  have hd := Nat.mul_pos x.den_toRatio_pos y.den_toRatio_pos
  have h := value_getD_ofRatio_le (x.toRatio.1 * y.toRatio.1) hd
  rwa [Nat.cast_mul, Nat.cast_mul, mul_div_mul_comm, toRatio_eq_value, toRatio_eq_value] at h

private theorem value_div_le (x y : Double) : ((x.div? y).getD zero).value ≤
    x.value / y.value * (1 + 1 / 2 ^ 53) + 1 / 2 ^ 53 := by
  have hx := x.value_nonneg
  have hy := y.value_nonneg
  by_cases hn : y.toRatio.1 = 0
  · have hzero : x.div? y = some zero := if_pos hn
    rw [hzero, Option.getD_some, value_zero]
    positivity
  · have hsome : x.div? y = ofRatio (x.toRatio.1 * y.toRatio.2) (x.toRatio.2 * y.toRatio.1) :=
      if_neg hn
    have hd := Nat.mul_pos x.den_toRatio_pos (Nat.pos_of_ne_zero hn)
    have h := value_getD_ofRatio_le (x.toRatio.1 * y.toRatio.2) hd
    rwa [← hsome, Nat.cast_mul, Nat.cast_mul, mul_div_mul_comm, ← inv_div (y.toRatio.1 : ℚ),
      toRatio_eq_value, toRatio_eq_value, ← div_eq_mul_inv] at h

/-! ### Shares in percent -/

private theorem value_ofNat_le_largest (n : Nat) : (Double.ofNat n).value ≤ largest.value := by
  rw [Double.ofNat]
  cases h : ofNat? n with
  | none => exact le_refl _
  | some x => exact value_ofRatio_le Nat.one_pos h

/-- A natural number is rounded to a double not much less, unless it is beyond all doubles. -/
theorem le_value_ofNat {n : Nat} (hn : n ≠ 0) :
    (n : ℚ) * (1 - 1 / 2 ^ 52) ≤ (Double.ofNat n).value ∨ Double.ofNat n = largest := by
  rw [Double.ofNat]
  cases h : ofNat? n with
  | none => exact .inr rfl
  | some x =>
    have hone : (1 : ℚ) ≤ n := by exact_mod_cast Nat.one_le_iff_ne_zero.mpr hn
    have herror := (abs_le.mp (abs_value_ofRatio_sub_le Nat.one_pos h)).1
    rw [Nat.cast_one, div_one] at herror
    refine .inl ?_
    rw [Option.getD_some]
    linarith

/-- Of two numbers the double of the smaller is not much greater than that of the other, unless the
smaller is beyond all doubles. -/
theorem value_ofNat_le {part whole : Nat} (h : part ≤ whole) (hw : whole ≠ 0) :
    (Double.ofNat part).value ≤ (Double.ofNat whole).value * (1 + 1 / 2 ^ 50) ∨
      ofNat? part = none := by
  cases hp : ofNat? part with
  | none => exact .inr rfl
  | some x =>
    refine .inl ?_
    have hle : (part : ℚ) ≤ whole := by exact_mod_cast h
    have hone : (1 : ℚ) ≤ whole := by exact_mod_cast Nat.one_le_iff_ne_zero.mpr hw
    rcases le_value_ofNat hw with hlow | hlargest
    · have herror := (abs_le.mp (abs_value_ofRatio_sub_le Nat.one_pos hp)).2
      rw [Nat.cast_one, div_one] at herror
      rw [Double.ofNat, hp, Option.getD_some]
      linarith
    · have hlargest' := value_ofNat_le_largest part
      have hnonneg := largest.value_nonneg
      rw [hlargest]
      linarith

private theorem tenths_le_of_value_lt {x : Double} {n : Nat} (h : x.value * 10 + 1 / 2 < n + 1) :
    x.tenths ≤ n := by
  have herror := (abs_le.mp (abs_roundDiv_sub_le (x.toRatio.1 * 10) x.den_toRatio_pos)).2
  have hvalue : ((x.toRatio.1 * 10 : Nat) : ℚ) / x.toRatio.2 = x.value * 10 := by
    rw [← toRatio_eq_value]
    push_cast
    ring
  rw [hvalue] at herror
  have hcast : (roundDiv (x.toRatio.1 * 10) x.toRatio.2 : ℚ) < (n + 1 : Nat) := by
    push_cast
    linarith
  exact Nat.le_of_lt_succ (by exact_mod_cast hcast)

private theorem value_ofNat_hundred : (Double.ofNat 100).value = 100 := by
  have h : Double.ofNat 100 = ⟨false, 100 * 2 ^ 46, -46⟩ := by decide +kernel
  rw [h, value]
  norm_num

/-- One hundred times a number that is beyond all doubles is beyond all doubles. -/
theorem mul?_hundred_of_ofNat?_eq_none {n : Nat} (h : ofNat? n = none) :
    (Double.ofNat n).mul? (Double.ofNat 100) = none := by
  have hn : Double.ofNat n = largest := by
    rw [Double.ofNat, h]
    rfl
  rw [hn]
  decide +kernel

private theorem half_le_value_ofNat {n : Nat} (hn : n ≠ 0) : 1 / 2 ≤ (Double.ofNat n).value := by
  have hone : (1 : ℚ) ≤ n := by exact_mod_cast Nat.one_le_iff_ne_zero.mpr hn
  rcases le_value_ofNat hn with hlow | hlargest
  · linarith
  · have hhundred := value_ofNat_le_largest 100
    rw [value_ofNat_hundred] at hhundred
    rw [hlargest]
    linarith

end Double

open Double

/-- The share of a part in the whole is shown with at most one hundred percent. -/
theorem tenths_percent_le {part whole : Nat} (h : part ≤ whole) :
    (percent part whole).tenths ≤ 1000 := by
  apply tenths_le_of_value_lt
  by_cases hw : whole = 0
  · rw [percent, if_pos hw, value_zero]
    norm_num
  have hpercent : percent part whole =
      ((((Double.ofNat part).mul? (Double.ofNat 100)).getD zero).div?
        (Double.ofNat whole)).getD zero := if_neg hw
  have hquotient := value_div_le (((Double.ofNat part).mul? (Double.ofNat 100)).getD zero)
    (Double.ofNat whole)
  rw [← hpercent] at hquotient
  rcases value_ofNat_le h hw with hle | hnone
  · have hproduct := value_mul_le (Double.ofNat part) (Double.ofNat 100)
    have hwhole := half_le_value_ofNat hw
    rw [value_ofNat_hundred] at hproduct
    have hshare : (((Double.ofNat part).mul? (Double.ofNat 100)).getD zero).value /
        (Double.ofNat whole).value ≤ 100 + 1 / 2 ^ 10 := by
      rw [div_le_iff₀ (by linarith)]
      linarith
    norm_num
    linarith
  · rw [mul?_hundred_of_ofNat?_eq_none hnone, Option.getD_none, value_zero, zero_div] at hquotient
    norm_num
    linarith

end KeyHarvest
