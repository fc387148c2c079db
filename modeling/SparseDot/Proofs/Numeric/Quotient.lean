import SparseDot.Proofs.Numeric.Integer

set_option autoImplicit false

/-!
# Quotients and relative errors

A quotient of finite values is rounded once, like a product. In a chain of products and quotients that stays
far from underflow and overflow every rounding adds its share to a relative error, and the shares multiply
up: this module keeps such an error as the factor by which a value may be off. Values also become integers
here, by rounding to the nearest one.

## Main definitions

* `SparseDot.Format.Midrange` — the numbers that are far from underflow and overflow.
* `SparseDot.Binary.Within` — a finite value that is off by a factor at most.

## Main results

* `SparseDot.Binary.rounds_div`, `SparseDot.Binary.near_div` — a quotient is rounded once, and the error of
  that.
* `SparseDot.Binary.Within.mul`, `SparseDot.Binary.within_div`, `SparseDot.Binary.within_ofInt` — the factors of
  a product, a quotient and an integer.
* `SparseDot.Binary.exists_nearestInt` — the nearest integer.
-/

namespace SparseDot

namespace Format

/-- **The numbers that are far from underflow and overflow**, so far that products that are off by half of
them at most are rounded without either. -/
structure Midrange (fmt : Format) (q : ℚ) : Prop where
  underflowError_le : 2 * fmt.underflowError ≤ fmt.unitRoundoff * |q|
  lt_overflowBound : 4 * |q| < fmt.overflowBound

/-- In single precision these are the numbers whose size is between `2 ^ (-125)` and `2 ^ 126`. -/
lemma midrange_single {q : ℚ} (hlow : 2 ^ (-125 : ℤ) ≤ |q|) (hhigh : |q| < 2 ^ 126) :
    single.Midrange q := by
  constructor
  · calc 2 * single.underflowError = single.unitRoundoff * 2 ^ (-125 : ℤ) := by
          rw [unitRoundoff_single, underflowError_single]
          norm_num
      _ ≤ single.unitRoundoff * |q| := mul_le_mul_of_nonneg_left hlow single.unitRoundoff_pos.le
  · calc 4 * |q| < 4 * 2 ^ 126 := by linarith
      _ = single.overflowBound := by
          rw [overflowBound_single]
          norm_num

/-- A coefficient has at least one bit, so one rounding is off by half of the number at most. -/
private lemma unitRoundoff_le_half (fmt : Format) [fmt.Valid] : fmt.unitRoundoff ≤ 1 / 2 := by
  have hp : 0 < fmt.precision := Valid.precision_pos
  calc fmt.unitRoundoff ≤ 2 ^ (-1 : ℤ) := zpow_le_zpow_right₀ (by norm_num) (by omega)
    _ = 1 / 2 := by norm_num

end Format

namespace Binary

open Format

variable {fmt : Format} [fmt.Valid] {x y : Binary fmt}

/-! ## Quotients -/

omit [fmt.Valid] in
/-- **A quotient is rounded once**, from the quotient of the coefficients.

**Proof sketch.** The number of a rank is its coefficient times a power of two. So the quotient is that of the
coefficients times a power of two, with the sign that the two signs make, and this is what the program rounds. -/
theorem rounds_div (hx : x.isFinite) (hy : y.isFinite) (hne : y.toRat ≠ 0) :
    (x / y).Rounds (x.toRat / y.toRat) := by
  cases x with
  | infinity s => cases hx
  | nan => cases hx
  | finite s a ha =>
  cases y with
  | infinity t => cases hy
  | nan => cases hy
  | finite t b hb =>
  have hb₀ : b ≠ 0 := by
    rintro rfl
    simp at hne
  have hcoefficient : 0 < fmt.coefficient b := by
    refine Nat.pos_of_ne_zero fun hzero => hne ?_
    simp [rankValue, hzero]
  have hquot : fmt.rankValue a / fmt.rankValue b =
      fmt.coefficient a / fmt.coefficient b * 2 ^ (fmt.exponent a - fmt.exponent b) := by
    rw [rankValue, rankValue, zpow_sub₀ (by norm_num), mul_div_mul_comm]
  refine ⟨s != t, _, _, _, hcoefficient, ?_, if_neg hb₀⟩
  rw [← hquot, toRat_finite, toRat_finite]
  cases s <;> cases t <;> simp [neg_div, div_neg]

/-- **The error of a quotient.** -/
theorem near_div (hx : x.isFinite) (hy : y.isFinite) (hne : y.toRat ≠ 0)
    (hbound : |x.toRat / y.toRat| +
      (fmt.unitRoundoff * |x.toRat / y.toRat| + fmt.underflowError) < fmt.overflowBound) :
    (x / y).Near (x.toRat / y.toRat)
      (fmt.unitRoundoff * |x.toRat / y.toRat| + fmt.underflowError) :=
  (rounds_div hx hy hne).near hbound

/-! ## Relative errors -/

/-- **A finite value that is off by a factor at most**: the distance to the number is at most the part of it
that the factor adds. -/
structure Within (x : Binary fmt) (q factor : ℚ) : Prop where
  isFinite : x.isFinite
  abs_sub_le : |x.toRat - q| ≤ (factor - 1) * |q|

variable {p q s t : ℚ}

omit [fmt.Valid] in
/-- A larger factor leaves more room. -/
lemma Within.mono (h : x.Within q s) (hst : s ≤ t) : x.Within q t :=
  ⟨h.isFinite, h.abs_sub_le.trans (by gcongr)⟩

/-- Two numbers that are off by factors have a product that is off by the product of the factors. -/
private lemma abs_mul_sub_mul_le {a b : ℚ} (ha : |a - p| ≤ (s - 1) * |p|) (hb : |b - q| ≤ (t - 1) * |q|) :
    |a * b - p * q| ≤ (s * t - 1) * |p * q| := by
  have habs : |a| ≤ s * |p| := by
    have := abs_sub_abs_le_abs_sub a p
    linarith
  have hs : 0 ≤ s * |p| := (abs_nonneg a).trans habs
  calc |a * b - p * q| = |a * (b - q) + (a - p) * q| := by ring_nf
    _ ≤ |a| * |b - q| + |a - p| * |q| := by
      rw [← abs_mul, ← abs_mul]
      exact abs_add_le _ _
    _ ≤ s * |p| * ((t - 1) * |q|) + (s - 1) * |p| * |q| := by gcongr
    _ = (s * t - 1) * |p * q| := by
      rw [abs_mul]
      ring

omit [fmt.Valid] in
/-- **One more rounding**: a value near a number that is off by a factor itself.

**Proof sketch.** The size of the number in between is at most `t` times that of the number. The two errors add up to
what the product of the two factors adds. -/
theorem Near.within {r : ℚ} (hround : x.Near r (2 * fmt.unitRoundoff * |r|))
    (hr : |r - q| ≤ (t - 1) * |q|) : x.Within q (t * (1 + 2 * fmt.unitRoundoff)) := by
  have hu := fmt.unitRoundoff_pos
  have habs : |r| ≤ t * |q| := by
    have := abs_sub_abs_le_abs_sub r q
    linarith
  refine ⟨hround.isFinite, ?_⟩
  calc |x.toRat - q| = |x.toRat - r + (r - q)| := by rw [sub_add_sub_cancel]
    _ ≤ |x.toRat - r| + |r - q| := abs_add_le _ _
    _ ≤ 2 * fmt.unitRoundoff * (t * |q|) + (t - 1) * |q| := by
      refine add_le_add (hround.abs_sub_le.trans ?_) hr
      gcongr
    _ = (t * (1 + 2 * fmt.unitRoundoff) - 1) * |q| := by ring

/-- **The factor of a product** that is far from underflow and overflow.

**Proof sketch.** The exact product of the values is off by the product of the factors. It is at least half of the
product of the numbers and at most one and a half times as large, so it neither underflows nor overflows when it is
rounded. -/
theorem Within.mul (hx : x.Within p s) (hy : y.Within q t) (hmid : fmt.Midrange (p * q))
    (hfactor : s * t ≤ 3 / 2) : (x * y).Within (p * q) (s * t * (1 + 2 * fmt.unitRoundoff)) := by
  have hu := fmt.unitRoundoff_pos
  have hu' := fmt.unitRoundoff_le_half
  have hprod := abs_mul_sub_mul_le hx.abs_sub_le hy.abs_sub_le
  have hhalf : |x.toRat * y.toRat - p * q| ≤ 1 / 2 * |p * q| := by
    refine hprod.trans ?_
    gcongr
    linarith
  have hlow : 1 / 2 * |p * q| ≤ |x.toRat * y.toRat| := by
    have := abs_sub_abs_le_abs_sub (p * q) (x.toRat * y.toRat)
    rw [abs_sub_comm] at this
    linarith
  have hhigh : |x.toRat * y.toRat| ≤ 3 / 2 * |p * q| := by
    have := abs_sub_abs_le_abs_sub (x.toRat * y.toRat) (p * q)
    linarith
  have hnormal : fmt.underflowError ≤ fmt.unitRoundoff * |x.toRat * y.toRat| := by
    have := mul_le_mul_of_nonneg_left hlow hu.le
    linarith [hmid.underflowError_le]
  have hround : fmt.unitRoundoff * |x.toRat * y.toRat| ≤ 1 / 2 * |x.toRat * y.toRat| := by gcongr
  have hmul := near_mul hx.isFinite hy.isFinite (by linarith [hmid.lt_overflowBound])
  exact (hmul.mono (by linarith)).within hprod

/-- **The factor of a quotient** of exact values. -/
theorem within_div (hx : x.isFinite) (hy : y.isFinite) (hne : y.toRat ≠ 0)
    (hmid : fmt.Midrange (x.toRat / y.toRat)) :
    (x / y).Within (x.toRat / y.toRat) (1 + 2 * fmt.unitRoundoff) := by
  have hu := fmt.unitRoundoff_pos
  have hu' := fmt.unitRoundoff_le_half
  have hη := fmt.underflowError_pos
  have hround : fmt.unitRoundoff * |x.toRat / y.toRat| ≤ 1 / 2 * |x.toRat / y.toRat| := by gcongr
  have hdiv := near_div hx hy hne (by linarith [hmid.underflowError_le, hmid.lt_overflowBound])
  refine ⟨hdiv.isFinite, hdiv.abs_sub_le.trans ?_⟩
  linarith [hmid.underflowError_le]

/-- **The factor of an integer**, which does not underflow. -/
theorem within_ofInt {n : ℤ} (hmin : fmt.minExponent ≤ 0) (hn : 2 * |(n : ℚ)| < fmt.overflowBound) :
    (ofInt n : Binary fmt).Within n (1 + fmt.unitRoundoff) := by
  have hu' := fmt.unitRoundoff_le_half
  have hval : (Exact.ofInt n).toRat = n := by
    rw [Exact.ofInt, Exact.toRat_natAbs, zpow_zero, mul_one]
  have hround : fmt.unitRoundoff * |(n : ℚ)| ≤ 1 / 2 * |(n : ℚ)| := by gcongr
  have hnear : (round (Exact.ofInt n) : Binary fmt).Near _ _ :=
    near_round_of_fits rfl hmin (by
      rw [hval]
      linarith [abs_nonneg (n : ℚ)])
  rw [hval] at hnear
  refine ⟨hnear.isFinite, hnear.abs_sub_le.trans ?_⟩
  rw [add_sub_cancel_left]

/-! ## Nearest integers -/

omit [fmt.Valid] in
/-- **A finite value has a nearest integer.**

**Proof sketch.** The number of the rank is a quotient with a power of two as its denominator, and a rounded quotient
is within one half of the exact one. The sign goes to both sides. -/
theorem exists_nearestInt (hx : x.isFinite) :
    ∃ n : ℤ, x.nearestInt? = some n ∧ |(n : ℚ) - x.toRat| ≤ 1 / 2 := by
  cases x with
  | infinity s => cases hx
  | nan => cases hx
  | finite s r h =>
    refine ⟨_, rfl, ?_⟩
    have hden : 0 < 1 <<< (-fmt.exponent r).toNat := by
      rw [Nat.shiftLeft_eq]
      positivity
    have hround :
        |((roundDiv .away (fmt.coefficient r <<< (fmt.exponent r).toNat) _ : ℕ) : ℚ) - _| ≤ 1 / 2 :=
      abs_roundDiv_sub_le .away hden
    rw [shiftLeft_div_shiftLeft, Nat.cast_one, div_one, ← rankValue] at hround
    rw [toRat_finite]
    cases s with
    | false => simpa using hround
    | true =>
      rw [abs_sub_comm] at hround
      simpa [neg_add_eq_sub] using hround

omit [fmt.Valid] in
/-- The nearest integer is kept if it lies between the bounds. -/
lemma saturate_eq {low high n : ℤ} (hn : x.nearestInt? = some n) (hlow : low ≤ n) (hhigh : n ≤ high) :
    x.saturate low high = n := by
  cases x with
  | infinity s => cases hn
  | nan => cases hn
  | finite s r h =>
    rw [saturate, hn, Option.getD_some, min_eq_right hhigh, max_eq_right hlow]

end Binary

end SparseDot
