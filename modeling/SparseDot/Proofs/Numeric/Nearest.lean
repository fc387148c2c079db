import Mathlib.Tactic.FieldSimp
import SparseDot.Numeric.Binary.Arithmetic
import SparseDot.Proofs.Numeric.Rank

set_option autoImplicit false

/-!
# The nearest rank

Rounding a positive rational number to a format counts it in the unit of its binade, or in the subnormal
unit if that is larger, and takes the nearest count. What this does to the number is said once, in
`Format.Counted`; the laws of rounding follow from it without another look at the shifts.

## Main definitions

* `SparseDot.Format.unitRoundoff`, `SparseDot.Format.underflowError` — the relative error of rounding to a
  normal number and the absolute one of rounding to a subnormal number.
* `SparseDot.Format.Representable` — the numbers of a format.
* `SparseDot.Format.Counted` — a number counted to the nearest unit of its binade.
* `SparseDot.Format.binade`, `SparseDot.Format.shift`, `SparseDot.Format.count` — the unit that a quotient is
  counted in, and how often.

## Main results

* `SparseDot.two_zpow_floorLog2_le`, `SparseDot.lt_two_zpow_floorLog2` — the binade of a quotient.
* `SparseDot.Format.counted_count`, `SparseDot.Format.counted_nearestRank` — the nearest rank comes from such a
  count.
* `SparseDot.Format.rankValue_nearestRank_error` — the error of one rounding.
* `SparseDot.Format.rankValue_nearestRank_eq` — a number of the format is kept.
-/

namespace SparseDot

/-! ## The binade of a quotient -/

/-- Half of a power of two. -/
private lemma two_zpow_div_two (e : ℤ) : (2 : ℚ) ^ e / 2 = 2 ^ (e - 1) := by
  rw [zpow_sub_one₀ (by norm_num), div_eq_mul_inv]

/-- A quotient of shifted numbers, where a negative shift goes to the denominator. -/
lemma shiftLeft_div_shiftLeft (num den : ℕ) (s : ℤ) :
    ((num <<< s.toNat : ℕ) : ℚ) / ((den <<< (-s).toNat : ℕ) : ℚ) = num / den * 2 ^ s := by
  have hs : (2 : ℚ) ^ s = 2 ^ s.toNat / 2 ^ (-s).toNat := by
    rw [← zpow_natCast, ← zpow_natCast, ← zpow_sub₀ (by norm_num)]
    congr 1
    omega
  rw [hs, Nat.shiftLeft_eq, Nat.shiftLeft_eq]
  push_cast
  exact mul_div_mul_comm _ _ _ _

/-- The test of `floorLog2`: shifting compares a quotient with a power of two.

**Proof sketch.** The quotient of the two shifted numbers is the quotient times the power of two, so comparing them is
comparing that product with one. -/
private lemma shiftLeft_le_shiftLeft_iff {num den : ℕ} (hd : 0 < den) (e : ℤ) :
    den <<< e.toNat ≤ num <<< (-e).toNat ↔ (2 : ℚ) ^ e ≤ num / den := by
  have hpos : (0 : ℚ) < ((den <<< (- -e).toNat : ℕ) : ℚ) := by
    rw [Nat.shiftLeft_eq]
    positivity
  have hquot := shiftLeft_div_shiftLeft num den (-e)
  rw [zpow_neg, ← div_eq_mul_inv, div_eq_div_iff hpos.ne' (by positivity)] at hquot
  rw [neg_neg] at hquot hpos
  rw [← Nat.cast_le (α := ℚ), ← mul_le_mul_iff_left₀ (a := (2 : ℚ) ^ e) (by positivity), hquot,
    mul_comm ((num : ℚ) / den), mul_le_mul_iff_right₀ hpos]

variable {num den : ℕ}

/-- The two logarithms bound the quotient from both sides, with a factor of two left open.

**Proof sketch.** Each number lies between the power of two of its logarithm and the next one. Dividing the bounds
crosswise gives both bounds. -/
private lemma quotient_bounds_log2 (hn : 0 < num) (hd : 0 < den) :
    (2 : ℚ) ^ ((num.log2 : ℤ) - den.log2 - 1) ≤ num / den ∧
      (num / den : ℚ) < 2 ^ ((num.log2 : ℤ) - den.log2 + 1) := by
  have hn₁ : (2 : ℚ) ^ (num.log2 : ℤ) ≤ num := by
    rw [zpow_natCast]
    exact_mod_cast Nat.log2_self_le hn.ne'
  have hn₂ : (num : ℚ) < 2 ^ ((num.log2 : ℤ) + 1) := by
    exact_mod_cast Nat.lt_log2_self (n := num)
  have hd₁ : (2 : ℚ) ^ (den.log2 : ℤ) ≤ den := by
    rw [zpow_natCast]
    exact_mod_cast Nat.log2_self_le hd.ne'
  have hd₂ : (den : ℚ) < 2 ^ ((den.log2 : ℤ) + 1) := by
    exact_mod_cast Nat.lt_log2_self (n := den)
  constructor
  · rw [show (num.log2 : ℤ) - den.log2 - 1 = num.log2 - (den.log2 + 1) by ring,
      zpow_sub₀ (by norm_num)]
    gcongr
  · rw [show (num.log2 : ℤ) - den.log2 + 1 = num.log2 + 1 - den.log2 by ring,
      zpow_sub₀ (by norm_num)]
    gcongr

/-- The quotient is at least the power of two of its binade. -/
theorem two_zpow_floorLog2_le (hn : 0 < num) (hd : 0 < den) :
    (2 : ℚ) ^ floorLog2 num den ≤ num / den := by
  unfold floorLog2
  dsimp only
  split_ifs with h
  · exact (shiftLeft_le_shiftLeft_iff hd _).mp h
  · exact (quotient_bounds_log2 hn hd).1

/-- The quotient is below the power of two of the next binade. -/
theorem lt_two_zpow_floorLog2 (hn : 0 < num) (hd : 0 < den) :
    (num / den : ℚ) < 2 ^ (floorLog2 num den + 1) := by
  unfold floorLog2
  dsimp only
  split_ifs with h
  · exact (quotient_bounds_log2 hn hd).2
  · rw [sub_add_cancel]
    exact lt_of_not_ge fun hle => h ((shiftLeft_le_shiftLeft_iff hd _).mpr hle)

/-! ## Counting to the nearest unit -/

section RoundDiv

variable (tie : Tie)

/-- A quotient that is at most an integer is not rounded past it.

**Proof sketch.** Twice the count is at most twice the quotient and one more, hence less than twice the integer and two
more. -/
lemma roundDiv_le (hd : 0 < den) {k : ℕ} (h : (num / den : ℚ) ≤ k) : roundDiv tie num den ≤ k := by
  have hle : num ≤ k * den := by
    rw [div_le_iff₀ (by exact_mod_cast hd)] at h
    exact_mod_cast h
  have hround := two_mul_roundDiv_le tie num den
  have : 2 * (roundDiv tie num den) * den < (2 * k + 2) * den := by
    nlinarith
  have := Nat.lt_of_mul_lt_mul_right this
  omega

/-- A quotient that is at least an integer is not rounded below it. -/
private lemma le_roundDiv (hd : 0 < den) {k : ℕ} (h : (k : ℚ) ≤ num / den) : k ≤ roundDiv tie num den := by
  have hle : k * den ≤ num := by
    rw [le_div_iff₀ (by exact_mod_cast hd)] at h
    exact_mod_cast h
  have hround := two_mul_le_roundDiv tie num den hd
  have : 2 * k * den < (2 * roundDiv tie num den + 2) * den := by
    nlinarith
  have := Nat.lt_of_mul_lt_mul_right this
  omega

/-- The rounded quotient is within one half of the exact one.

**Proof sketch.** Both sides are the bounds on twice the count, divided by twice the denominator. -/
lemma abs_roundDiv_sub_le (hd : 0 < den) : |(roundDiv tie num den : ℚ) - num / den| ≤ 1 / 2 := by
  have hd' : (0 : ℚ) < den := by exact_mod_cast hd
  have hle : (2 * (roundDiv tie num den * den) : ℚ) ≤ 2 * num + den := by
    exact_mod_cast two_mul_roundDiv_le tie num den
  have hge : (2 * num : ℚ) ≤ 2 * (roundDiv tie num den * den) + den := by
    exact_mod_cast two_mul_le_roundDiv tie num den hd
  rw [abs_le]
  constructor
  · rw [neg_le_sub_iff_le_add, div_le_iff₀ hd']
    linarith
  · rw [sub_le_iff_le_add', ← sub_le_iff_le_add, le_div_iff₀ hd']
    linarith

end RoundDiv

namespace Format

variable (fmt : Format)

/-- Half the distance of neighbouring numbers, relative to the smallest number of their binade. -/
def unitRoundoff : ℚ := 2 ^ (-fmt.precision : ℤ)

/-- Half the distance of neighbouring subnormal numbers. -/
def underflowError : ℚ := 2 ^ (fmt.minExponent - 1)

/-- The relative error is positive. -/
lemma unitRoundoff_pos : 0 < fmt.unitRoundoff := by
  unfold unitRoundoff
  positivity

/-- The absolute error is positive. -/
lemma underflowError_pos : 0 < fmt.underflowError := by
  unfold underflowError
  positivity

/-- The relative error in single precision. -/
lemma unitRoundoff_single : single.unitRoundoff = 2 ^ (-24 : ℤ) := rfl

/-- The absolute error in single precision. -/
lemma underflowError_single : single.underflowError = 2 ^ (-150 : ℤ) := rfl

/-- The first power of two past the single precision numbers. -/
lemma overflowBound_single : single.overflowBound = 2 ^ 128 := rfl

/-- **The numbers of a format**: the finite ones, with a sign. -/
def Representable (q : ℚ) : Prop :=
  |q| < fmt.overflowBound ∧
    ∃ (m : ℕ) (j : ℤ), m < 2 ^ fmt.precision ∧ fmt.minExponent ≤ j ∧ |q| = m * 2 ^ j

/-- **A number counted to the nearest unit of its binade.** `x` lies in the binade `k` above the subnormal
unit, or anywhere below the next one for `k = 0`, and `c` is the count of units. -/
structure Counted (x : ℚ) (k c : ℕ) : Prop where
  /-- The count is at most the first count of the next binade. -/
  count_le : c ≤ 2 ^ fmt.precision
  /-- The count has its leading bit, except in the lowest binade. -/
  leading_le : k = 0 ∨ 2 ^ (fmt.precision - 1) ≤ c
  /-- The number has its leading bit, except in the lowest binade. -/
  binade_le : k = 0 ∨ (2 : ℚ) ^ (fmt.minExponent + k + fmt.precision - 1) ≤ x
  /-- The count is within half a unit. -/
  abs_sub_le : |c * (2 : ℚ) ^ (fmt.minExponent + k) - x| ≤ 2 ^ (fmt.minExponent + k) / 2
  /-- A whole count is kept. -/
  whole : ∀ m : ℕ, x = m * (2 : ℚ) ^ (fmt.minExponent + k) → c = m

/-- The binade that a quotient is counted in: its own, or the lowest one if that is higher. -/
def binade (num den : ℕ) (exponent : ℤ) : ℕ :=
  (floorLog2 num den + (exponent - fmt.minExponent) + 1 - fmt.precision).toNat

/-- How far a quotient is shifted to be counted in units of its binade. -/
def shift (num den : ℕ) (exponent : ℤ) : ℤ :=
  exponent - fmt.minExponent - fmt.binade num den exponent

/-- The count of units of the binade that is nearest to a quotient. -/
def count (num den : ℕ) (exponent : ℤ) : ℕ :=
  roundDiv .toEven (num <<< (fmt.shift num den exponent).toNat)
    (den <<< (-fmt.shift num den exponent).toNat)

variable {fmt} [fmt.Valid] {num den : ℕ} {exponent : ℤ}

omit [fmt.Valid] in
/-- The nearest rank, with its binade and its count by name. -/
lemma nearestRank_of_pos (hn : 0 < num) : fmt.nearestRank num den exponent =
    fmt.binade num den exponent <<< (fmt.precision - 1) + fmt.count num den exponent :=
  if_neg hn.ne'

omit [fmt.Valid] in
/-- The shifted quotient counts the units of the binade. -/
lemma shifted_mul_unit (num den : ℕ) (exponent : ℤ) :
    (num / den * 2 ^ fmt.shift num den exponent : ℚ) *
      2 ^ (fmt.minExponent + fmt.binade num den exponent) = num / den * 2 ^ exponent := by
  rw [mul_assoc, ← zpow_add₀ (by norm_num), shift]
  congr 2
  ring

omit [fmt.Valid] in
/-- There are less than `2 ^ precision` units.

**Proof sketch.** The quotient is below the power of two of the next binade, and the shift brings this power to at most
`2 ^ precision`. -/
private lemma shifted_lt (hn : 0 < num) (hd : 0 < den) :
    (num / den * 2 ^ fmt.shift num den exponent : ℚ) < 2 ^ (fmt.precision : ℤ) := by
  have hhigh := lt_two_zpow_floorLog2 hn hd
  calc (num / den * 2 ^ fmt.shift num den exponent : ℚ)
      < 2 ^ (floorLog2 num den + 1) * 2 ^ fmt.shift num den exponent := by gcongr
    _ = 2 ^ (floorLog2 num den + 1 + fmt.shift num den exponent) := (zpow_add₀ (by norm_num) _ _).symm
    _ ≤ 2 ^ (fmt.precision : ℤ) := by
      refine zpow_le_zpow_right₀ (by norm_num) ?_
      unfold shift binade
      omega

omit [fmt.Valid] in
/-- There are at least half as many, unless the binade was cut off.

**Proof sketch.** The quotient is at least the power of two of its binade. As the binade was not cut off, the shift
brings this power to exactly `2 ^ (precision - 1)`. -/
private lemma le_shifted (hn : 0 < num) (hd : 0 < den) (hk : fmt.binade num den exponent ≠ 0) :
    (2 : ℚ) ^ (fmt.precision - 1 : ℤ) ≤ num / den * 2 ^ fmt.shift num den exponent := by
  have hlow := two_zpow_floorLog2_le hn hd
  calc (2 : ℚ) ^ (fmt.precision - 1 : ℤ)
      = 2 ^ (floorLog2 num den + fmt.shift num den exponent) := by
        congr 1
        unfold shift binade at *
        omega
    _ = 2 ^ floorLog2 num den * 2 ^ fmt.shift num den exponent := zpow_add₀ (by norm_num) _ _
    _ ≤ num / den * 2 ^ fmt.shift num den exponent := by gcongr

/-- **A quotient is counted to the nearest unit of its binade.**

**Proof sketch.** The shifted quotient is the number, counted in units of its binade. It is less than
`2 ^ precision`, and at least half as much if the binade was not cut off at the lowest one; rounding it
keeps both bounds. -/
theorem counted_count (fmt : Format) [fmt.Valid] (exponent : ℤ) (hn : 0 < num) (hd : 0 < den) :
    fmt.Counted (num / den * 2 ^ exponent) (fmt.binade num den exponent)
      (fmt.count num den exponent) := by
  have hp : 0 < fmt.precision := Valid.precision_pos
  set k := fmt.binade num den exponent
  set q : ℚ := num / den * 2 ^ fmt.shift num den exponent
  set N := num <<< (fmt.shift num den exponent).toNat
  set D := den <<< (-fmt.shift num den exponent).toNat with hD
  have hDpos : 0 < D := by
    rw [hD, Nat.shiftLeft_eq]
    positivity
  have hquot : (N / D : ℚ) = q := shiftLeft_div_shiftLeft num den _
  have hval : q * 2 ^ (fmt.minExponent + k) = num / den * 2 ^ exponent := shifted_mul_unit num den exponent
  have hunit : (0 : ℚ) < 2 ^ (fmt.minExponent + k) := by positivity
  have hhigh : q < 2 ^ (fmt.precision : ℤ) := shifted_lt hn hd
  have hlow : k = 0 ∨ 2 ^ (fmt.precision - 1 : ℤ) ≤ q :=
    or_iff_not_imp_left.mpr fun h => le_shifted hn hd h
  have hcount : fmt.count num den exponent = roundDiv .toEven N D := rfl
  rw [hcount]
  refine ⟨?_, ?_, ?_, ?_, ?_⟩
  · refine roundDiv_le _ hDpos ?_
    rw [hquot]
    exact_mod_cast hhigh.le
  · refine hlow.imp_right fun h => le_roundDiv _ hDpos ?_
    rw [show (fmt.precision - 1 : ℤ) = ((fmt.precision - 1 : ℕ) : ℤ) by omega, zpow_natCast] at h
    rw [hquot]
    exact_mod_cast h
  · refine hlow.imp_right fun h => ?_
    rw [← hval, show fmt.minExponent + k + fmt.precision - 1 =
      (fmt.precision - 1 : ℤ) + (fmt.minExponent + k) by ring, zpow_add₀ (by norm_num)]
    gcongr
  · have hround : |(roundDiv .toEven N D : ℚ) - N / D| ≤ 1 / 2 := abs_roundDiv_sub_le _ hDpos
    rw [hquot] at hround
    rw [← hval, ← sub_mul, abs_mul, abs_of_pos hunit]
    calc _ ≤ 1 / 2 * (2 : ℚ) ^ (fmt.minExponent + k) := by gcongr
      _ = 2 ^ (fmt.minExponent + k) / 2 := by ring
  · intro m hm
    rw [← hval] at hm
    have hND : (N / D : ℚ) = m := hquot.trans (mul_right_cancel₀ hunit.ne' hm)
    exact le_antisymm (roundDiv_le _ hDpos hND.le) (le_roundDiv _ hDpos hND.ge)

/-- **The nearest rank comes from a count to the nearest unit.** -/
theorem counted_nearestRank (fmt : Format) [fmt.Valid] (exponent : ℤ) (hn : 0 < num)
    (hd : 0 < den) :
    ∃ k c, fmt.nearestRank num den exponent = k <<< (fmt.precision - 1) + c ∧
      fmt.Counted (num / den * 2 ^ exponent) k c :=
  ⟨_, _, nearestRank_of_pos hn, counted_count fmt exponent hn hd⟩

namespace Counted

variable {x : ℚ} {k c : ℕ}

/-- The rank of a count is within half a unit of the number. -/
private lemma abs_rankValue_sub_le (h : fmt.Counted x k c) :
    |fmt.rankValue (k <<< (fmt.precision - 1) + c) - x| ≤ 2 ^ (fmt.minExponent + k) / 2 := by
  rw [rankValue_shift_add h.count_le h.leading_le]
  exact h.abs_sub_le

/-- A whole multiple of the unit is kept. -/
private lemma rankValue_eq_of_whole (h : fmt.Counted x k c) {m : ℕ}
    (hm : x = m * (2 : ℚ) ^ (fmt.minExponent + k)) :
    fmt.rankValue (k <<< (fmt.precision - 1) + c) = x := by
  rw [rankValue_shift_add h.count_le h.leading_le, h.whole m hm, ← hm]

omit [fmt.Valid] in
/-- Above the lowest binade half a unit is a small part of the number.

**Proof sketch.** The number is at least the first of its binade, of which half a unit is the part `unitRoundoff`. -/
private lemma half_unit_le (h : fmt.Counted x k c) (hk : k ≠ 0) :
    (2 : ℚ) ^ (fmt.minExponent + k) / 2 ≤ fmt.unitRoundoff * x := by
  have hx := h.binade_le.resolve_left hk
  calc (2 : ℚ) ^ (fmt.minExponent + k) / 2
      = 2 ^ (-fmt.precision : ℤ) * 2 ^ (fmt.minExponent + k + fmt.precision - 1) := by
        rw [two_zpow_div_two, ← zpow_add₀ (by norm_num)]
        congr 1
        ring
    _ ≤ fmt.unitRoundoff * x := by
        unfold unitRoundoff
        gcongr

end Counted

omit [fmt.Valid] in
/-- Nothing has the lowest rank. -/
@[simp] lemma nearestRank_zero : fmt.nearestRank 0 den exponent = 0 := by simp [nearestRank]

/-- **The error of one rounding**: a small part of the number, or half a subnormal unit.

**Proof sketch.** The rank comes from a count that is within half a unit. In the lowest binade half a unit is the
underflow error, and above it is at most the part `unitRoundoff` of the number. -/
theorem rankValue_nearestRank_error (fmt : Format) [fmt.Valid] (num : ℕ) (exponent : ℤ)
    (hd : 0 < den) :
    |fmt.rankValue (fmt.nearestRank num den exponent) - num / den * 2 ^ exponent| ≤
      fmt.unitRoundoff * (num / den * 2 ^ exponent) + fmt.underflowError := by
  have hu := fmt.unitRoundoff_pos
  have hη := fmt.underflowError_pos
  rcases Nat.eq_zero_or_pos num with rfl | hn
  · simpa using hη.le
  obtain ⟨k, c, hrank, hcount⟩ := counted_nearestRank fmt exponent hn hd
  rw [hrank]
  refine (hcount.abs_rankValue_sub_le).trans ?_
  rcases eq_or_ne k 0 with rfl | hk
  · have hunit : (2 : ℚ) ^ (fmt.minExponent + (0 : ℕ)) / 2 = fmt.underflowError := by
      rw [two_zpow_div_two, underflowError, Nat.cast_zero, add_zero]
    rw [hunit]
    have : 0 ≤ fmt.unitRoundoff * (num / den * 2 ^ exponent : ℚ) := by positivity
    linarith
  · linarith [hcount.half_unit_le hk]

/-- **A whole multiple of the subnormal unit has no absolute error**, because below the normal numbers it
is one of the numbers of the format.

**Proof sketch.** In the lowest binade the number is a whole number of units and is kept. Above it half a unit is at
most the part `unitRoundoff` of the number. -/
theorem rankValue_nearestRank_error_of_whole
    (he : fmt.minExponent ≤ exponent) :
    |fmt.rankValue (fmt.nearestRank num 1 exponent) - num * 2 ^ exponent| ≤
      fmt.unitRoundoff * (num * 2 ^ exponent) := by
  have hu := fmt.unitRoundoff_pos
  rcases Nat.eq_zero_or_pos num with rfl | hn
  · simp
  obtain ⟨k, c, hrank, hcount⟩ := counted_nearestRank fmt exponent hn Nat.one_pos
  rw [Nat.cast_one, div_one] at hcount
  rw [hrank]
  rcases eq_or_ne k 0 with rfl | hk
  · have hwhole : (num : ℚ) * 2 ^ exponent =
        ((num * 2 ^ (exponent - fmt.minExponent).toNat : ℕ) : ℚ) *
          2 ^ (fmt.minExponent + (0 : ℕ)) := by
      push_cast
      rw [mul_assoc, ← zpow_natCast, ← zpow_add₀ (by norm_num)]
      congr 2
      omega
    rw [hcount.rankValue_eq_of_whole hwhole, sub_self, abs_zero]
    positivity
  · exact (hcount.abs_rankValue_sub_le).trans (hcount.half_unit_le hk)

/-- **A number of the format is kept**, however it is written.

**Proof sketch.** Below `2 ^ (precision + j)` the unit of the binade is at most `2 ^ j`, so a multiple of
`2 ^ j` is a whole number of units. -/
theorem rankValue_nearestRank_eq (hd : 0 < den) {m : ℕ} {j : ℤ}
    (hm : m < 2 ^ fmt.precision) (hj : fmt.minExponent ≤ j)
    (hx : (num / den * 2 ^ exponent : ℚ) = m * 2 ^ j) :
    fmt.rankValue (fmt.nearestRank num den exponent) = m * 2 ^ j := by
  rcases Nat.eq_zero_or_pos num with rfl | hn
  · simpa using hx
  obtain ⟨k, c, hrank, hcount⟩ := counted_nearestRank fmt exponent hn hd
  rw [hx] at hcount
  have hk : fmt.minExponent + k ≤ j := by
    rcases hcount.binade_le with rfl | hle
    · simpa using hj
    · have hlt : (m : ℚ) * 2 ^ j < 2 ^ ((fmt.precision : ℤ) + j) := by
        rw [zpow_add₀ (by norm_num), zpow_natCast]
        gcongr
        exact_mod_cast hm
      have := (zpow_lt_zpow_iff_right₀ (by norm_num : (1 : ℚ) < 2)).mp (hle.trans_lt hlt)
      omega
  have hwhole : (m : ℚ) * 2 ^ j =
      ((m * 2 ^ (j - (fmt.minExponent + k)).toNat : ℕ) : ℚ) * 2 ^ (fmt.minExponent + k) := by
    push_cast
    rw [mul_assoc, ← zpow_natCast, ← zpow_add₀ (by norm_num)]
    congr 2
    omega
  rw [hrank, hcount.rankValue_eq_of_whole hwhole]

end Format

end SparseDot
