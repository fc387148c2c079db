import Mathlib.Algebra.Order.Field.Power
import Mathlib.Algebra.Order.Field.Rat
import Mathlib.Tactic.Linarith
import Mathlib.Tactic.Positivity
import Mathlib.Tactic.Ring
import SparseDot.Numeric.Binary.Basic

set_option autoImplicit false

/-!
# The numbers behind the ranks

The rank of a binary value counts the non-negative numbers of its format below it. This module gives the
rational number of every rank and shows that ranks are ordered as these numbers are: going up by one rank
adds one unit of the binade, also from the last number of a binade to the first of the next.

## Main definitions

* `SparseDot.Format.Valid` — the formats that the laws of rounding are about.
* `SparseDot.Format.rankValue` — the number with a given rank.
* `SparseDot.Format.overflowBound` — the first power of two past the largest finite number.

## Main results

* `SparseDot.Format.rankValue_shift_add` — a coefficient counted in some binade has the rank that its
  leading bit carries it to.
* `SparseDot.Format.rankValue_strictMono` — ranks are ordered as their numbers.
* `SparseDot.Format.rankValue_infinityRank` — infinity takes the place of `overflowBound`.
-/

namespace SparseDot

namespace Format

/-- **Formats with numbers to round to**: a coefficient has a leading bit, and there is an exponent
field. -/
class Valid (fmt : Format) : Prop where
  precision_pos : 0 < fmt.precision
  exponentWidth_pos : 0 < fmt.exponentWidth

instance : single.Valid := ⟨by decide, by decide⟩

instance : double.Valid := ⟨by decide, by decide⟩

variable (fmt : Format)

/-- **The number with a given rank.** Ranks from that of infinity on go on counting, as if there were an
exponent for them. -/
def rankValue (rank : ℕ) : ℚ := fmt.coefficient rank * 2 ^ fmt.exponent rank

/-- The first power of two past the largest finite number. -/
def overflowBound : ℚ := 2 ^ (2 ^ (fmt.exponentWidth - 1) : ℕ)

variable {fmt} [fmt.Valid]

/-- Twice the smallest coefficient with a leading bit is one past the largest. -/
lemma two_mul_two_pow_precision :
    2 * 2 ^ (fmt.precision - 1) = 2 ^ fmt.precision := by
  rw [← pow_succ', Nat.sub_add_cancel Valid.precision_pos]

/-- The smallest coefficient with a leading bit has `precision` bits. -/
private lemma two_pow_precision_pred_lt : 2 ^ (fmt.precision - 1) < 2 ^ fmt.precision := by
  have hpos : 0 < 2 ^ (fmt.precision - 1) := by positivity
  rw [← two_mul_two_pow_precision]
  omega

/-- A coefficient of the binade `k` above the subnormal unit, with its leading bit there unless the binade
is the lowest, has step `k`.

**Proof sketch.** The step is what a division by `2 ^ (precision - 1)` gives, less one. The division gives `k` and one
more if the coefficient has its leading bit, and less than two if `k` is zero. -/
private lemma step_shift_add {k c : ℕ} (hc : c < 2 ^ fmt.precision)
    (hk : k = 0 ∨ 2 ^ (fmt.precision - 1) ≤ c) :
    fmt.step (k <<< (fmt.precision - 1) + c) = k := by
  have hpos : 0 < 2 ^ (fmt.precision - 1) := by positivity
  rw [← two_mul_two_pow_precision] at hc
  rw [step, Nat.shiftLeft_eq, Nat.shiftRight_eq_div_pow, Nat.add_comm, Nat.add_mul_div_right _ _ hpos]
  rcases hk with rfl | hk
  · have : c / 2 ^ (fmt.precision - 1) < 2 := (Nat.div_lt_iff_lt_mul hpos).mpr hc
    omega
  · have hdiv : c / 2 ^ (fmt.precision - 1) = 1 := by
      apply Nat.div_eq_of_lt_le
      · simpa using hk
      · simpa using hc
    omega

/-- **The rank of a counted number.** The number that counts `c` units of the binade `k` above the
subnormal one has the rank `k · 2 ^ (precision - 1) + c`.

**Proof sketch.** Below `2 ^ precision` the step of that rank is `k` and its coefficient `c`. At
`c = 2 ^ precision` the leading bit carries into the step: the coefficient is half as large and the
binade one higher. -/
theorem rankValue_shift_add {k c : ℕ} (hc : c ≤ 2 ^ fmt.precision)
    (hk : k = 0 ∨ 2 ^ (fmt.precision - 1) ≤ c) :
    fmt.rankValue (k <<< (fmt.precision - 1) + c) = c * 2 ^ (fmt.minExponent + k) := by
  rcases hc.lt_or_eq with hlt | rfl
  · have hstep := step_shift_add hlt hk
    rw [rankValue, coefficient, exponent, hstep, Nat.add_sub_cancel_left]
  · -- the carry: the same rank, written in the next binade
    have hcarry : k <<< (fmt.precision - 1) + 2 ^ fmt.precision =
        (k + 1) <<< (fmt.precision - 1) + 2 ^ (fmt.precision - 1) := by
      rw [Nat.shiftLeft_eq, Nat.shiftLeft_eq, ← two_mul_two_pow_precision]
      ring
    have hstep : fmt.step ((k + 1) <<< (fmt.precision - 1) + 2 ^ (fmt.precision - 1)) = k + 1 :=
      step_shift_add two_pow_precision_pred_lt (.inr le_rfl)
    rw [hcarry, rankValue, coefficient, exponent, hstep, Nat.add_sub_cancel_left,
      ← two_mul_two_pow_precision]
    push_cast
    rw [← add_assoc, zpow_add_one₀ (by norm_num)]
    ring

/-- Every rank is that of a coefficient below `2 ^ precision` in some binade, with its leading bit there
unless the binade is the lowest.

**Proof sketch.** Divide the rank by `2 ^ (precision - 1)`. If the quotient is zero then the rank is a coefficient of
the lowest binade, and else the binade is one less than the quotient and the leading bit goes to the remainder. -/
private lemma exists_rank_eq_shift_add (fmt : Format) [fmt.Valid] (r : ℕ) :
    ∃ k c, r = k <<< (fmt.precision - 1) + c ∧ c < 2 ^ fmt.precision ∧
      (k = 0 ∨ 2 ^ (fmt.precision - 1) ≤ c) := by
  have hpos : 0 < 2 ^ (fmt.precision - 1) := by positivity
  have hmod := Nat.mod_lt r hpos
  have hdiv := Nat.div_add_mod' r (2 ^ (fmt.precision - 1))
  rw [← two_mul_two_pow_precision]
  rcases Nat.eq_zero_or_pos (r / 2 ^ (fmt.precision - 1)) with hq | hq
  · refine ⟨0, r, by simp, ?_, .inl rfl⟩
    rw [hq] at hdiv
    omega
  · obtain ⟨q, hq⟩ := Nat.exists_eq_add_of_lt hq
    rw [hq] at hdiv
    refine ⟨q, 2 ^ (fmt.precision - 1) + r % 2 ^ (fmt.precision - 1), ?_, by omega, .inr (by omega)⟩
    rw [Nat.shiftLeft_eq, ← hdiv]
    simp
    ring

/-- A coefficient has at most `precision` bits. -/
lemma coefficient_lt (fmt : Format) [fmt.Valid] (r : ℕ) : fmt.coefficient r < 2 ^ fmt.precision := by
  obtain ⟨k, c, rfl, hc, hk⟩ := exists_rank_eq_shift_add fmt r
  rwa [coefficient, step_shift_add hc hk, Nat.add_sub_cancel_left]

/-- The next rank is one unit of the binade higher. -/
private lemma rankValue_lt_succ (r : ℕ) :
    fmt.rankValue r < fmt.rankValue (r + 1) := by
  obtain ⟨k, c, rfl, hc, hk⟩ := exists_rank_eq_shift_add fmt r
  rw [add_assoc, rankValue_shift_add hc.le hk,
    rankValue_shift_add (Nat.succ_le_of_lt hc) (hk.imp_right Nat.le_succ_of_le)]
  have hunit : (0 : ℚ) < 2 ^ (fmt.minExponent + k) := by positivity
  push_cast
  linarith

/-- **Ranks are ordered as their numbers.** -/
theorem rankValue_strictMono (fmt : Format) [fmt.Valid] : StrictMono fmt.rankValue :=
  strictMono_nat_of_lt_succ rankValue_lt_succ

/-- The lowest rank is that of zero. -/
@[simp] lemma rankValue_zero (fmt : Format) : fmt.rankValue 0 = 0 := by
  simp [rankValue, coefficient]

/-- **Infinity takes the place of the overflow bound**: it has the rank that this power of two would
have.

**Proof sketch.** The rank of infinity is that of the smallest coefficient with a leading bit, in the binade that
follows the last one. Its number is a power of two, whose exponent is the overflow bound's once the bias of the format
is written out. -/
theorem rankValue_infinityRank :
    fmt.rankValue fmt.infinityRank = fmt.overflowBound := by
  have hp : 0 < fmt.precision := Valid.precision_pos
  have hwidth : 0 < fmt.exponentWidth := Valid.exponentWidth_pos
  obtain ⟨w, hw⟩ := Nat.exists_eq_add_of_lt hwidth
  have hone : 1 ≤ 2 ^ w := Nat.one_le_two_pow
  have hrank : fmt.infinityRank =
      (2 ^ fmt.exponentWidth - 2) <<< (fmt.precision - 1) + 2 ^ (fmt.precision - 1) := by
    obtain ⟨m, hm⟩ : ∃ m, 2 ^ fmt.exponentWidth = m + 2 := by
      refine ⟨2 ^ fmt.exponentWidth - 2, ?_⟩
      rw [hw]
      simp only [zero_add, pow_succ]
      omega
    simp only [infinityRank, Nat.shiftLeft_eq, one_mul, hm]
    rw [show m + 2 - 1 = m + 1 by omega, Nat.add_sub_cancel]
    ring
  rw [hrank, rankValue_shift_add two_pow_precision_pred_lt.le (.inr le_rfl), overflowBound,
    Nat.cast_pow, Nat.cast_ofNat, ← zpow_natCast, ← zpow_natCast, ← zpow_add₀ (by norm_num)]
  congr 1
  rw [minExponent, hw]
  simp only [Nat.shiftLeft_eq, one_mul, zero_add, Nat.add_sub_cancel, pow_succ]
  omega

/-- Infinity does not have the lowest rank, so zero is a finite number. -/
lemma infinityRank_pos (fmt : Format) [fmt.Valid] : 0 < fmt.infinityRank := by
  rw [← (rankValue_strictMono fmt).lt_iff_lt, rankValue_zero, rankValue_infinityRank]
  unfold overflowBound
  positivity

end Format

end SparseDot
