import Mathlib.Algebra.Order.Group.Unbundled.Abs
import SparseDot.Proofs.Numeric.Nearest

set_option autoImplicit false

/-!
# Arithmetic on the numbers behind the values

Every finite value is a rational number. Sum, product and fused product of finite values are taken exactly
and then rounded once, so each of them is close to the exact result, and equal to it where that is a number
of the format. These are the only facts about rounding that the error of a longer computation needs.

## Main definitions

* `SparseDot.Exact.toRat`, `SparseDot.Binary.toRat` — the number that an exact result, or a value, stands
  for.
* `SparseDot.Binary.Near` — a finite value within some distance of a number.
* `SparseDot.Binary.Rounds` — the value nearest to a number.

## Main results

* `SparseDot.Exact.toRat_add`, `SparseDot.Exact.toRat_mul` — exact operations are exact.
* `SparseDot.Binary.rounds_add`, `SparseDot.Binary.rounds_mul`, `SparseDot.Binary.rounds_fma` — each operation
  rounds its exact result once.
* `SparseDot.Binary.near_add`, `SparseDot.Binary.near_mul`, `SparseDot.Binary.near_fma` — the error of one
  operation.
* `SparseDot.Binary.Rounds.near_of_representable` — a number of the format is not rounded.
-/

namespace SparseDot

/-! ## Exact results as numbers -/

namespace Exact

/-- Whether the result is a number. -/
def isFinite : Exact → Bool
  | .finite .. => true
  | _ => false

/-- **The number that an exact result stands for**, zero for an infinity and for NaN. -/
def toRat : Exact → ℚ
  | .finite s c e => ((if s then -(c : ℤ) else c : ℤ) : ℚ) * 2 ^ e
  | _ => 0

/-- Whether a number is counted in a unit that the format has: every sum of values is. -/
def Fits (fmt : Format) : Exact → Prop
  | .finite _ _ e => fmt.minExponent ≤ e
  | _ => True

/-- Whether the result is the negative zero. -/
def IsNegativeZero (x : Exact) : Prop := ∃ e, x = .finite true 0 e

/-- A result that is a number has a sign, a coefficient and an exponent. -/
lemma exists_eq_finite {x : Exact} (h : x.isFinite) : ∃ s c e, x = .finite s c e := by
  cases x with
  | finite s c e => exact ⟨s, c, e, rfl⟩
  | infinity s => cases h
  | nan => cases h

/-- The number is the signed coefficient times the power of two. -/
@[simp] lemma toRat_finite (s : Bool) (c : ℕ) (e : ℤ) :
    toRat (.finite s c e) = ((if s then -(c : ℤ) else c : ℤ) : ℚ) * 2 ^ e := rfl

/-- The size of a number is its coefficient times the power of two. -/
lemma abs_toRat_finite (s : Bool) (c : ℕ) (e : ℤ) : |toRat (.finite s c e)| = c * 2 ^ e := by
  have hpow : (0 : ℚ) < 2 ^ e := by positivity
  rw [toRat_finite, abs_mul, abs_of_pos hpow]
  cases s <;> simp

/-- A signed count of a unit at most that of the number. -/
private lemma scaled_mul_two_zpow (s : Bool) (c : ℕ) {e unit : ℤ} (h : unit ≤ e) :
    (scaled s c e unit : ℚ) * 2 ^ unit = toRat (.finite s c e) := by
  have hpow : (2 : ℚ) ^ e = 2 ^ (e - unit).toNat * 2 ^ unit := by
    rw [← zpow_natCast, ← zpow_add₀ (by norm_num)]
    congr 1
    omega
  rw [toRat_finite, scaled, hpow, Nat.shiftLeft_eq]
  cases s <;> simp <;> ring

/-- A signed count of a unit, written as sign and magnitude. -/
lemma toRat_natAbs (n unit : ℤ) :
    toRat (.finite (decide (n < 0)) n.natAbs unit) = n * 2 ^ unit := by
  have hn : (if decide (n < 0) = true then -(n.natAbs : ℤ) else n.natAbs) = n := by
    simp only [decide_eq_true_eq]
    split_ifs <;> omega
  rw [toRat_finite, hn]

section Operations

variable {x y : Exact} (hx : x.isFinite) (hy : y.isFinite)
include hx hy

/-- A sum of numbers is a number. -/
lemma isFinite_add : (x.add y).isFinite := by
  obtain ⟨s, a, d, rfl⟩ := exists_eq_finite hx
  obtain ⟨t, b, e, rfl⟩ := exists_eq_finite hy
  rw [add]
  split <;> rfl

/-- A product of numbers is a number. -/
lemma isFinite_mul : (x.mul y).isFinite := by
  obtain ⟨s, a, d, rfl⟩ := exists_eq_finite hx
  obtain ⟨t, b, e, rfl⟩ := exists_eq_finite hy
  rfl

/-- **The exact sum is the sum.**

**Proof sketch.** Both terms are counted in the smaller one of their units, and the sum is the sum of the counts. If
that is zero there is only a sign left, and else it is written as sign and magnitude. -/
theorem toRat_add : (x.add y).toRat = x.toRat + y.toRat := by
  obtain ⟨s, a, d, rfl⟩ := exists_eq_finite hx
  obtain ⟨t, b, e, rfl⟩ := exists_eq_finite hy
  rw [← scaled_mul_two_zpow s a (min_le_left d e), ← scaled_mul_two_zpow t b (min_le_right d e),
    ← add_mul, ← Int.cast_add, add]
  split_ifs with h
  · rw [h]
    simp
  · exact toRat_natAbs _ _

/-- **The exact product is the product.** -/
theorem toRat_mul : (x.mul y).toRat = x.toRat * y.toRat := by
  obtain ⟨s, a, d, rfl⟩ := exists_eq_finite hx
  obtain ⟨t, b, e, rfl⟩ := exists_eq_finite hy
  rw [mul, toRat_finite, toRat_finite, toRat_finite, zpow_add₀ (by norm_num)]
  cases s <;> cases t <;> simp <;> ring

/-- A sum counts in a unit of the format if both terms do. -/
private lemma fits_add {fmt : Format} (hfx : x.Fits fmt) (hfy : y.Fits fmt) : (x.add y).Fits fmt := by
  obtain ⟨s, a, d, rfl⟩ := exists_eq_finite hx
  obtain ⟨t, b, e, rfl⟩ := exists_eq_finite hy
  rw [add]
  split <;> exact le_min hfx hfy

/-- A sum is the negative zero only if both terms are.

**Proof sketch.** A sum with a count other than zero is no zero. If the count is zero then the sign is negative only if
both terms are negative, and then both counts are zero. -/
lemma IsNegativeZero.of_add (h : (x.add y).IsNegativeZero) :
    x.IsNegativeZero ∧ y.IsNegativeZero := by
  obtain ⟨s, a, d, rfl⟩ := exists_eq_finite hx
  obtain ⟨t, b, e, rfl⟩ := exists_eq_finite hy
  obtain ⟨unit, h⟩ := h
  rw [add] at h
  split_ifs at h with hsum
  · obtain ⟨⟨rfl, rfl⟩, -⟩ : (s = true ∧ t = true) ∧ min d e = unit := by simpa using h
    simp only [scaled, if_true, Nat.shiftLeft_eq] at hsum
    have ha : a * 2 ^ (d - min d e).toNat = 0 := by omega
    have hb : b * 2 ^ (e - min d e).toNat = 0 := by omega
    exact ⟨⟨d, by simpa using ha⟩, ⟨e, by simpa using hb⟩⟩
  · simp only [finite.injEq, Int.natAbs_eq_zero] at h
    exact absurd h.2.1 hsum

end Operations

end Exact

/-! ## Values as numbers -/

namespace Binary

open Format

variable {fmt : Format}

/-- **The number that a value stands for**, zero for an infinity and for NaN. -/
def toRat (x : Binary fmt) : ℚ := x.exact.toRat

/-- The exact result of a value is a number if the value is finite. -/
@[simp] lemma isFinite_exact (x : Binary fmt) : x.exact.isFinite = x.isFinite := by
  cases x <;> rfl

/-- Values are counted in units of their format. -/
private lemma fits_exact (x : Binary fmt) : x.exact.Fits fmt := by
  cases x with
  | finite s r h => exact le_add_of_nonneg_right (Int.natCast_nonneg _)
  | infinity s => trivial
  | nan => trivial

/-- The number of a finite value is that of its rank, with its sign. -/
@[simp] lemma toRat_finite (s : Bool) (r : ℕ) (h : r < fmt.infinityRank) :
    (finite s r h).toRat = if s then -fmt.rankValue r else fmt.rankValue r := by
  cases s <;> simp [toRat, exact, rankValue]

/-- Infinities and NaN stand for zero, so a value that stands for another number is finite. -/
lemma isFinite_of_toRat_ne_zero {x : Binary fmt} (h : x.toRat ≠ 0) : x.isFinite := by
  cases x with
  | finite s r hr => rfl
  | infinity s => exact absurd rfl h
  | nan => exact absurd rfl h

/-- **A finite value within a distance of a number.** -/
structure Near (x : Binary fmt) (q t : ℚ) : Prop where
  isFinite : x.isFinite
  abs_sub_le : |x.toRat - q| ≤ t

/-- A value at no distance from a number stands for it. -/
lemma Near.toRat_eq {x : Binary fmt} {q : ℚ} (h : x.Near q 0) : x.toRat = q := by
  have := abs_nonpos_iff.mp h.abs_sub_le
  linarith

/-- A value within a distance is within every larger one. -/
lemma Near.mono {x : Binary fmt} {q s t : ℚ} (h : x.Near q s) (hst : s ≤ t) : x.Near q t :=
  ⟨h.isFinite, h.abs_sub_le.trans hst⟩

variable [fmt.Valid]

/-- Zeros of both signs stand for zero. -/
lemma near_zero (s : Bool) : (zero s : Binary fmt).Near 0 0 := by
  rw [zero, ofRank, dif_pos (infinityRank_pos fmt)]
  exact ⟨rfl, by cases s <;> simp⟩

/-- A rank near enough to a quotient below the overflow bound belongs to a finite value that is as near.

**Proof sketch.** The number of the rank stays below the overflow bound, so the rank is below that of infinity and the
value is finite. Its distance is that of the rank, with the sign on both sides. -/
private lemma near_nearest_div (s : Bool) {num den : ℕ} {e : ℤ} {t : ℚ}
    (herr : |fmt.rankValue (fmt.nearestRank num den e) - num / den * 2 ^ e| ≤ t)
    (hbound : num / den * (2 : ℚ) ^ e + t < fmt.overflowBound) :
    (nearest s num den e : Binary fmt).Near
      (if s then -(num / den * 2 ^ e) else num / den * 2 ^ e) t := by
  have hlt : fmt.nearestRank num den e < fmt.infinityRank := by
    rw [← (rankValue_strictMono fmt).lt_iff_lt, rankValue_infinityRank]
    linarith [(abs_le.mp herr).2]
  have hval : (nearest s num den e : Binary fmt) = .finite s (fmt.nearestRank num den e) hlt := by
    rw [nearest, ofRank, dif_pos hlt]
  rw [hval]
  refine ⟨rfl, ?_⟩
  rw [toRat_finite]
  cases s with
  | false => exact herr
  | true =>
    rw [abs_sub_comm] at herr
    simpa only [if_true, neg_sub_neg] using herr

/-- A rank near enough to a number below the overflow bound belongs to a finite value that is as near. -/
private lemma near_nearest (s : Bool) {c : ℕ} {e : ℤ} {t : ℚ}
    (herr : |fmt.rankValue (fmt.nearestRank c 1 e) - c * 2 ^ e| ≤ t)
    (hbound : c * (2 : ℚ) ^ e + t < fmt.overflowBound) :
    (nearest s c 1 e : Binary fmt).Near (Exact.toRat (.finite s c e)) t := by
  have hone : (c / (1 : ℕ) : ℚ) = c := by rw [Nat.cast_one, div_one]
  have h : (nearest s c 1 e : Binary fmt).Near _ t :=
    near_nearest_div s (by rwa [hone]) (by rwa [hone])
  rw [hone] at h
  rw [Exact.toRat_finite]
  cases s <;> simpa using h

/-! ## One rounding -/

/-- **The value nearest to a number**, which is written as a quotient with a sign and a power of two. -/
def Rounds (x : Binary fmt) (q : ℚ) : Prop :=
  ∃ (s : Bool) (num den : ℕ) (e : ℤ), 0 < den ∧
    q = (if s then -(num / den * 2 ^ e : ℚ) else num / den * 2 ^ e) ∧ x = nearest s num den e

omit [fmt.Valid] in
/-- The size of a quotient with a sign. -/
private lemma abs_signed (s : Bool) (num den : ℕ) (e : ℤ) :
    |if s then -(num / den * 2 ^ e : ℚ) else num / den * 2 ^ e| = num / den * 2 ^ e := by
  have hnonneg : (0 : ℚ) ≤ num / den * 2 ^ e := by positivity
  cases s <;> simp [abs_of_nonneg hnonneg]

/-- **One rounding of a number below the overflow bound.** -/
theorem Rounds.near {x : Binary fmt} {q : ℚ} (h : x.Rounds q)
    (hbound : |q| + (fmt.unitRoundoff * |q| + fmt.underflowError) < fmt.overflowBound) :
    x.Near q (fmt.unitRoundoff * |q| + fmt.underflowError) := by
  obtain ⟨s, num, den, e, hden, rfl, rfl⟩ := h
  rw [abs_signed] at hbound ⊢
  exact near_nearest_div s (rankValue_nearestRank_error fmt _ _ hden) hbound

/-- **A number of the format is not rounded.** -/
theorem Rounds.near_of_representable {x : Binary fmt} {q : ℚ} (h : x.Rounds q)
    (hrep : fmt.Representable q) : x.Near q 0 := by
  obtain ⟨s, num, den, e, hden, rfl, rfl⟩ := h
  obtain ⟨hbound, m, j, hm, hj, habs⟩ := hrep
  rw [abs_signed] at hbound habs
  refine near_nearest_div s ?_ (by simpa using hbound)
  rw [rankValue_nearestRank_eq hden hm hj habs, habs, sub_self, abs_zero]

section Round

variable {x : Exact} (hx : x.isFinite)
include hx

omit [fmt.Valid] in
/-- An exact result is rounded once. -/
lemma rounds_round : (round x : Binary fmt).Rounds x.toRat := by
  obtain ⟨s, c, e, rfl⟩ := Exact.exists_eq_finite hx
  refine ⟨s, c, 1, e, Nat.one_pos, ?_, rfl⟩
  rw [Exact.toRat_finite]
  cases s <;> simp

/-- One rounding of a number that is counted in units of the format: there is no underflow. -/
lemma near_round_of_fits (hfits : x.Fits fmt)
    (hbound : |x.toRat| + fmt.unitRoundoff * |x.toRat| < fmt.overflowBound) :
    (round x : Binary fmt).Near x.toRat (fmt.unitRoundoff * |x.toRat|) := by
  obtain ⟨s, c, e, rfl⟩ := Exact.exists_eq_finite hx
  rw [Exact.abs_toRat_finite] at hbound ⊢
  exact near_nearest s (rankValue_nearestRank_error_of_whole hfits) hbound

/-- A number of the format is not rounded. -/
lemma near_round_of_representable (hrep : fmt.Representable x.toRat) :
    (round x : Binary fmt).Near x.toRat 0 :=
  (rounds_round hx).near_of_representable hrep

end Round

/-! ## Operations -/

section Operations

variable {x y z : Binary fmt}

omit [fmt.Valid] in
/-- A sum is rounded once. -/
theorem rounds_add (hx : x.isFinite) (hy : y.isFinite) : (x + y).Rounds (x.toRat + y.toRat) := by
  rw [← isFinite_exact] at hx hy
  have hround : (x + y).Rounds _ := rounds_round (Exact.isFinite_add hx hy)
  rwa [Exact.toRat_add hx hy] at hround

omit [fmt.Valid] in
/-- A product is rounded once. -/
theorem rounds_mul (hx : x.isFinite) (hy : y.isFinite) : (x * y).Rounds (x.toRat * y.toRat) := by
  rw [← isFinite_exact] at hx hy
  have hround : (x * y).Rounds _ := rounds_round (Exact.isFinite_mul hx hy)
  rwa [Exact.toRat_mul hx hy] at hround

omit [fmt.Valid] in
/-- A fused product and sum is rounded once. -/
theorem rounds_fma (hx : x.isFinite) (hy : y.isFinite) (hz : z.isFinite) :
    (fma x y z).Rounds (x.toRat * y.toRat + z.toRat) := by
  rw [← isFinite_exact] at hx hy hz
  have hmul := Exact.isFinite_mul hx hy
  have hround : (fma x y z).Rounds _ := rounds_round (Exact.isFinite_add hmul hz)
  rwa [Exact.toRat_add hmul hz, Exact.toRat_mul hx hy] at hround

/-- **The error of a sum.** Sums do not underflow. -/
theorem near_add (hx : x.isFinite) (hy : y.isFinite)
    (hbound : |x.toRat + y.toRat| + fmt.unitRoundoff * |x.toRat + y.toRat| < fmt.overflowBound) :
    (x + y).Near (x.toRat + y.toRat) (fmt.unitRoundoff * |x.toRat + y.toRat|) := by
  rw [← isFinite_exact] at hx hy
  have hsum : x.toRat + y.toRat = (x.exact.add y.exact).toRat := (Exact.toRat_add hx hy).symm
  rw [hsum] at hbound ⊢
  exact near_round_of_fits (Exact.isFinite_add hx hy)
    (Exact.fits_add hx hy x.fits_exact y.fits_exact) hbound

/-- **The error of a product.** -/
theorem near_mul (hx : x.isFinite) (hy : y.isFinite)
    (hbound : |x.toRat * y.toRat| +
      (fmt.unitRoundoff * |x.toRat * y.toRat| + fmt.underflowError) < fmt.overflowBound) :
    (x * y).Near (x.toRat * y.toRat)
      (fmt.unitRoundoff * |x.toRat * y.toRat| + fmt.underflowError) :=
  (rounds_mul hx hy).near hbound

/-- **The error of a fused product and sum**, rounded once. -/
theorem near_fma (hx : x.isFinite) (hy : y.isFinite) (hz : z.isFinite)
    (hbound : |x.toRat * y.toRat + z.toRat| + (fmt.unitRoundoff * |x.toRat * y.toRat + z.toRat| +
      fmt.underflowError) < fmt.overflowBound) :
    (fma x y z).Near (x.toRat * y.toRat + z.toRat)
      (fmt.unitRoundoff * |x.toRat * y.toRat + z.toRat| + fmt.underflowError) :=
  (rounds_fma hx hy hz).near hbound

end Operations

end Binary

end SparseDot
