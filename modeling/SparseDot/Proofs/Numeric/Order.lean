import Mathlib.Algebra.Order.Group.MinMax
import SparseDot.Proofs.Numeric.Value

set_option autoImplicit false

/-!
# The order of values

Values are compared by their places, which are signed ranks. The number at a place grows with the place, so
finite values compare as their numbers do, zeros of both signs included. The larger and the smaller of two
values are then those of their numbers, and bringing a value between zero and a bound is a matter of numbers
too; infinities are brought to the ends, and NaN to zero.

## Main definitions

* `SparseDot.Format.placeValue` — the number at a place.
* `SparseDot.Binary.clampRat` — the number that a value is brought to between zero and a bound.

## Main results

* `SparseDot.Format.placeValue_lt_placeValue_iff` — places are ordered as their numbers.
* `SparseDot.Binary.lt_iff`, `SparseDot.Binary.le_iff` — finite values are ordered as their numbers.
* `SparseDot.Binary.near_clamp` — bringing a value between zero and a bound.
* `SparseDot.Binary.clampRat_le_clampRat`, `SparseDot.Binary.clampRat_div_le_clampRat_div` — what that does to
  the order of values, and to the order of bounds.
-/

namespace SparseDot

namespace Format

variable (fmt : Format)

/-- The number at a place. -/
def placeValue (place : ℤ) : ℚ :=
  if place < 0 then -fmt.rankValue place.natAbs else fmt.rankValue place.natAbs

variable [fmt.Valid]

/-- The number of a rank is not negative. -/
lemma rankValue_nonneg (r : ℕ) : 0 ≤ fmt.rankValue r := by
  rw [← rankValue_zero fmt]
  exact (rankValue_strictMono fmt).monotone (Nat.zero_le r)

/-- The number at a place grows with the place.

**Proof sketch.** Among places that are not negative, and among negative ones, this is the order of ranks. A negative
place has a negative number, and the others do not. -/
theorem placeValue_lt_placeValue {m n : ℤ} (hmn : m < n) : fmt.placeValue m < fmt.placeValue n := by
  have hmono := rankValue_strictMono fmt
  unfold placeValue
  split_ifs with hm hn hn
  · exact neg_lt_neg (hmono (by omega))
  · have hpos : 0 < fmt.rankValue m.natAbs := by
      rw [← rankValue_zero fmt]
      exact hmono (by omega)
    linarith [rankValue_nonneg fmt n.natAbs]
  · omega
  · exact hmono (by omega)

/-- **Places are ordered as their numbers.** -/
theorem placeValue_lt_placeValue_iff {m n : ℤ} : fmt.placeValue m < fmt.placeValue n ↔ m < n := by
  refine ⟨fun h => Int.not_le.mp fun hnm => ?_, placeValue_lt_placeValue fmt⟩
  rcases Int.lt_or_eq_of_le hnm with hlt | rfl
  · exact lt_asymm h (placeValue_lt_placeValue fmt hlt)
  · exact lt_irrefl _ h

/-- Places are ordered as their numbers, also when they may be equal. -/
private lemma placeValue_le_placeValue_iff {m n : ℤ} : fmt.placeValue m ≤ fmt.placeValue n ↔ m ≤ n := by
  rw [← not_lt, placeValue_lt_placeValue_iff, Int.not_lt]

end Format

namespace Binary

open Format

variable {fmt : Format} [fmt.Valid] {x y : Binary fmt}

omit [fmt.Valid] in
/-- A finite value has a place between those of the infinities, and it is the number at that place. -/
lemma exists_place (hx : x.isFinite) : ∃ n : ℤ, x.place? = some n ∧ x.toRat = fmt.placeValue n ∧
    -fmt.infinityRank < n ∧ n < fmt.infinityRank := by
  cases x with
  | finite s r h =>
    refine ⟨_, rfl, ?_, by cases s <;> simp <;> omega, by cases s <;> simp <;> omega⟩
    rw [toRat_finite, placeValue]
    cases s with
    | false => simp
    | true =>
      rcases Nat.eq_zero_or_pos r with rfl | hr
      · simp
      · simp [hr]
  | infinity s => cases hx
  | nan => cases hx

/-- **Finite values are ordered as their numbers.** -/
theorem lt_iff (hx : x.isFinite) (hy : y.isFinite) : x.lt y ↔ x.toRat < y.toRat := by
  obtain ⟨m, hm, hxm, -⟩ := exists_place hx
  obtain ⟨n, hn, hyn, -⟩ := exists_place hy
  rw [hxm, hyn, placeValue_lt_placeValue_iff, lt, hm, hn]
  exact decide_eq_true_iff

/-- **Finite values are ordered as their numbers.** -/
theorem le_iff (hx : x.isFinite) (hy : y.isFinite) : x.le y ↔ x.toRat ≤ y.toRat := by
  obtain ⟨m, hm, hxm, -⟩ := exists_place hx
  obtain ⟨n, hn, hyn, -⟩ := exists_place hy
  rw [hxm, hyn, placeValue_le_placeValue_iff, le, hm, hn]
  exact decide_eq_true_iff

omit [fmt.Valid] in
/-- A smaller value is at most as large. -/
lemma le_of_lt (h : x.lt y) : x.le y := by
  rw [lt] at h
  rw [le]
  split at h
  · exact decide_eq_true (of_decide_eq_true h).le
  · cases h

omit [fmt.Valid] in
/-- Finite values are numbers. -/
lemma isNaN_eq_false (hx : x.isFinite) : x.isNaN = false := by
  cases x with
  | finite s r h => rfl
  | infinity s => rfl
  | nan => cases hx

omit [fmt.Valid] in
/-- Every finite value is below the positive infinity. -/
lemma lt_infinity (hx : x.isFinite) : x.lt (infinity false) := by
  obtain ⟨n, hn, -, -, hlt⟩ := exists_place hx
  rw [lt, hn]
  simpa [place?] using hlt

omit [fmt.Valid] in
/-- No finite value is above the positive infinity. -/
lemma infinity_lt_eq_false (hx : x.isFinite) : (infinity false).lt x = false := by
  obtain ⟨n, hn, -, -, hlt⟩ := exists_place hx
  rw [lt, hn]
  simpa [place?] using hlt.le

omit [fmt.Valid] in
/-- Every finite value is above the negative infinity. -/
private lemma negInfinity_lt (hx : x.isFinite) : (infinity true).lt x := by
  obtain ⟨n, hn, -, hlt, -⟩ := exists_place hx
  rw [lt, hn]
  simpa [place?] using hlt

/-! ## The larger and the smaller value -/

/-- The larger of two finite values. -/
lemma near_max (hx : x.isFinite) (hy : y.isFinite) : (x.max y).Near (Max.max x.toRat y.toRat) 0 := by
  rw [max, isNaN_eq_false hx, if_neg Bool.false_ne_true]
  split_ifs with h
  · rw [max_eq_right ((lt_iff hx hy).mp h).le]
    exact ⟨hy, by simp⟩
  · rw [max_eq_left (not_lt.mp ((lt_iff hx hy).not.mp h))]
    exact ⟨hx, by simp⟩

/-- The smaller of two finite values. -/
private lemma near_min (hx : x.isFinite) (hy : y.isFinite) : (x.min y).Near (Min.min x.toRat y.toRat) 0 := by
  rw [min, isNaN_eq_false hx, if_neg Bool.false_ne_true]
  split_ifs with h
  · rw [min_eq_right ((lt_iff hy hx).mp h).le]
    exact ⟨hy, by simp⟩
  · rw [min_eq_left (not_lt.mp ((lt_iff hy hx).not.mp h))]
    exact ⟨hx, by simp⟩

omit [fmt.Valid] in
/-- **The number that a value is brought to** between zero and a bound. NaN is brought to zero. -/
def clampRat (bound : ℚ) : Binary fmt → ℚ
  | .finite s r h => Max.max 0 (Min.min (finite s r h).toRat bound)
  | .infinity s => if s then 0 else bound
  | .nan => 0

omit [fmt.Valid] in
/-- What a value is brought to lies between zero and the bound. -/
lemma clampRat_bounds {bound : ℚ} (h : 0 ≤ bound) (x : Binary fmt) :
    0 ≤ x.clampRat bound ∧ x.clampRat bound ≤ bound := by
  cases x with
  | finite s r hr => exact ⟨le_max_left _ _, max_le h (min_le_right _ _)⟩
  | infinity s => cases s <;> simp [clampRat, h]
  | nan => exact ⟨le_rfl, h⟩

/-- **A value is brought between zero and a bound** by taking the larger one with zero, and then the smaller
one with the bound.

**Proof sketch.** A finite value is its number, for which taking the larger and then the smaller one is what `clampRat`
says. The positive infinity is above the bound, the negative one below zero, and NaN gives way to zero. -/
theorem near_clamp {ceiling : Binary fmt} (hceiling : ceiling.isFinite) (h : 0 ≤ ceiling.toRat)
    (x : Binary fmt) : ((x.max (zero false)).min ceiling).Near (x.clampRat ceiling.toRat) 0 := by
  have hzero : (zero false : Binary fmt).Near 0 0 := near_zero false
  have hbottom : ((zero false).min ceiling).Near 0 0 := by
    have hmin := near_min hzero.isFinite hceiling
    rwa [hzero.toRat_eq, min_eq_left h] at hmin
  cases hx : x with
  | finite s r hr =>
    have hfinite : (finite s r hr).isFinite := rfl
    have hmax := near_max hfinite hzero.isFinite
    have hmin := near_min hmax.isFinite hceiling
    rwa [hmax.toRat_eq, hzero.toRat_eq, max_comm, min_max_distrib_right, min_eq_left h] at hmin
  | infinity s =>
    cases s with
    | false =>
      have hmax : (infinity false).max (zero false) = (infinity false : Binary fmt) := by
        rw [max, infinity_lt_eq_false hzero.isFinite]
        rfl
      have hmin : (infinity false).min ceiling = ceiling := by
        rw [min, lt_infinity hceiling]
        rfl
      rw [hmax, hmin]
      exact ⟨hceiling, by simp [clampRat]⟩
    | true =>
      have hmax : (infinity true).max (zero false) = (zero false : Binary fmt) := by
        rw [max, negInfinity_lt hzero.isFinite]
        rfl
      rw [hmax]
      exact hbottom
  | nan => exact hbottom

omit [fmt.Valid] in
/-- Comparing two values compares their places. -/
private lemma exists_place_of_le (h : x.le y) :
    ∃ m n : ℤ, x.place? = some m ∧ y.place? = some n ∧ m ≤ n := by
  rw [le] at h
  split at h
  · exact ⟨_, _, ‹_›, ‹_›, of_decide_eq_true h⟩
  · cases h

/-- What a value is brought to depends on the number at its place, where an infinity is as good as the
overflow bound.

**Proof sketch.** A finite value has the number at its place. An infinity is brought to the bound or to zero, and so is
the overflow bound with its sign, which stands at the place of the infinity. -/
private lemma clampRat_eq_of_place {bound : ℚ} (hbound₀ : 0 ≤ bound) (hbound : bound ≤ fmt.overflowBound) {n : ℤ}
    (hn : x.place? = some n) :
    x.clampRat bound = Max.max 0 (Min.min (fmt.placeValue n) bound) := by
  cases x with
  | nan => cases hn
  | finite s r h =>
    obtain ⟨m, hm, hval, -⟩ := exists_place (x := finite s r h) rfl
    obtain rfl : m = n := Option.some.inj (hm.symm.trans hn)
    rw [clampRat, hval]
  | infinity s =>
    obtain rfl := Option.some.inj hn
    have hpos : 0 ≤ fmt.overflowBound := hbound₀.trans hbound
    have hrank := infinityRank_pos fmt
    cases s with
    | false =>
      have hvalue : fmt.placeValue fmt.infinityRank = fmt.overflowBound := by
        simp [placeValue, rankValue_infinityRank]
      simp [clampRat, hvalue, hbound, hbound₀]
    | true =>
      have hvalue : fmt.placeValue (-fmt.infinityRank) = -fmt.overflowBound := by
        simp [placeValue, rankValue_infinityRank, hrank]
      simp only [clampRat, if_true, hvalue]
      exact (max_eq_left (min_le_of_left_le (neg_nonpos.mpr hpos))).symm

/-- A larger value is brought to a larger number.

**Proof sketch.** Both values are brought to what the numbers at their places are brought to, and places are ordered as
their numbers. -/
theorem clampRat_le_clampRat {bound : ℚ} (hbound₀ : 0 ≤ bound) (hbound : bound ≤ fmt.overflowBound)
    (h : x.le y) : x.clampRat bound ≤ y.clampRat bound := by
  obtain ⟨m, n, hm, hn, hmn⟩ := exists_place_of_le h
  rw [clampRat_eq_of_place hbound₀ hbound hm, clampRat_eq_of_place hbound₀ hbound hn]
  exact max_le_max_left 0 (min_le_min_right bound ((placeValue_le_placeValue_iff fmt).mpr hmn))

/-- Nothing is left of a value that is at most zero. -/
lemma clampRat_eq_zero {bound : ℚ} (hbound₀ : 0 ≤ bound) (hbound : bound ≤ fmt.overflowBound)
    (h : x.le (zero false)) : x.clampRat bound = 0 := by
  have hzero : (zero false : Binary fmt).clampRat bound = 0 := by
    rw [zero, ofRank, dif_pos (infinityRank_pos fmt)]
    simp [clampRat, hbound₀]
  exact le_antisymm ((clampRat_le_clampRat hbound₀ hbound h).trans_eq hzero) (clampRat_bounds hbound₀ x).1

/-- A value that is at least the bound is brought to it. -/
lemma clampRat_eq_toRat (hx : x.isFinite) (hpos : 0 ≤ x.toRat) (hbound : x.toRat ≤ fmt.overflowBound)
    (h : x.le y) : y.clampRat x.toRat = x.toRat := by
  have hself : x.clampRat x.toRat = x.toRat := by
    cases x with
    | finite s r hr => rw [clampRat, min_self, max_eq_right hpos]
    | infinity s => cases hx
    | nan => cases hx
  exact le_antisymm (clampRat_bounds hpos y).2 (hself.ge.trans (clampRat_le_clampRat hpos hbound h))

omit [fmt.Valid] in
/-- The part of a bound that a value is brought to shrinks when the bound grows.

**Proof sketch.** Infinities and NaN give the same part of every bound. A negative number gives none. A positive one
gives the smaller one of itself divided by the bound, which shrinks, and of one. -/
theorem clampRat_div_le_clampRat_div {a b : ℚ} (ha : 0 < a) (hab : a ≤ b) (x : Binary fmt) :
    x.clampRat b / b ≤ x.clampRat a / a := by
  have hb : 0 < b := ha.trans_le hab
  cases x with
  | nan => simp [clampRat]
  | infinity s => cases s <;> simp [clampRat, ha.ne', hb.ne']
  | finite s r h =>
    set v := (finite s r h).toRat with hv
    simp only [clampRat, ← hv]
    rcases le_total v 0 with hneg | hpos
    · rw [max_eq_left (min_le_of_left_le hneg), max_eq_left (min_le_of_left_le hneg), zero_div, zero_div]
    · rw [max_eq_right (le_min hpos hb.le), max_eq_right (le_min hpos ha.le), ← min_div_div_right hb.le,
        ← min_div_div_right ha.le, div_self hb.ne', div_self ha.ne']
      gcongr

end Binary

end SparseDot
