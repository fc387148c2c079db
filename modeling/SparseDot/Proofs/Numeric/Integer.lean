import SparseDot.Proofs.Numeric.Value

set_option autoImplicit false

/-!
# Integers in a binary format

An integer of at most `precision` bits is a number of the format, so an operation whose exact result is one
does not round. Its value is then `Binary.ofInt` of the integer, whatever the operands were, unless the
result is the negative zero; and sums stay clear of that as soon as one term does.

## Main results

* `SparseDot.Format.representable_intCast` — integers of at most `precision` bits are numbers of the format.
* `SparseDot.Binary.round_eq_ofInt` — an exact integer is rounded to `ofInt` of it.
* `SparseDot.Binary.ofInt_add_eq`, `SparseDot.Binary.fma_ofInt_eq` — adding an integer, or a product that is
  one, to an integer.
-/

namespace SparseDot

namespace Format

variable {fmt : Format} [fmt.Valid]

/-- **Integers of at most `precision` bits are numbers of the format.** The power of two just past them is
one as well: it has a single bit.

**Proof sketch.** Below `2 ^ precision` the size of the integer is a coefficient with the exponent zero. At `2 ^
precision` it is the coefficient one with the exponent `precision`. -/
theorem representable_intCast (hmin : fmt.minExponent ≤ 0)
    (hbound : (2 : ℚ) ^ fmt.precision < fmt.overflowBound) {n : ℤ} (hn : |n| ≤ 2 ^ fmt.precision) :
    fmt.Representable n := by
  have habs : |(n : ℚ)| = (n.natAbs : ℚ) := by
    rw [← Int.cast_abs, Int.abs_eq_natAbs, Int.cast_natCast]
  have hle : n.natAbs ≤ 2 ^ fmt.precision := by
    have : (n.natAbs : ℤ) ≤ ((2 ^ fmt.precision : ℕ) : ℤ) := by
      rw [← Int.abs_eq_natAbs]
      exact_mod_cast hn
    exact_mod_cast this
  have hle' : |(n : ℚ)| ≤ 2 ^ fmt.precision := by
    rw [habs]
    exact_mod_cast hle
  refine ⟨hle'.trans_lt hbound, ?_⟩
  rcases hle.lt_or_eq with hlt | heq
  · exact ⟨n.natAbs, 0, hlt, hmin, by rw [habs, zpow_zero, mul_one]⟩
  · refine ⟨1, fmt.precision, ?_, by omega, ?_⟩
    · exact Nat.one_lt_two_pow Valid.precision_pos.ne'
    · rw [habs, heq]
      simp

omit [fmt.Valid] in
/-- Zero is a number of every format. -/
lemma representable_zero (fmt : Format) : fmt.Representable 0 := by
  refine ⟨?_, 0, fmt.minExponent, by positivity, le_rfl, by simp⟩
  rw [abs_zero, overflowBound]
  positivity

/-- Powers of two are numbers of the format. -/
lemma representable_two_zpow {j : ℤ} (hmin : fmt.minExponent ≤ j) (hbound : (2 : ℚ) ^ j < fmt.overflowBound) :
    fmt.Representable (2 ^ j) := by
  have habs : |(2 : ℚ) ^ j| = 2 ^ j := abs_of_pos (by positivity)
  rw [Representable, habs]
  exact ⟨hbound, 1, j, Nat.one_lt_two_pow Valid.precision_pos.ne', hmin, by rw [Nat.cast_one, one_mul]⟩

/-- Integers of at most 53 bits are double precision numbers. -/
lemma representable_double {n : ℤ} (hn : |n| ≤ 2 ^ 53) : double.Representable n := by
  refine representable_intCast (by decide) ?_ hn
  exact pow_lt_pow_right₀ (by norm_num) (by decide)

/-- Integers of at most 24 bits are single precision numbers. -/
lemma representable_single {n : ℤ} (hn : |n| ≤ 2 ^ 24) : single.Representable n := by
  refine representable_intCast (by decide) ?_ hn
  norm_num [overflowBound, single]

end Format

namespace Exact

/-- The negative zero stands for zero. -/
lemma IsNegativeZero.toRat_eq {x : Exact} (h : x.IsNegativeZero) : x.toRat = 0 := by
  obtain ⟨e, rfl⟩ := h
  simp

end Exact

namespace Binary

open Format

variable {fmt : Format} [fmt.Valid] {m n : ℤ}

/-- **An exact integer is rounded to `ofInt` of it**, unless it is the negative zero.

**Proof sketch.** Both are numbers of the format, so both ranks have the absolute value of the integer, and
ranks with the same number are the same. -/
theorem round_eq_ofInt {x : Exact} (hx : x.isFinite) (hz : ¬x.IsNegativeZero)
    (hn : x.toRat = n) (hrep : fmt.Representable n) : (round x : Binary fmt) = ofInt n := by
  obtain ⟨s, c, e, rfl⟩ := Exact.exists_eq_finite hx
  obtain ⟨-, m, j, hm, hj, habs⟩ := hrep
  have hmag : (c : ℚ) * 2 ^ e = |(n : ℚ)| := by rw [← Exact.abs_toRat_finite s, hn]
  have hnat : (n.natAbs : ℚ) = |(n : ℚ)| := by
    rw [← Int.cast_abs, Int.abs_eq_natAbs, Int.cast_natCast]
  have hrank : fmt.nearestRank c 1 e = fmt.nearestRank n.natAbs 1 0 := by
    apply (rankValue_strictMono fmt).injective
    rw [rankValue_nearestRank_eq Nat.one_pos hm hj (by simpa [hmag] using habs),
      rankValue_nearestRank_eq Nat.one_pos hm hj (by simpa [hnat] using habs)]
  have hpow : (0 : ℚ) < 2 ^ e := by positivity
  have hsign : s = decide (n < 0) := by
    cases s with
    | false =>
      have : (0 : ℚ) ≤ n := by
        rw [← hn, Exact.toRat_finite]
        simp
        positivity
      simpa using this
    | true =>
      have hc : 0 < c := Nat.pos_of_ne_zero fun h => hz ⟨e, by rw [h]⟩
      have : (n : ℚ) < 0 := by
        rw [← hn, Exact.toRat_finite]
        simp
        positivity
      simpa using this
  rw [ofInt, Exact.ofInt, round, round, nearest, nearest, hrank, hsign]

/-- The value of an integer of the format is finite and is that integer. -/
lemma near_ofInt (hrep : fmt.Representable n) : (ofInt n : Binary fmt).Near n 0 := by
  have hval : (Exact.ofInt n).toRat = n := by
    rw [Exact.ofInt, Exact.toRat_natAbs, zpow_zero, mul_one]
  rw [← hval] at hrep ⊢
  exact near_round_of_representable rfl hrep

omit [fmt.Valid] in
/-- The value of zero is the positive one. -/
lemma ofInt_zero : (ofInt 0 : Binary fmt) = zero false := by
  simp [ofInt, Exact.ofInt, round, nearest, zero]

omit [fmt.Valid] in
/-- The positive zero is not the negative one. -/
lemma not_isNegativeZero_zero : ¬(zero false : Binary fmt).exact.IsNegativeZero := by
  rintro ⟨e, h⟩
  unfold zero ofRank at h
  split at h <;> simp [exact] at h

/-- The value of an integer is not the negative zero. -/
lemma not_isNegativeZero_ofInt (hrep : fmt.Representable n) :
    ¬(ofInt n : Binary fmt).exact.IsNegativeZero := by
  intro h
  have hn : n = 0 := by exact_mod_cast (near_ofInt hrep).toRat_eq.symm.trans h.toRat_eq
  rw [hn, ofInt_zero] at h
  exact not_isNegativeZero_zero h

section Operations

variable {x y : Binary fmt}

/-- **Adding an integer to an integer.** The first term may be the negative zero.

**Proof sketch.** The exact sum is the integer, and it is not the negative zero, since the second term is not. So it is
rounded to the value of the integer. -/
theorem add_ofInt_eq (hx : x.isFinite) (hm : x.toRat = m) (hn : fmt.Representable n)
    (hsum : fmt.Representable (m + n : ℤ)) : x + ofInt n = ofInt (m + n) := by
  have hy := (near_ofInt hn).isFinite
  rw [← isFinite_exact] at hx hy
  refine round_eq_ofInt (Exact.isFinite_add hx hy) ?_ ?_ hsum
  · exact fun h => not_isNegativeZero_ofInt hn (h.of_add hx hy).2
  · rw [Exact.toRat_add hx hy, Int.cast_add, ← hm, ← (near_ofInt hn).toRat_eq]
    rfl

/-- **Adding an integer to an integer.** The second term may be the negative zero. -/
theorem ofInt_add_eq (hm : fmt.Representable m) (hx : x.isFinite) (hn : x.toRat = n)
    (hsum : fmt.Representable (m + n : ℤ)) : ofInt m + x = ofInt (m + n) := by
  have hy := (near_ofInt hm).isFinite
  rw [← isFinite_exact] at hx hy
  refine round_eq_ofInt (Exact.isFinite_add hy hx) ?_ ?_ hsum
  · exact fun h => not_isNegativeZero_ofInt hm (h.of_add hy hx).1
  · rw [Exact.toRat_add hy hx, Int.cast_add, ← hn, ← (near_ofInt hm).toRat_eq]
    rfl

/-- **Adding a product to an integer**, with one rounding. -/
theorem fma_ofInt_eq (hx : x.isFinite) (hy : y.isFinite) (hm : x.toRat * y.toRat = m)
    (hn : fmt.Representable n) (hsum : fmt.Representable (m + n : ℤ)) :
    fma x y (ofInt n) = ofInt (m + n) := by
  have hz := (near_ofInt hn).isFinite
  rw [← isFinite_exact] at hx hy hz
  have hmul := Exact.isFinite_mul hx hy
  refine round_eq_ofInt (Exact.isFinite_add hmul hz) ?_ ?_ hsum
  · exact fun h => not_isNegativeZero_ofInt hn (h.of_add hmul hz).2
  · rw [Exact.toRat_add hmul hz, Exact.toRat_mul hx hy, Int.cast_add, ← hm,
      ← (near_ofInt hn).toRat_eq]
    rfl

/-- A product that is an integer is not rounded, though it may be the negative zero. -/
lemma near_mul_of_eq (hx : x.isFinite) (hy : y.isFinite) (hm : x.toRat * y.toRat = m)
    (hrep : fmt.Representable m) : (x * y).Near m 0 := by
  rw [← isFinite_exact] at hx hy
  have hval : (x.exact.mul y.exact).toRat = m := (Exact.toRat_mul hx hy).trans hm
  rw [← hval] at hrep ⊢
  exact near_round_of_representable (Exact.isFinite_mul hx hy) hrep

end Operations

end Binary

end SparseDot
