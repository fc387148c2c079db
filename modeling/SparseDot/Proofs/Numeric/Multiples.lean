import SparseDot.Proofs.Numeric.Integer
import SparseDot.Proofs.Numeric.Monotone

set_option autoImplicit false

/-!
# Multiples of a value

Adding up copies of a value rounds nothing as long as all multiples on the way are numbers of the format, and then
it makes no difference in which order they are added. A single precision value leaves many bits of a double
precision one free, whatever its exponent is, and so does an integer of 32 bits. What is left is the sign of a zero:
a sum is the negative zero only if all of its terms are.

## Main definitions

* `SparseDot.Binary.IsValueOf` — the value of a number, which is not the negative zero.
* `SparseDot.Binary.HasMultiples` — values with multiples that are numbers of the format.

## Main results

* `SparseDot.Format.Representable.natCast_mul` — multiples of a narrow number in a wide format.
* `SparseDot.Binary.IsValueOf.unique` — a number has one value.
* `SparseDot.Binary.HasMultiples.near_add`, `SparseDot.Binary.HasMultiples.isValueOf_add` — adding multiples.
* `SparseDot.Binary.hasMultiples_convert`, `SparseDot.Binary.hasMultiples_ofInt` — values with many multiples.
-/

namespace SparseDot

open Format

/-- **Multiples of a narrow number in a wide format.** Each doubling of the factor takes one more bit.

**Proof sketch.** The coefficient grows by the factor, so by `spare` bits at most, for which the wide format has room.
The exponent stays, and the bounds say that the wide format has it and that there is no overflow. -/
theorem Format.Representable.natCast_mul {narrow wide : Format} {q : ℚ} (hq : narrow.Representable q) {spare k : ℕ}
    (hk : k ≤ 2 ^ spare) (hprecision : narrow.precision + spare ≤ wide.precision)
    (hmin : wide.minExponent ≤ narrow.minExponent)
    (hbound : spare + 2 ^ (narrow.exponentWidth - 1) ≤ 2 ^ (wide.exponentWidth - 1)) :
    wide.Representable (k * q) := by
  obtain ⟨hlt, m, j, hm, hj, habs⟩ := hq
  have hk' : (k : ℚ) ≤ 2 ^ spare := by exact_mod_cast hk
  have hmul : |k * q| = k * |q| := by rw [abs_mul, Nat.abs_cast]
  rw [Representable, hmul]
  refine ⟨?_, k * m, j, ?_, hmin.trans hj, by rw [habs, Nat.cast_mul, mul_assoc]⟩
  · calc (k : ℚ) * |q| ≤ 2 ^ spare * |q| := by gcongr
      _ < 2 ^ spare * narrow.overflowBound := by gcongr
      _ = 2 ^ (spare + 2 ^ (narrow.exponentWidth - 1)) := by rw [overflowBound, pow_add]
      _ ≤ wide.overflowBound := pow_le_pow_right₀ (by norm_num) hbound
  · calc k * m ≤ 2 ^ spare * m := Nat.mul_le_mul_right m hk
      _ < 2 ^ spare * 2 ^ narrow.precision := by gcongr
      _ = 2 ^ (narrow.precision + spare) := by rw [pow_add, mul_comm]
      _ ≤ 2 ^ wide.precision := Nat.pow_le_pow_right Nat.two_pos hprecision

namespace Binary

variable {fmt : Format} [fmt.Valid] {x y r : Binary fmt} {p q : ℚ}

/-! ## The value of a number -/

/-- **The value of a number**, which is not the negative zero. -/
structure IsValueOf (x : Binary fmt) (q : ℚ) : Prop where
  near : x.Near q 0
  not_isNegativeZero : ¬x.exact.IsNegativeZero

/-- The value of zero is the positive one. -/
lemma isValueOf_zero : (zero false : Binary fmt).IsValueOf 0 := ⟨near_zero false, not_isNegativeZero_zero⟩

omit [fmt.Valid] in
/-- Only zero has two values. -/
private lemma Near.isValueOf (h : x.Near q 0) (hq : q ≠ 0) : x.IsValueOf q :=
  ⟨h, fun hneg => hq (h.toRat_eq.symm.trans hneg.toRat_eq)⟩

/-- Zero has one value that is not negative. -/
private lemma IsValueOf.eq_zero (h : x.IsValueOf 0) : x = zero false := by
  obtain ⟨hnear, hsign⟩ := h
  cases x with
  | infinity s => cases hnear.isFinite
  | nan => cases hnear.isFinite
  | finite s r hr =>
    obtain rfl : r = 0 := by
      apply (rankValue_strictMono fmt).injective
      have hzero := hnear.toRat_eq
      rw [toRat_finite] at hzero
      cases s <;> simpa using hzero
    cases s with
    | false => exact (dif_pos hr).symm
    | true => exact absurd ⟨_, by rw [exact, coefficient, Nat.zero_sub]⟩ hsign

/-- **A number has one value.** -/
theorem IsValueOf.unique (hx : x.IsValueOf q) (hy : y.IsValueOf q) : x = y := by
  rcases eq_or_ne q 0 with rfl | hne
  · rw [hx.eq_zero, hy.eq_zero]
  · refine eq_of_toRat_eq hx.near.isFinite hy.near.isFinite ?_ ?_
    · rw [hx.near.toRat_eq, hy.near.toRat_eq]
    · rwa [hx.near.toRat_eq]

/-- Every number of the format has a value. -/
lemma exists_isValueOf (h : fmt.Representable q) : ∃ x : Binary fmt, x.IsValueOf q := by
  rcases eq_or_ne q 0 with rfl | hne
  · exact ⟨zero false, isValueOf_zero⟩
  · obtain ⟨x, hx⟩ := exists_near_of_representable h
    exact ⟨x, hx.isValueOf hne⟩

/-- A sum that is a number of the format is not rounded. -/
private lemma near_add_of_representable (hx : x.Near p 0) (hy : y.Near q 0) (h : fmt.Representable (p + q)) :
    (x + y).Near (p + q) 0 := by
  have hround := rounds_add hx.isFinite hy.isFinite
  rw [hx.toRat_eq, hy.toRat_eq] at hround
  exact hround.near_of_representable h

/-- A sum that is a number of the format is its value, unless it is a sum of two negative zeros. -/
private lemma isValueOf_add_of_representable (hx : x.Near p 0) (hy : y.Near q 0) (h : fmt.Representable (p + q))
    (hsign : ¬(x.exact.IsNegativeZero ∧ y.exact.IsNegativeZero)) : (x + y).IsValueOf (p + q) := by
  rcases eq_or_ne (p + q) 0 with hzero | hne
  · have hxf : x.exact.isFinite := (isFinite_exact x).trans hx.isFinite
    have hyf : y.exact.isFinite := (isFinite_exact y).trans hy.isFinite
    have hsum : (x.exact.add y.exact).toRat = (0 : ℤ) := by
      rw [Exact.toRat_add hxf hyf, Int.cast_zero, ← hzero, ← hx.toRat_eq, ← hy.toRat_eq]
      rfl
    have hcancel : x + y = ofInt 0 := round_eq_ofInt (Exact.isFinite_add hxf hyf)
      (fun hneg => hsign (hneg.of_add hxf hyf)) hsum (by simpa using representable_zero fmt)
    rw [hcancel, ofInt_zero, hzero]
    exact isValueOf_zero
  · exact (near_add_of_representable hx hy h).isValueOf hne

/-! ## Multiples -/

/-- **A value with multiples that are numbers of the format**, up to a limit. -/
structure HasMultiples (r : Binary fmt) (limit : ℕ) : Prop where
  isFinite : r.isFinite
  representable : ∀ k ≤ limit, fmt.Representable (k * r.toRat)

namespace HasMultiples

variable {limit i j : ℕ} (h : r.HasMultiples limit) (hx : x.Near (i * r.toRat) 0) (hy : y.Near (j * r.toRat) 0)
  (hij : i + j ≤ limit)
include h hx hy hij

/-- **The sum of two multiples is a multiple.** -/
theorem near_add : (x + y).Near ((i + j : ℕ) * r.toRat) 0 := by
  have hrep := h.representable (i + j) hij
  rw [Nat.cast_add, add_mul] at hrep ⊢
  exact near_add_of_representable hx hy hrep

/-- It is the value of the multiple, unless both terms are the negative zero. -/
theorem isValueOf_add (hsign : ¬(x.exact.IsNegativeZero ∧ y.exact.IsNegativeZero)) :
    (x + y).IsValueOf ((i + j : ℕ) * r.toRat) := by
  have hrep := h.representable (i + j) hij
  rw [Nat.cast_add, add_mul] at hrep ⊢
  exact isValueOf_add_of_representable hx hy hrep hsign

end HasMultiples

/-! ## Values with many multiples -/

/-- Single precision values become double precision ones as they are. -/
private lemma near_convert {x : Binary32} (hx : x.isFinite) : (convert x : Binary64).Near x.toRat 0 := by
  have hone : 1 ≤ 2 ^ 0 := le_rfl
  have hrep : double.Representable ((1 : ℕ) * x.toRat) :=
    (representable_toRat hx).natCast_mul hone (by decide) (by decide) (by decide)
  rw [Nat.cast_one, one_mul] at hrep
  exact near_round_of_representable ((isFinite_exact x).trans hx) hrep

/-- **A single precision value in double precision** has 29 bits to spare. -/
theorem hasMultiples_convert {x : Binary32} (hx : x.isFinite) : (convert x : Binary64).HasMultiples (2 ^ 29) where
  isFinite := (near_convert hx).isFinite
  representable k hk := by
    rw [(near_convert hx).toRat_eq]
    exact (representable_toRat hx).natCast_mul hk (by decide) (by decide) (by decide)

/-- **An integer of 32 bits in double precision** has 22 bits to spare. -/
theorem hasMultiples_ofInt {n : ℤ} (hn : |n| ≤ 2 ^ 31) : (ofInt n : Binary64).HasMultiples (2 ^ 22) := by
  have hnear : (ofInt n : Binary64).Near n 0 := near_ofInt (representable_double (hn.trans (by norm_num)))
  refine ⟨hnear.isFinite, fun k hk => ?_⟩
  have hmul : |(k * n : ℤ)| ≤ 2 ^ 53 := by
    have hk' : (k : ℤ) ≤ 2 ^ 22 := by exact_mod_cast hk
    calc |(k * n : ℤ)| = k * |n| := by rw [abs_mul, Nat.abs_cast]
      _ ≤ 2 ^ 22 * 2 ^ 31 := by gcongr
      _ = 2 ^ 53 := by norm_num
  have hrep := representable_double hmul
  rw [hnear.toRat_eq]
  exact_mod_cast hrep

end Binary

end SparseDot
