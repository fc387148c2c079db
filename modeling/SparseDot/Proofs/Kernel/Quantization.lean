import SparseDot.Kernel.Quantize
import SparseDot.Proofs.Kernel.Bytes
import SparseDot.Proofs.Numeric.Order
import SparseDot.Proofs.Numeric.Quotient

set_option autoImplicit false

/-!
# How far a product of codes is from the product of the values

A code stands for its share of the ceiling. It is off by a half, from rounding to an integer, and by the
little that two more roundings cost. A product of two codes is then off by a part of `1 / 127` of the product
of the ceilings, and the errors of the products add up. The sum of the products of codes is exact, because
codes are not negative and small; what is left are the roundings of the final scaling, which come to a
small factor.

## Main definitions

* `SparseDot.Kernel.codeError` — how far a code is from the exact share.
* `SparseDot.Kernel.clampedSum` — the exact product of the values, each brought between zero and its ceiling.

## Main results

* `SparseDot.Kernel.quantize_bounds` — the error of a code, which is never negative.
* `SparseDot.Kernel.abs_byteSum_sub_clampedSum_le` — the error of a sum of products of codes.
* `SparseDot.Kernel.dequantize_within` — the error of the scaling.
* `SparseDot.Kernel.dequantize_near_clampedSum` — the error of the estimate.
-/

namespace SparseDot.Kernel

open Format Binary

/-! ## Codes -/

/-- The largest code, as a value. -/
lemma near_maxCode : (Binary.ofNat maxCode : Binary32).Near 127 0 :=
  near_ofInt (representable_single (by norm_num : |(127 : ℤ)| ≤ 2 ^ 24))

/-- **How far a code is from the exact share** of the ceiling, counted in codes. -/
def codeError : ℚ := 1 / 2 + 2 ^ (-16 : ℤ)

section Code

variable {ceiling : Binary32} (hpos : 0 < ceiling.toRat)
include hpos

/-- The exact share of the ceiling is at most one. -/
private lemma share_bounds (value : Binary32) : 0 ≤ value.clampRat ceiling.toRat / ceiling.toRat ∧
    value.clampRat ceiling.toRat / ceiling.toRat ≤ 1 := by
  obtain ⟨hlow, hhigh⟩ := clampRat_bounds hpos.le value
  exact ⟨div_nonneg hlow hpos.le, (div_le_one hpos).mpr hhigh⟩

variable (hceiling : ceiling.isFinite)
include hceiling

/-- The share of the ceiling is off by one rounding of a number of at most one.

**Proof sketch.** The value that was brought under the ceiling is a number, and its quotient by the ceiling is rounded
once. As the share is at most one, the error is at most that of rounding one. -/
lemma near_quotient (value : Binary32) :
    ((value.max (zero false)).min ceiling / ceiling).Near
      (value.clampRat ceiling.toRat / ceiling.toRat) (2 ^ (-24 : ℤ) + 2 ^ (-150 : ℤ)) := by
  obtain ⟨hshare₀, hshare₁⟩ := share_bounds hpos value
  have hclamp := near_clamp hceiling hpos.le value
  have hdiv := near_div hclamp.isFinite hceiling hpos.ne'
  rw [hclamp.toRat_eq, abs_of_nonneg hshare₀, unitRoundoff_single, underflowError_single,
    overflowBound_single] at hdiv
  refine (hdiv ?_).mono ?_
  · calc _ ≤ (1 : ℚ) + (2 ^ (-24 : ℤ) * 1 + 2 ^ (-150 : ℤ)) := by gcongr
      _ < 2 ^ 128 := by norm_num
  · calc _ ≤ (2 : ℚ) ^ (-24 : ℤ) * 1 + 2 ^ (-150 : ℤ) := by gcongr
      _ = 2 ^ (-24 : ℤ) + 2 ^ (-150 : ℤ) := by rw [mul_one]

/-- **The share of the ceiling, counted in codes**, before it is rounded to an integer. The largest code
multiplies the error of the share, and there is one rounding of a number that is hardly larger than `127`.

**Proof sketch.** The quotient is off by the error of the share, which the product with the largest code multiplies by
`127`. The product is at most `128`, so rounding it adds little more. -/
theorem near_share (value : Binary32) :
    ((value.max (zero false)).min ceiling / ceiling * Binary.ofNat maxCode).Near
      (127 * (value.clampRat ceiling.toRat / ceiling.toRat)) (2 ^ (-16 : ℤ)) := by
  obtain ⟨hshare₀, hshare₁⟩ := share_bounds hpos value
  have hquotient := near_quotient hpos hceiling value
  set share := value.clampRat ceiling.toRat / ceiling.toRat
  set quotient := (value.max (zero false)).min ceiling / ceiling
  have hproduct : |quotient.toRat * 127| ≤ 128 := by
    obtain ⟨hbelow, habove⟩ := abs_le.mp hquotient.abs_sub_le
    norm_num at hbelow habove
    rw [abs_le]
    constructor <;> linarith
  have hmul := near_mul hquotient.isFinite near_maxCode.isFinite
  rw [near_maxCode.toRat_eq, unitRoundoff_single, underflowError_single, overflowBound_single] at hmul
  replace hmul := hmul (by
    calc _ ≤ (128 : ℚ) + (2 ^ (-24 : ℤ) * 128 + 2 ^ (-150 : ℤ)) := by gcongr
      _ < 2 ^ 128 := by norm_num)
  refine ⟨hmul.isFinite, ?_⟩
  calc _ = |((quotient * Binary.ofNat maxCode).toRat - quotient.toRat * 127) +
        (quotient.toRat - share) * 127| := by ring_nf
    _ ≤ (2 ^ (-24 : ℤ) * |quotient.toRat * 127| + 2 ^ (-150 : ℤ)) +
        |quotient.toRat - share| * 127 := by
      refine (abs_add_le _ _).trans (add_le_add hmul.abs_sub_le ?_)
      rw [abs_mul, abs_of_nonneg (by norm_num : (0 : ℚ) ≤ 127)]
    _ ≤ (2 ^ (-24 : ℤ) * 128 + 2 ^ (-150 : ℤ)) + (2 ^ (-24 : ℤ) + 2 ^ (-150 : ℤ)) * 127 := by
      gcongr
      exact hquotient.abs_sub_le
    _ ≤ 2 ^ (-16 : ℤ) := by norm_num

/-- The code is the integer nearest to the share, if that is a code. -/
private lemma toInt_quantize {value : Binary32} {n : ℤ} (hn₀ : 0 ≤ n) (hn₁ : n ≤ 127)
    (hn : ((value.max (zero false)).min ceiling / ceiling * Binary.ofNat maxCode).nearestInt? = some n) :
    (quantize value ceiling).toInt = n := by
  have hle : ¬ceiling.le (zero false) := by
    rw [le_iff hceiling (near_zero false).isFinite, (near_zero false).toRat_eq]
    exact hpos.not_ge
  rw [quantize, isNaN_eq_false hceiling, Bool.false_or, if_neg hle]
  dsimp only
  rw [saturate_eq hn (by omega) hn₁]
  exact Int8.toInt_ofInt_of_le (by omega) (by omega)

/-- The share, counted in codes, has a nearest integer between `0` and `127`.

**Proof sketch.** The integer is off by one half and by the error of the share, which is less than one together. So it
is more than `-1` and less than `128`. -/
private lemma exists_code (value : Binary32) : ∃ n : ℤ,
    ((value.max (zero false)).min ceiling / ceiling * Binary.ofNat maxCode).nearestInt? = some n ∧
      0 ≤ n ∧ n ≤ 127 ∧ |(n : ℚ) - 127 * (value.clampRat ceiling.toRat / ceiling.toRat)| ≤ codeError := by
  obtain ⟨hshare₀, hshare₁⟩ := share_bounds hpos value
  have hnear := near_share hpos hceiling value
  obtain ⟨n, hn, hround⟩ := exists_nearestInt hnear.isFinite
  have herror : |(n : ℚ) - 127 * (value.clampRat ceiling.toRat / ceiling.toRat)| ≤ codeError :=
    (abs_sub_le _ _ _).trans (add_le_add hround hnear.abs_sub_le)
  have hsmall : codeError < 1 := by norm_num [codeError]
  obtain ⟨hbelow, habove⟩ := abs_le.mp herror
  have hn₀ : -1 < n := by
    have : (-1 : ℚ) < n := by linarith
    exact_mod_cast this
  have hn₁ : n < 128 := by
    have : (n : ℚ) < 128 := by linarith
    exact_mod_cast this
  exact ⟨n, hn, by omega, by omega, herror⟩

/-- **The code is the integer nearest to the share**, counted in codes. -/
theorem nearestInt_eq_quantize (value : Binary32) :
    ((value.max (zero false)).min ceiling / ceiling * Binary.ofNat maxCode).nearestInt? =
      some (quantize value ceiling).toInt := by
  obtain ⟨n, hn, hn₀, hn₁, -⟩ := exists_code hpos hceiling value
  rw [toInt_quantize hpos hceiling hn₀ hn₁ hn, hn]

/-- **The error of a code**, which is never negative. -/
theorem quantize_bounds (value : Binary32) :
    0 ≤ (quantize value ceiling).toInt ∧
      |((quantize value ceiling).toInt : ℚ) - 127 * (value.clampRat ceiling.toRat / ceiling.toRat)| ≤
        codeError := by
  obtain ⟨n, hn, hn₀, hn₁, herror⟩ := exists_code hpos hceiling value
  rw [toInt_quantize hpos hceiling hn₀ hn₁ hn]
  exact ⟨hn₀, herror⟩

end Code

/-! ## Sums of products of codes -/

/-- **The exact product of the values**, each brought between zero and its ceiling. -/
def clampedSum (ceiling₁ ceiling₂ : ℚ) (ts : List (Binary32 × Binary32)) : ℚ :=
  (ts.map fun t => t.1.clampRat ceiling₁ * t.2.clampRat ceiling₂).sum

/-- The codes of a pair of values. -/
def codes (ceiling₁ ceiling₂ : Binary32) (t : Binary32 × Binary32) : Int8 × Int8 :=
  (quantize t.1 ceiling₁, quantize t.2 ceiling₂)

/-- There is a code for every value. -/
lemma size_quantizeAll (values : Array Binary32) (ceiling : Binary32) :
    (quantizeAll values ceiling).size = values.size :=
  Array.size_map

/-- The terms of a product of codes are the codes of the terms. -/
private lemma terms_quantizeAll {tokens : Array Int16} {weights dense : Array Binary32}
    (enough : tokens.size ≤ weights.size) (ceiling₁ ceiling₂ : Binary32) (start : ℕ) :
    terms tokens (quantizeAll weights ceiling₁) (quantizeAll dense ceiling₂)
      (enough.trans (size_quantizeAll weights ceiling₁).ge) start =
      (terms tokens weights dense enough start).map (codes ceiling₁ ceiling₂) :=
  terms_map enough _ _ start

section Products

variable {ceiling₁ ceiling₂ : Binary32} (hpos₁ : 0 < ceiling₁.toRat) (h₁ : ceiling₁.isFinite)
  (hpos₂ : 0 < ceiling₂.toRat) (h₂ : ceiling₂.isFinite)
include hpos₁ h₁ hpos₂ h₂

/-- No code of the terms is negative. -/
lemma codes_nonneg (ts : List (Binary32 × Binary32)) :
    ∀ t ∈ ts.map (codes ceiling₁ ceiling₂), 0 ≤ t.1.toInt ∧ 0 ≤ t.2.toInt := by
  intro t ht
  obtain ⟨v, -, rfl⟩ := List.mem_map.mp ht
  exact ⟨(quantize_bounds hpos₁ h₁ v.1).1, (quantize_bounds hpos₂ h₂ v.2).1⟩

/-- **The error of one product of codes**, counted in products of codes.

**Proof sketch.** Replace one factor after the other. The second one is off by the error of a code while the first is
at most `127`, and the first one is off while the exact share of the second, counted in codes, is at most `127`. -/
theorem abs_byteProduct_sub_le (t : Binary32 × Binary32) :
    |(byteProduct (codes ceiling₁ ceiling₂ t) : ℚ) -
        127 ^ 2 * (t.1.clampRat ceiling₁.toRat / ceiling₁.toRat *
          (t.2.clampRat ceiling₂.toRat / ceiling₂.toRat))| ≤ 2 * 127 * codeError := by
  obtain ⟨hm₀, hm⟩ := quantize_bounds hpos₁ h₁ t.1
  obtain ⟨hn₀, hn⟩ := quantize_bounds hpos₂ h₂ t.2
  have hm₁ : |((quantize t.1 ceiling₁).toInt : ℚ)| ≤ 127 := by
    rw [← Int.cast_abs, abs_of_nonneg hm₀]
    exact_mod_cast Int.lt_add_one_iff.mp (quantize t.1 ceiling₁).toInt_lt
  have hshare : |127 * (t.2.clampRat ceiling₂.toRat / ceiling₂.toRat)| ≤ 127 := by
    obtain ⟨hshare₀, hshare₁⟩ := share_bounds hpos₂ t.2
    rw [abs_of_nonneg (by positivity)]
    linarith
  set m := ((quantize t.1 ceiling₁).toInt : ℚ)
  set n := ((quantize t.2 ceiling₂).toInt : ℚ)
  set p := t.1.clampRat ceiling₁.toRat / ceiling₁.toRat
  set q := t.2.clampRat ceiling₂.toRat / ceiling₂.toRat
  have hproduct : (byteProduct (codes ceiling₁ ceiling₂ t) : ℚ) = m * n := Int.cast_mul _ _
  rw [hproduct]
  calc |m * n - 127 ^ 2 * (p * q)| = |m * (n - 127 * q) + (m - 127 * p) * (127 * q)| := by ring_nf
    _ ≤ |m| * |n - 127 * q| + |m - 127 * p| * |127 * q| := by
      rw [← abs_mul, ← abs_mul]
      exact abs_add_le _ _
    _ ≤ 127 * codeError + codeError * 127 := by
      have : 0 ≤ codeError := (abs_nonneg _).trans hm
      gcongr
    _ = 2 * 127 * codeError := by ring

/-- **The error of a sum of products of codes**, scaled exactly.

**Proof sketch.** Induction on the terms. Scaling multiplies the error of a product by the two parts of the ceilings
that belong to one code, and one term adds this to the error of the others. -/
theorem abs_byteSum_sub_clampedSum_le (ts : List (Binary32 × Binary32)) :
    |(byteSum (ts.map (codes ceiling₁ ceiling₂)) : ℚ) * (ceiling₁.toRat / 127) *
        (ceiling₂.toRat / 127) - clampedSum ceiling₁.toRat ceiling₂.toRat ts| ≤
      ts.length * (2 * codeError / 127 * (ceiling₁.toRat * ceiling₂.toRat)) := by
  set a := ceiling₁.toRat
  set b := ceiling₂.toRat
  induction ts with
  | nil => simp [clampedSum]
  | cons t ts ih =>
    have hproduct := abs_byteProduct_sub_le hpos₁ h₁ hpos₂ h₂ t
    have hscale : 0 ≤ a / 127 * (b / 127) := by positivity
    have hterm : |(byteProduct (codes ceiling₁ ceiling₂ t) : ℚ) * (a / 127) * (b / 127) -
        t.1.clampRat a * t.2.clampRat b| ≤ 2 * codeError / 127 * (a * b) := by
      have hscaled : (byteProduct (codes ceiling₁ ceiling₂ t) : ℚ) * (a / 127) * (b / 127) -
          t.1.clampRat a * t.2.clampRat b = ((byteProduct (codes ceiling₁ ceiling₂ t) : ℚ) -
            127 ^ 2 * (t.1.clampRat a / a * (t.2.clampRat b / b))) * (a / 127 * (b / 127)) := by
        field_simp
      rw [hscaled, abs_mul, abs_of_nonneg hscale]
      exact (mul_le_mul_of_nonneg_right hproduct hscale).trans_eq (by ring)
    calc _ = |((byteProduct (codes ceiling₁ ceiling₂ t) : ℚ) * (a / 127) * (b / 127) -
          t.1.clampRat a * t.2.clampRat b) +
          ((byteSum (ts.map (codes ceiling₁ ceiling₂)) : ℚ) * (a / 127) * (b / 127) -
            clampedSum a b ts)| := by
          simp only [List.map_cons, byteSum_cons, Int.cast_add, clampedSum, List.sum_cons]
          ring_nf
      _ ≤ 2 * codeError / 127 * (a * b) + ts.length * (2 * codeError / 127 * (a * b)) :=
        (abs_add_le _ _).trans (add_le_add hterm ih)
      _ = (t :: ts).length * (2 * codeError / 127 * (a * b)) := by
        rw [List.length_cons, Nat.cast_succ]
        ring

/-- The scaled sum is at most the product of the ceilings for every term.

**Proof sketch.** No code is negative, so the sum is at most `127 ^ 2` for every term, and scaling divides by that. -/
private lemma abs_scaled_byteSum_le (ts : List (Binary32 × Binary32)) :
    |(byteSum (ts.map (codes ceiling₁ ceiling₂)) : ℚ) * (ceiling₁.toRat / 127) *
        (ceiling₂.toRat / 127)| ≤ ts.length * (ceiling₁.toRat * ceiling₂.toRat) := by
  have hcodes := codes_nonneg hpos₁ h₁ hpos₂ h₂ ts
  have hlow : (0 : ℚ) ≤ byteSum (ts.map (codes ceiling₁ ceiling₂)) := by
    exact_mod_cast byteSum_nonneg hcodes
  have hhigh : (byteSum (ts.map (codes ceiling₁ ceiling₂)) : ℚ) ≤ ts.length * 127 ^ 2 := by
    have := byteSum_le hcodes
    rw [List.length_map] at this
    exact_mod_cast this
  rw [abs_of_nonneg (by positivity)]
  calc _ ≤ (ts.length : ℚ) * 127 ^ 2 * (ceiling₁.toRat / 127) * (ceiling₂.toRat / 127) := by gcongr
    _ = ts.length * (ceiling₁.toRat * ceiling₂.toRat) := by ring

end Products

/-! ## Scaling -/

section Scale

variable {ceiling : Binary32} (hlow : 2 ^ (-40 : ℤ) ≤ ceiling.toRat) (hhigh : ceiling.toRat ≤ 2 ^ 40)
include hlow hhigh

/-- The part of a ceiling that belongs to one code. -/
private lemma scale_bounds :
    2 ^ (-47 : ℤ) ≤ ceiling.toRat / 127 ∧ ceiling.toRat / 127 ≤ 2 ^ (40 : ℤ) := by
  constructor
  · calc (2 : ℚ) ^ (-47 : ℤ) ≤ 2 ^ (-40 : ℤ) / 127 := by norm_num
      _ ≤ ceiling.toRat / 127 := by gcongr
  · calc ceiling.toRat / 127 ≤ 2 ^ 40 / 127 := by gcongr
      _ ≤ 2 ^ (40 : ℤ) := by norm_num

/-- That part is rounded once. -/
private lemma within_scale :
    (ceiling / Binary.ofNat maxCode).Within (ceiling.toRat / 127) (1 + 2 * single.unitRoundoff) := by
  obtain ⟨hleast, hmost⟩ := scale_bounds hlow hhigh
  have hpos : 0 < ceiling.toRat := lt_of_lt_of_le (by positivity) hlow
  have hcode := near_maxCode.toRat_eq
  have hwithin := within_div (isFinite_of_toRat_ne_zero hpos.ne') near_maxCode.isFinite
    (by rw [hcode]; norm_num)
  rw [hcode] at hwithin
  refine hwithin (midrange_single ?_ ?_) <;> rw [abs_of_pos (by positivity)]
  · exact le_trans (by norm_num) hleast
  · exact hmost.trans_lt (by norm_num)

/-- Multiplying by the part of a ceiling that belongs to one code changes the size of a number by a bounded
power of two. -/
private lemma abs_mul_scale_bounds {q : ℚ} {i j : ℤ} (hi : 2 ^ i ≤ |q|) (hj : |q| ≤ 2 ^ j) :
    2 ^ (i - 47) ≤ |q * (ceiling.toRat / 127)| ∧ |q * (ceiling.toRat / 127)| ≤ 2 ^ (j + 40) := by
  obtain ⟨hleast, hmost⟩ := scale_bounds hlow hhigh
  have hpos : 0 < ceiling.toRat / 127 := lt_of_lt_of_le (by positivity) hleast
  rw [abs_mul, abs_of_pos hpos, sub_eq_add_neg, zpow_add₀ two_ne_zero, zpow_add₀ two_ne_zero]
  exact ⟨by gcongr, by gcongr⟩

end Scale

section Scaling

variable {ceiling₁ ceiling₂ : Binary32}
  (hlow₁ : 2 ^ (-40 : ℤ) ≤ ceiling₁.toRat) (hhigh₁ : ceiling₁.toRat ≤ 2 ^ 40)
  (hlow₂ : 2 ^ (-40 : ℤ) ≤ ceiling₂.toRat) (hhigh₂ : ceiling₂.toRat ≤ 2 ^ 40)
include hlow₁ hhigh₁ hlow₂ hhigh₂

/-- Zero is scaled to zero.

**Proof sketch.** The integer zero times anything finite is a number of the format, and so each of the two products is
not rounded. -/
private lemma dequantize_zero : (dequantize 0 ceiling₁ ceiling₂).Near 0 0 := by
  have hzero : single.Representable (0 : ℤ) := representable_single (by norm_num)
  have hraw := near_ofInt hzero
  have hfirst : (ofInt 0 * (ceiling₁ / Binary.ofNat maxCode)).Near ((0 : ℤ) : ℚ) 0 :=
    near_mul_of_eq hraw.isFinite (within_scale hlow₁ hhigh₁).isFinite
      (by rw [hraw.toRat_eq, Int.cast_zero, zero_mul]) hzero
  have hsecond := near_mul_of_eq hfirst.isFinite (within_scale hlow₂ hhigh₂).isFinite
    (by rw [hfirst.toRat_eq, Int.cast_zero, zero_mul]) hzero
  rwa [Int.cast_zero] at hsecond

/-- **The error of the scaling**, which rounds five times.

**Proof sketch.** Ceilings of this size keep every result clear of underflow and overflow, unless the integer
is zero; and then all results are zero. -/
theorem dequantize_within (raw : Int32) : (dequantize raw ceiling₁ ceiling₂).Within
    (raw.toInt * (ceiling₁.toRat / 127) * (ceiling₂.toRat / 127)) (1 + 2 ^ (-20 : ℤ)) := by
  rcases eq_or_ne raw 0 with rfl | hne
  · have hzero := dequantize_zero hlow₁ hhigh₁ hlow₂ hhigh₂
    exact ⟨hzero.isFinite, by simpa using hzero.toRat_eq⟩
  have hleast : (2 : ℚ) ^ (0 : ℤ) ≤ |(raw.toInt : ℚ)| := by
    rw [zpow_zero]
    exact_mod_cast Int.one_le_abs fun h => hne (Int32.toInt_inj.mp h)
  have hmost : |(raw.toInt : ℚ)| ≤ 2 ^ (31 : ℤ) := by
    have : |raw.toInt| ≤ 2 ^ 31 := abs_le.mpr ⟨raw.le_toInt, raw.toInt_lt.le⟩
    exact_mod_cast this
  obtain ⟨hleast₁, hmost₁⟩ := abs_mul_scale_bounds hlow₁ hhigh₁ hleast hmost
  obtain ⟨hleast₂, hmost₂⟩ := abs_mul_scale_bounds hlow₂ hhigh₂ hleast₁ hmost₁
  have hmid₁ := midrange_single (le_trans (by norm_num) hleast₁) (hmost₁.trans_lt (by norm_num))
  have hmid₂ := midrange_single (le_trans (by norm_num) hleast₂) (hmost₂.trans_lt (by norm_num))
  have hraw : (ofInt raw.toInt : Binary32).Within raw.toInt (1 + single.unitRoundoff) := by
    refine within_ofInt (by decide) ?_
    rw [overflowBound_single]
    exact lt_of_le_of_lt (mul_le_mul_of_nonneg_left hmost zero_le_two) (by norm_num)
  have hfirst := hraw.mul (within_scale hlow₁ hhigh₁) hmid₁ (by
    rw [unitRoundoff_single]
    norm_num)
  have hsecond := hfirst.mul (within_scale hlow₂ hhigh₂) hmid₂ (by
    rw [unitRoundoff_single]
    norm_num)
  exact hsecond.mono (by
    rw [unitRoundoff_single]
    norm_num)

end Scaling

/-! ## The estimate -/

/-- **The error of the estimate.** With a weight for every token, ceilings of ordinary size and up to 133144
reached positions, the product of the codes of two vectors does not wrap, and what it is scaled to is finite
and close to the exact product of the values, each brought between zero and its ceiling: it is off by at most
`1 / 126` of the product of the ceilings for every reached position.

**Proof sketch.** The errors of the codes make up `1 / 127` and a little of it. The scaling adds a small part of
the sum itself, which is at most `127 ^ 2` for every position, counted in products of codes. -/
theorem dequantize_near_clampedSum (tokens : Array Int16) (weights dense : Array Binary32)
    (enough : tokens.size ≤ weights.size) (ceiling₁ ceiling₂ : Binary32)
    (hlow₁ : 2 ^ (-40 : ℤ) ≤ ceiling₁.toRat) (hhigh₁ : ceiling₁.toRat ≤ 2 ^ 40)
    (hlow₂ : 2 ^ (-40 : ℤ) ≤ ceiling₂.toRat) (hhigh₂ : ceiling₂.toRat ≤ 2 ^ 40)
    (hcount : (terms tokens weights dense enough 0).length ≤ 133144) :
    let ts := terms tokens weights dense enough 0
    ∃ raw : Int32,
      dotInt8 tokens (quantizeAll weights ceiling₁) (quantizeAll dense ceiling₂) = .ok raw ∧
      (dequantize raw ceiling₁ ceiling₂).isFinite ∧
      |(dequantize raw ceiling₁ ceiling₂).toRat - clampedSum ceiling₁.toRat ceiling₂.toRat ts| ≤
        ts.length * (ceiling₁.toRat * ceiling₂.toRat) / 126 := by
  intro ts
  have hpos₁ : 0 < ceiling₁.toRat := lt_of_lt_of_le (by positivity) hlow₁
  have hpos₂ : 0 < ceiling₂.toRat := lt_of_lt_of_le (by positivity) hlow₂
  have h₁ := isFinite_of_toRat_ne_zero hpos₁.ne'
  have h₂ := isFinite_of_toRat_ne_zero hpos₂.ne'
  have hdot : dotInt8 tokens (quantizeAll weights ceiling₁) (quantizeAll dense ceiling₂) = _ :=
    dotInt8_eq (enough.trans (size_quantizeAll weights ceiling₁).ge)
  rw [terms_quantizeAll enough] at hdot
  refine ⟨_, hdot, ?_⟩
  have hcodes := codes_nonneg hpos₁ h₁ hpos₂ h₂ ts
  set total := byteSum (ts.map (codes ceiling₁ ceiling₂))
  have hraw : (Int32.ofInt total).toInt = total :=
    toInt_ofInt_byteSum_of_nonneg hcodes (by rwa [List.length_map])
  have hwithin := dequantize_within hlow₁ hhigh₁ hlow₂ hhigh₂ (Int32.ofInt total)
  rw [hraw] at hwithin
  have hexact := abs_byteSum_sub_clampedSum_le hpos₁ h₁ hpos₂ h₂ ts
  have htotal := abs_scaled_byteSum_le hpos₁ h₁ hpos₂ h₂ ts
  set estimate := (dequantize (Int32.ofInt total) ceiling₁ ceiling₂).toRat
  set a := ceiling₁.toRat
  set b := ceiling₂.toRat
  refine ⟨hwithin.isFinite, ?_⟩
  calc |estimate - clampedSum a b ts|
      ≤ |estimate - total * (a / 127) * (b / 127)| +
        |total * (a / 127) * (b / 127) - clampedSum a b ts| := abs_sub_le _ _ _
    _ ≤ (1 + 2 ^ (-20 : ℤ) - 1) * (ts.length * (a * b)) +
        ts.length * (2 * codeError / 127 * (a * b)) := by
      refine add_le_add (hwithin.abs_sub_le.trans ?_) hexact
      gcongr
    _ = (2 ^ (-20 : ℤ) + 2 * codeError / 127) * (ts.length * (a * b)) := by ring
    _ ≤ 1 / 126 * (ts.length * (a * b)) := by
      gcongr
      norm_num [codeError]
    _ = ts.length * (a * b) / 126 := by ring

/-- Five positions before a token out of range. Among the weights are a NaN, both infinities and a negative
number, and one weight and one dense value are above their ceilings. -/
theorem dequantize_near_clampedSum_special_values :
    let tokens : Array Int16 := #[0, 1, 2, 0, 1, 5, 2]
    let weights : Array Binary32 :=
      #[.nan, .infinity false, .infinity true, ofBits single 0x3eaaaaab, ofInt 7, ofInt (-1), ofInt 1]
    let dense : Array Binary32 := #[ofInt 1, ofBits single 0x3f8ccccd, ofInt 9]
    tokens.size ≤ weights.size ∧
      ∃ raw : Int32,
        dotInt8 tokens (quantizeAll weights (ofInt 1)) (quantizeAll dense (ofInt 2)) = .ok raw ∧
        raw = 20468 ∧ |(dequantize raw (ofInt 1) (ofInt 2)).toRat - 38 / 15| ≤ 2 / 25 := by
  intro tokens weights dense
  obtain ⟨raw, hraw, -, hnear⟩ := dequantize_near_clampedSum tokens weights dense (by decide) (ofInt 1)
    (ofInt 2) (by decide +kernel) (by decide +kernel) (by decide +kernel) (by decide +kernel)
    (by decide +kernel)
  have hcodes : dotInt8 tokens (quantizeAll weights (ofInt 1)) (quantizeAll dense (ofInt 2)) =
    .ok 20468 := by decide +kernel
  have hbound : ((terms tokens weights dense (by decide) 0).length : ℚ) *
      ((ofInt 1 : Binary32).toRat * (ofInt 2 : Binary32).toRat) / 126 ≤ 5 / 63 := by decide +kernel
  have hsum : |clampedSum (ofInt 1 : Binary32).toRat (ofInt 2 : Binary32).toRat
      (terms tokens weights dense (by decide) 0) - 38 / 15| ≤ 2 / 25 - 5 / 63 := by decide +kernel
  refine ⟨by decide, raw, hraw, Except.ok.inj (hraw.symm.trans hcodes), ?_⟩
  calc _ ≤ 5 / 63 + (2 / 25 - 5 / 63) :=
        (abs_sub_le _ _ _).trans (add_le_add (hnear.trans hbound) hsum)
    _ = (2 / 25 : ℚ) := by norm_num

end SparseDot.Kernel
