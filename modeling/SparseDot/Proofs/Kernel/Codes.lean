import SparseDot.Proofs.Kernel.Quantization
import SparseDot.Proofs.Numeric.Monotone

set_option autoImplicit false

/-!
# Codes saturate and keep the order

The code of a value is the share of the ceiling after three roundings, and each of them keeps the order: a
larger share has a code that is at least as large, whatever the two ceilings are. The share grows with the value
and shrinks when the ceiling grows, and at the ends of the range it is exactly zero or one. Infinite and
non-positive ceilings, and those that are NaN, leave no share at all.

## Main results

* `SparseDot.Kernel.toInt_quantize_le_of_share_le` — a larger share has a larger code.
* `SparseDot.Kernel.quantize_infinity` — an infinite ceiling gives the code zero.
* `SparseDot.Kernel.quantize_saturates_and_keeps_order` — the range of the codes, the values that are brought to
  its ends, and the order of the codes.
-/

namespace SparseDot.Kernel

open Format Binary

/-! ## The share decides the code -/

section Shares

variable {ceiling ceiling' : Binary32} (hpos : 0 < ceiling.toRat) (hceiling : ceiling.isFinite)
  (hpos' : 0 < ceiling'.toRat) (hceiling' : ceiling'.isFinite)
include hpos hceiling

/-- The quotient of a value that was brought under the ceiling is the share, rounded once. -/
private lemma rounds_quotient (value : Binary32) : ((value.max (zero false)).min ceiling / ceiling).Rounds
    (value.clampRat ceiling.toRat / ceiling.toRat) := by
  have hclamp := near_clamp hceiling hpos.le value
  have hdiv := rounds_div hclamp.isFinite hceiling hpos.ne'
  rwa [hclamp.toRat_eq] at hdiv

include hpos' hceiling' in
/-- **A larger share has a larger code.**

**Proof sketch.** The code is the nearest integer of the product of the quotient and the largest code. The quotient is
the share rounded once and the product is rounded once, and rounding keeps the order, as does taking the nearest
integer. -/
theorem toInt_quantize_le_of_share_le {value value' : Binary32}
    (h : value.clampRat ceiling.toRat / ceiling.toRat ≤ value'.clampRat ceiling'.toRat / ceiling'.toRat) :
    (quantize value ceiling).toInt ≤ (quantize value' ceiling').toInt := by
  have hquotient := (near_quotient hpos hceiling value).isFinite
  have hquotient' := (near_quotient hpos' hceiling' value').isFinite
  have hle := (rounds_quotient hpos hceiling value).toRat_le_toRat
    (rounds_quotient hpos' hceiling' value') hquotient hquotient' h
  have hmul := rounds_mul hquotient near_maxCode.isFinite
  have hmul' := rounds_mul hquotient' near_maxCode.isFinite
  rw [near_maxCode.toRat_eq] at hmul hmul'
  refine nearestInt_le_nearestInt (nearestInt_eq_quantize hpos hceiling value)
    (nearestInt_eq_quantize hpos' hceiling' value') ?_
  exact hmul.toRat_le_toRat hmul' (near_share hpos hceiling value).isFinite
    (near_share hpos' hceiling' value').isFinite (by gcongr)

/-- A code that is less than one away from its share is a whole share. -/
private lemma quantize_eq_of_share_eq {value : Binary32} {code : Int8}
    (h : 127 * (value.clampRat ceiling.toRat / ceiling.toRat) = code.toInt) :
    quantize value ceiling = code := by
  have hnear := (quantize_bounds hpos hceiling value).2
  have hsmall : codeError < 1 := by norm_num [codeError]
  rw [h, ← Int.cast_sub, ← Int.cast_abs] at hnear
  have hlt : |(quantize value ceiling).toInt - code.toInt| < 1 := by exact_mod_cast hnear.trans_lt hsmall
  exact Int8.toInt_inj.mp (sub_eq_zero.mp (Int.abs_lt_one_iff.mp hlt))

/-- A value that is at most zero has the smallest code. -/
private lemma quantize_eq_zero {value : Binary32} (h : value.isNaN ∨ value.le (zero false)) :
    quantize value ceiling = 0 := by
  have hclamp : value.clampRat ceiling.toRat = 0 := by
    rcases h with hnan | hle
    · cases value with
      | nan => rfl
      | finite s r h => cases hnan
      | infinity s => cases hnan
    · exact clampRat_eq_zero hpos.le (toRat_lt_overflowBound hceiling).le hle
  refine quantize_eq_of_share_eq hpos hceiling ?_
  rw [hclamp, zero_div, mul_zero]
  rfl

/-- A value that is at least the ceiling has the largest code. -/
private lemma quantize_eq_maxCode {value : Binary32} (h : ceiling.le value) : quantize value ceiling = 127 := by
  have hclamp := clampRat_eq_toRat hceiling hpos.le (toRat_lt_overflowBound hceiling).le h
  refine quantize_eq_of_share_eq hpos hceiling ?_
  rw [hclamp, div_self hpos.ne', mul_one]
  rfl

end Shares

/-! ## Ceilings without a share -/

/-- A finite value divided by an infinity is a zero. -/
private lemma finite_div_infinity {x : Binary32} (hx : x.isFinite) (t : Bool) : ∃ s, x / infinity t = zero s := by
  cases x with
  | finite s r h => exact ⟨s != t, rfl⟩
  | infinity s => cases hx
  | nan => cases hx

/-- **An infinite ceiling gives the code zero.**

**Proof sketch.** Finite values have the share zero, infinity by infinity is NaN, and NaN is brought to zero before it
is divided. -/
theorem quantize_infinity (value : Binary32) : quantize value (infinity false) = 0 := by
  cases value with
  | nan => decide +kernel
  | infinity s => cases s <;> decide +kernel
  | finite s r h =>
    have hmax := (near_max (x := finite s r h) rfl (near_zero false).isFinite).isFinite
    have hmin : ((finite s r h).max (zero false)).min (infinity false) = (finite s r h).max (zero false) := by
      rw [Binary.min, isNaN_eq_false hmax, infinity_lt_eq_false hmax]
      rfl
    obtain ⟨t, ht⟩ := finite_div_infinity hmax false
    rw [quantize]
    dsimp only
    rw [hmin, ht]
    cases t <;> decide +kernel

/-- The ceilings that leave no share. -/
def Shareless (ceiling : Binary32) : Prop :=
  ceiling.isNaN ∨ ceiling.le (zero false) ∨ ceiling = infinity false

/-- A ceiling without a share gives the code zero. -/
private lemma Shareless.quantize_eq_zero {ceiling : Binary32} (h : Shareless ceiling) (value : Binary32) :
    quantize value ceiling = 0 := by
  rcases h with hnan | hle | rfl
  · rw [quantize, hnan, Bool.true_or, if_pos rfl]
  · rw [quantize, hle, Bool.or_true, if_pos rfl]
  · exact quantize_infinity value

/-- Every other ceiling is a positive number. -/
private lemma shareless_or_pos (ceiling : Binary32) :
    Shareless ceiling ∨ ceiling.isFinite ∧ 0 < ceiling.toRat := by
  cases ceiling with
  | nan => exact .inl (.inl rfl)
  | infinity s =>
    cases s with
    | false => exact .inl (.inr (.inr rfl))
    | true => exact .inl (.inr (.inl (by decide)))
  | finite s r h =>
    have hzero : (zero false : Binary32).Near 0 0 := near_zero false
    rcases le_or_gt (finite s r h).toRat 0 with hle | hlt
    · refine .inl (.inr (.inl ((le_iff rfl hzero.isFinite).mpr ?_)))
      rwa [hzero.toRat_eq]
    · exact .inr ⟨rfl, hlt⟩

/-- A ceiling between zero and infinity is a positive number. -/
private lemma pos_of_lt {ceiling : Binary32} (hlow : (zero false).lt ceiling) (hhigh : ceiling.lt (infinity false)) :
    ceiling.isFinite ∧ 0 < ceiling.toRat := by
  cases ceiling with
  | nan => cases hlow
  | infinity s =>
    cases s with
    | false => exact absurd hhigh (by decide)
    | true => exact absurd hlow (by decide)
  | finite s r h =>
    have hzero : (zero false : Binary32).Near 0 0 := near_zero false
    have hlt := (lt_iff hzero.isFinite rfl).mp hlow
    rw [hzero.toRat_eq] at hlt
    exact ⟨rfl, hlt⟩

/-! ## The map from values to codes -/

/-- No code is negative. -/
lemma toInt_quantize_nonneg (value ceiling : Binary32) : 0 ≤ (quantize value ceiling).toInt := by
  rcases shareless_or_pos ceiling with hnone | ⟨hceiling, hpos⟩
  · rw [hnone.quantize_eq_zero]
    rfl
  · exact (quantize_bounds hpos hceiling value).1

/-- **A larger value has a larger code.** -/
theorem toInt_quantize_le_of_le (ceiling : Binary32) {value value' : Binary32} (h : value.le value') :
    (quantize value ceiling).toInt ≤ (quantize value' ceiling).toInt := by
  rcases shareless_or_pos ceiling with hnone | ⟨hceiling, hpos⟩
  · rw [hnone.quantize_eq_zero]
    exact toInt_quantize_nonneg value' ceiling
  · have hclamp := clampRat_le_clampRat hpos.le (toRat_lt_overflowBound hceiling).le h
    exact toInt_quantize_le_of_share_le hpos hceiling hpos hceiling (by gcongr)

/-- **A larger ceiling gives a smaller code.**

**Proof sketch.** If the larger ceiling leaves no share then its code is zero, and no code is smaller. Else both are
positive numbers, and the share of the value in the larger one is at most that in the smaller one. -/
theorem toInt_quantize_le_of_ceiling_le (value : Binary32) {ceiling ceiling' : Binary32}
    (hlow : (zero false).lt ceiling) (h : ceiling.le ceiling') :
    (quantize value ceiling').toInt ≤ (quantize value ceiling).toInt := by
  rcases shareless_or_pos ceiling' with hnone | ⟨hceiling', hpos'⟩
  · rw [hnone.quantize_eq_zero]
    exact toInt_quantize_nonneg value ceiling
  · have hzero : (zero false : Binary32).isFinite := (near_zero false).isFinite
    have hceiling := isFinite_of_le_of_le hzero hceiling' (le_of_lt hlow) h
    obtain ⟨-, hpos⟩ := pos_of_lt hlow (lt_infinity hceiling)
    exact toInt_quantize_le_of_share_le hpos' hceiling' hpos hceiling
      (clampRat_div_le_clampRat_div hpos ((le_iff hceiling hceiling').mp h) value)

/-- **Codes saturate and keep the order.** For all values and ceilings, also those that are infinite or NaN:

* a code lies between `0` and `127`;
* it is `0` if the value is NaN or at most zero, or if the ceiling is NaN, at most zero or infinite;
* it is `127` if the ceiling is a positive number and the value is at least the ceiling;
* under one ceiling it grows with the value, and for one value it shrinks when a positive ceiling grows;
* many values are given the code of each, in their order. -/
theorem quantize_saturates_and_keeps_order :
    (∀ value ceiling, 0 ≤ (quantize value ceiling).toInt ∧ (quantize value ceiling).toInt ≤ 127) ∧
    (∀ value ceiling : Binary32, (value.isNaN ∨ value.le (zero false) ∨ ceiling.isNaN ∨
      ceiling.le (zero false) ∨ ceiling = infinity false) → quantize value ceiling = 0) ∧
    (∀ value ceiling : Binary32, (zero false).lt ceiling → ceiling.lt (infinity false) → ceiling.le value →
      quantize value ceiling = 127) ∧
    (∀ ceiling value value' : Binary32, value.le value' →
      (quantize value ceiling).toInt ≤ (quantize value' ceiling).toInt) ∧
    (∀ value ceiling ceiling' : Binary32, (zero false).lt ceiling → ceiling.le ceiling' →
      (quantize value ceiling').toInt ≤ (quantize value ceiling).toInt) ∧
    (∀ values ceiling, (quantizeAll values ceiling).size = values.size ∧
      ∀ i : ℕ, (quantizeAll values ceiling)[i]? = values[i]?.map fun value => quantize value ceiling) := by
  refine ⟨fun value ceiling => ⟨toInt_quantize_nonneg value ceiling, ?_⟩, ?_, ?_, ?_, ?_, ?_⟩
  · exact Int.lt_add_one_iff.mp (quantize value ceiling).toInt_lt
  · intro value ceiling h
    rcases shareless_or_pos ceiling with hnone | ⟨hceiling, hpos⟩
    · exact hnone.quantize_eq_zero value
    · rcases h with hnan | hle | hnone
      · exact quantize_eq_zero hpos hceiling (.inl hnan)
      · exact quantize_eq_zero hpos hceiling (.inr hle)
      · exact Shareless.quantize_eq_zero hnone value
  · intro value ceiling hlow hhigh h
    obtain ⟨hceiling, hpos⟩ := pos_of_lt hlow hhigh
    exact quantize_eq_maxCode hpos hceiling h
  · exact fun ceiling _ _ h => toInt_quantize_le_of_le ceiling h
  · exact fun value _ _ hlow h => toInt_quantize_le_of_ceiling_le value hlow h
  · exact fun values ceiling => ⟨size_quantizeAll values ceiling, fun _ => Array.getElem?_map⟩

/-- The smallest subnormal number as a ceiling, an infinite ceiling, and a NaN. -/
theorem quantize_saturates_and_keeps_order_subnormal_ceiling :
    let least : Binary32 := ofBits single 1
    quantize (ofInt 1) least = 127 ∧ quantize (infinity false) (infinity false) = 0 ∧
      quantize .nan least = 0 ∧ (quantize (zero true) least).toInt ≤ (quantize least least).toInt ∧
      (quantize (ofInt 1) (infinity false)).toInt ≤ (quantize (ofInt 1) least).toInt := by
  intro least
  obtain ⟨-, hzero, hlargest, hvalue, hceiling, -⟩ := quantize_saturates_and_keeps_order
  refine ⟨hlargest _ least ?_ ?_ ?_, hzero _ _ ?_, hzero _ least ?_, hvalue least _ _ ?_,
    hceiling _ least _ ?_ ?_⟩ <;> decide +kernel

end SparseDot.Kernel
