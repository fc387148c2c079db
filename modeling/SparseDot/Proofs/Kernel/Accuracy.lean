import Mathlib.Algebra.BigOperators.Group.List.Lemmas
import Mathlib.Algebra.BigOperators.Ring.Finset
import Mathlib.Tactic.NormNum
import SparseDot.Proofs.Kernel.Lanes
import SparseDot.Proofs.Numeric.Summation

set_option autoImplicit false

/-!
# How far the kernels are from the exact product

The three single precision kernels add up the same products, but in different orders and with different
roundings. Where nothing has to be rounded they give the same value; otherwise each of them is close to the
exact product, and so they are close to each other.

Both results come from the same decomposition. The exact sums over the lanes and over the positions left
over make up the exact sum over all positions, and so do the sums of absolute values and of errors.
Whatever room there is for the whole product is therefore enough for all of its parts together. For the
error, the scalar walk and the grouped sum are two ways to add up the same products, whose errors are
known for any such way.

## Main definitions

* `SparseDot.Kernel.walkSummation`, `SparseDot.Kernel.groupedSummation` — the ways in which the kernels add up.
* `SparseDot.Kernel.errorBudget` — the error that a kernel may have.

## Main results

* `SparseDot.Kernel.sum_lanes_add_sum_drop` — lanes and rest make up the whole.
* `SparseDot.Kernel.exists_groupedSum_eq_ofInt` — the grouped sum on small integers.
* `SparseDot.Kernel.follows_walk`, `SparseDot.Kernel.follows_groupedSum` — the classes and the errors of the two
  sums.
* `SparseDot.Kernel.kernels_eq_ofInt` — the kernels agree where nothing is rounded.
* `SparseDot.Kernel.kernels_follow` — the class and the error of what the kernels give.
* `SparseDot.Kernel.kernels_near_exactSum` — the error of the kernels.
-/

namespace SparseDot.Kernel

open Format Binary

section Parts

variable (ts : List (Binary32 × Binary32)) {groups : ℕ} (h : laneCount * groups ≤ ts.length)

/-! ## Lanes and rest -/

/-- **Lanes and rest make up the whole**, whatever is added up over the terms.

**Proof sketch.** The terms of the lanes, one lane after the other, and the rest are a permutation of the terms, and a
sum does not depend on the order. -/
theorem sum_lanes_add_sum_drop (f : Binary32 × Binary32 → ℚ) :
    ((List.finRange laneCount).map fun j => ((lane ts h j).map f).sum).sum +
      ((ts.drop (laneCount * groups)).map f).sum = (ts.map f).sum := by
  have hperm := ((flatMap_lane_append_perm ts h).map f).sum_eq
  rwa [List.map_append, List.sum_append, List.map_flatMap, List.flatMap_def, List.sum_flatten,
    List.map_map] at hperm

/-- The exact sums of the lanes and of the rest. -/
private lemma exactSum_lanes : ((List.finRange laneCount).map fun j => exactSum (lane ts h j)).sum +
    exactSum (ts.drop (laneCount * groups)) = exactSum ts :=
  sum_lanes_add_sum_drop ts h exactProduct

/-- The absolute values over the lanes and over the rest. -/
private lemma magnitudeSum_lanes :
    ((List.finRange laneCount).map fun j => magnitudeSum (lane ts h j)).sum +
      magnitudeSum (ts.drop (laneCount * groups)) = magnitudeSum ts :=
  sum_lanes_add_sum_drop ts h fun t => |exactProduct t|

/-- What one lane adds up is at most the whole.

**Proof sketch.** The sum of one lane is at most that of all lanes, as none of them is negative, and the rest is not
negative either. -/
private lemma sum_lane_le {f : Binary32 × Binary32 → ℚ} (hf : ∀ t, 0 ≤ f t) (j : Fin laneCount) :
    ((lane ts h j).map f).sum ≤ (ts.map f).sum := by
  have hsingle : ((lane ts h j).map f).sum ≤
      ((List.finRange laneCount).map fun j => ((lane ts h j).map f).sum).sum := by
    refine List.single_le_sum (fun x hx => ?_) _ (List.mem_map.mpr ⟨j, List.mem_finRange j, rfl⟩)
    obtain ⟨i, -, rfl⟩ := List.mem_map.mp hx
    exact sum_map_nonneg _ hf
  rw [← sum_lanes_add_sum_drop ts h]
  exact hsingle.trans (le_add_of_nonneg_right (sum_map_nonneg _ hf))

/-- The absolute values over one lane are at most those over all terms. -/
private lemma magnitudeSum_lane_le (j : Fin laneCount) : magnitudeSum (lane ts h j) ≤ magnitudeSum ts :=
  sum_lane_le ts h (fun t => abs_nonneg (exactProduct t)) j

/-- The absolute values of the sums of the lanes. -/
private lemma sum_abs_exactSum_lanes_le : ((List.finRange laneCount).map fun j => |exactSum (lane ts h j)|).sum ≤
    ((List.finRange laneCount).map fun j => magnitudeSum (lane ts h j)).sum :=
  List.sum_le_sum fun _ _ => abs_exactSum_le _

/-- The terms of a lane are terms. -/
private lemma mem_of_mem_lane {j : Fin laneCount} {t : Binary32 × Binary32} (ht : t ∈ lane ts h j) :
    t ∈ ts := by
  obtain ⟨k, rfl⟩ := List.mem_ofFn.mp ht
  exact List.getElem_mem _

/-- The sum of the lanes, as a sum of a list. -/
private lemma headSum_eq_sum : headSum ts h = Binary.sum ((List.finRange laneCount).map (laneSum ts h)) := by
  rw [← sum_toList_eq_headSum, Vector.toList_ofFn, List.ofFn_eq_map]

end Parts

/-! ## Small integers -/

section Integers

variable {ts : List (Binary32 × Binary32)} (hint : ∀ t ∈ ts, t.1.IsInteger ∧ t.2.IsInteger)
  (hbound : magnitudeSum ts ≤ 2 ^ 24)
include hint hbound

/-- The sum of the lanes is exact.

**Proof sketch.** The absolute values over each lane are small enough that its running sum is exact. The absolute
values of these sums are at most those over all lanes, so their sum is exact too. -/
private lemma exists_headSum_eq_ofInt {groups : ℕ} (h : laneCount * groups ≤ ts.length) :
    ∃ n : ℤ, ((List.finRange laneCount).map fun j => exactSum (lane ts h j)).sum = n ∧
      headSum ts h = ofInt n := by
  have hmagnitude := magnitudeSum_lanes ts h
  have hrest := magnitudeSum_nonneg (ts.drop (laneCount * groups))
  have hlane : ∀ j, |((0 : ℤ) : ℚ)| + magnitudeSum (lane ts h j) ≤ 2 ^ 24 := by
    intro j
    rw [Int.cast_zero, abs_zero, zero_add]
    exact (magnitudeSum_lane_le ts h j).trans hbound
  choose k hk hfold using fun j => foldl_eq_ofInt addsInteger_fma (lane ts h j)
    (fun t ht => hint t (mem_of_mem_lane ts h ht)) 0 (hlane j)
  have hsum : ∀ j, laneSum ts h j = ofInt (k j) := by
    intro j
    rw [laneSum, ← ofInt_zero, hfold j, zero_add]
  refine ⟨((List.finRange laneCount).map k).sum, ?_, ?_⟩
  · simp only [hk, Int.cast_list_sum, List.map_map]
    rfl
  · rw [headSum_eq_sum]
    refine sum_eq_ofInt _ k hsum (by simp) ?_
    have := sum_abs_exactSum_lanes_le ts h
    simp only [hk] at this
    linarith

/-- **The grouped sum of small integers is exact**: each lane holds an integer, so does their sum, and the
products left over are added to an integer.

**Proof sketch.** The absolute values over lanes and rest add up to at most `2 ^ 24`, so no partial sum is
larger than that. -/
theorem exists_groupedSum_eq_ofInt : ∃ n : ℤ, exactSum ts = n ∧ groupedSum ts = ofInt n := by
  have h := Nat.mul_div_le ts.length laneCount
  obtain ⟨m, hm, hhead⟩ := exists_headSum_eq_ofInt hint hbound h
  have hlanes := (abs_sum_map_le _ _).trans (sum_abs_exactSum_lanes_le ts h)
  rw [hm] at hlanes
  obtain ⟨k, hk, hfold⟩ := foldl_eq_ofInt addsInteger_mul_add _
    (fun t ht => hint t (List.mem_of_mem_drop ht)) m (by linarith [magnitudeSum_lanes ts h])
  refine ⟨m + k, ?_, ?_⟩
  · rw [← exactSum_lanes ts h, hm, hk, Int.cast_add]
  · rw [groupedSum, hhead, hfold]

end Integers

/-- **The kernels agree where nothing is rounded.** If the weights and the dense values at the reached
positions are integers, and the absolute values of their products add up to at most `2 ^ 24`, then all
three kernels give the value of the exact sum, which is never the negative zero. Nothing is asked of the
weights and dense values elsewhere. -/
theorem kernels_eq_ofInt (tokens : Array Int16) (weights dense : Array Binary32)
    (enough : tokens.size ≤ weights.size)
    (hint : ∀ t ∈ terms tokens weights dense enough 0, t.1.IsInteger ∧ t.2.IsInteger)
    (hbound : magnitudeSum (terms tokens weights dense enough 0) ≤ 2 ^ 24) :
    ∃ n : ℤ, exactSum (terms tokens weights dense enough 0) = n ∧
      dotSingle tokens weights dense = .ok (ofInt n) ∧
      dotGrouped tokens weights dense = .ok (ofInt n) ∧
      dotVectorised tokens weights dense = .ok (ofInt n) ∧
      (ofInt n : Binary32).isFinite ∧ (ofInt n : Binary32).toRat = n ∧
      (ofInt n : Binary32) ≠ zero true := by
  obtain ⟨n, hn, hgrouped⟩ := exists_groupedSum_eq_ofInt hint hbound
  obtain ⟨k, hk, hfold⟩ := foldl_eq_ofInt addsInteger_mul_add _ hint 0 (by simpa using hbound)
  obtain rfl : n = k := by exact_mod_cast hn.symm.trans hk
  have hrep : single.Representable n := by
    have : |(n : ℚ)| ≤ 2 ^ 24 := hn ▸ (abs_exactSum_le _).trans hbound
    exact representable_single (by exact_mod_cast this)
  refine ⟨n, hn, ?_, ?_, ?_, (near_ofInt hrep).isFinite, (near_ofInt hrep).toRat_eq, ?_⟩
  · rw [ofInt_zero, zero_add] at hfold
    rw [dotSingle, dot_eq enough, ← hfold]
    rfl
  · rw [dotGrouped_eq enough, hgrouped]
  · rw [dotVectorised_eq enough, hgrouped]
  · intro hzero
    refine not_isNegativeZero_ofInt hrep ?_
    rw [hzero]
    exact ⟨_, rfl⟩

/-- Eight positions go to the lanes and three to the scalar walk. Some of the products are negative zeros;
behind the end of the walk there is a weight that is not a number. -/
theorem kernels_eq_ofInt_mixed_signs :
    let tokens : Array Int16 := #[0, 1, 2, 0, 1, 2, 0, 1, 2, 0, 1, -1, 2]
    let weights : Array Binary32 := (Array.replicate 12 (ofInt (-5))).push .nan
    let dense : Array Binary32 := #[ofInt 3, zero false, ofInt 1000, .infinity true]
    tokens.size ≤ weights.size ∧
      dotSingle tokens weights dense = .ok (ofInt (-15060)) ∧
      dotGrouped tokens weights dense = .ok (ofInt (-15060)) ∧
      dotVectorised tokens weights dense = .ok (ofInt (-15060)) := by
  intro tokens weights dense
  obtain ⟨n, hn, hsingle, hgrouped, hvectorised, -⟩ :=
    kernels_eq_ofInt tokens weights dense (by decide) (by decide +kernel) (by decide +kernel)
  obtain rfl : n = -15060 := by
    have : exactSum (terms tokens weights dense (by decide) 0) = -15060 := by decide +kernel
    exact_mod_cast hn.symm.trans this
  exact ⟨by decide, hsingle, hgrouped, hvectorised⟩

/-! ## The kernels as summations -/

section Summations

variable (ts : List (Binary32 × Binary32)) {groups : ℕ} (h : laneCount * groups ≤ ts.length)

/-- The scalar walk, as a way to add up products. -/
def walkSummation : Summation single := (Summation.zero false).addProducts false ts

/-- The running sum of a lane. -/
def laneSummation (j : Fin laneCount) : Summation single := (Summation.zero false).addProducts true (lane ts h j)

/-- The sum of the lanes. -/
def headSummation : Summation single :=
  (Summation.zero true).addAll ((List.finRange laneCount).map (laneSummation ts h))

/-- **The grouped sum**, as a way to add up products. -/
def groupedSummation : Summation single :=
  (headSummation ts h).addProducts false (ts.drop (laneCount * groups))

/-- The value of the scalar walk. -/
private lemma eval_walkSummation :
    (walkSummation ts).eval = ts.foldl (fun acc t => acc + t.1 * t.2) (Binary.zero false) :=
  Summation.eval_addProducts ..

/-- The value of the grouped sum. -/
private lemma eval_groupedSummation :
    (groupedSummation ts (Nat.mul_div_le ts.length laneCount)).eval = groupedSum ts := by
  have hlane : ∀ j, (laneSummation ts (Nat.mul_div_le ts.length laneCount) j).eval = laneSum ts _ j :=
    fun j => Summation.eval_addProducts ..
  rw [groupedSummation, Summation.eval_addProducts, headSummation, Summation.eval_addAll, List.map_map, groupedSum,
    headSum_eq_sum, Binary.sum]
  simp only [Function.comp_def, hlane]
  rfl

/-- The scalar walk has the products of the terms. -/
private lemma products_walkSummation : (walkSummation ts).products = ts := by
  simp [walkSummation, Summation.products]

/-- **The grouped sum has the products of the terms**, in another order. -/
theorem products_groupedSummation_perm : (groupedSummation ts h).products.Perm ts := by
  have hproducts : (groupedSummation ts h).products =
      (List.finRange laneCount).flatMap (lane ts h) ++ ts.drop (laneCount * groups) := by
    simp [groupedSummation, headSummation, laneSummation, Summation.products, List.flatMap_map]
  rw [hproducts]
  exact flatMap_lane_append_perm ts _

variable (M : ℚ)

/-- The error of the scalar walk is that of the products. -/
private lemma error_walkSummation : (walkSummation ts).error M = sumError M ts := by
  rw [walkSummation, Summation.error_addProducts, Summation.error, zero_add]

/-- The error of the grouped sum is that of the products, and one rounding for each lane.

**Proof sketch.** Each lane brings the error of its products and one rounding when it is added up, and the rest brings
that of its products. The errors over lanes and rest make up those of all terms. -/
private lemma error_groupedSummation :
    (groupedSummation ts h).error M = sumError M ts + 8 * (single.unitRoundoff * M) := by
  have hlanes := sum_lanes_add_sum_drop ts h (termError M)
  have hlane : ∀ j, (laneSummation ts h j).error M = sumError M (lane ts h j) := fun j => by
    rw [laneSummation, Summation.error_addProducts, Summation.error, zero_add]
  rw [groupedSummation, Summation.error_addProducts, headSummation, Summation.error_addAll, List.map_map,
    Summation.error, zero_add]
  simp only [Function.comp_def, hlane, List.sum_map_add, sumError] at hlanes ⊢
  rw [← hlanes]
  simp only [List.map_const', List.length_finRange, List.sum_replicate, nsmul_eq_mul, Nat.cast_ofNat]
  ring

end Summations

/-! ## Rounding errors -/

/-- **The error that a kernel may have** on `count` products whose absolute values add up to
`magnitude`. -/
def errorBudget (count : ℕ) (magnitude : ℚ) : ℚ :=
  (count + 8) * (2 ^ (-23 : ℤ) * magnitude + 2 ^ (-149 : ℤ))

/-- Partial sums that are off by no more than the budget do not overflow.

**Proof sketch.** With at most `2 ^ 20` products the budget is at most `2 ^ 125`, so that even with one more rounding
the partial sums are below `2 ^ 128`. -/
private lemma headroom_errorBudget {count : ℕ} {magnitude : ℚ} (hcount : count ≤ 2 ^ 20)
    (h₀ : 0 ≤ magnitude) (h : magnitude ≤ 2 ^ 126) :
    Headroom single (magnitude + errorBudget count magnitude) := by
  have hcount' : (count : ℚ) ≤ 2 ^ 20 := by exact_mod_cast hcount
  have hbudget : errorBudget count magnitude ≤ 2 ^ 125 := by
    calc errorBudget count magnitude
        ≤ (2 ^ 20 + 8) * (2 ^ (-23 : ℤ) * 2 ^ 126 + 2 ^ (-149 : ℤ)) := by
          unfold errorBudget
          gcongr
      _ ≤ 2 ^ 125 := by norm_num
  refine ⟨by unfold errorBudget; positivity, ?_⟩
  rw [unitRoundoff_single, underflowError_single, overflowBound_single]
  calc _ ≤ (2 ^ 126 + 2 ^ 125 : ℚ) + (2 ^ (-24 : ℤ) * (2 ^ 126 + 2 ^ 125) + 2 ^ (-150 : ℤ)) := by gcongr
    _ < 2 ^ 128 := by norm_num

/-- **The budget is enough** for the products and for one rounding of each lane.

**Proof sketch.** Half of the budget is what the roundings cost on numbers up to the sum of the absolute
values. There are few enough of them that the error itself, which enlarges these numbers, and the rounding
of the products fit in the other half. -/
theorem sumError_le_errorBudget {ts : List (Binary32 × Binary32)} (hcount : ts.length ≤ 2 ^ 20) :
    sumError (magnitudeSum ts + errorBudget ts.length (magnitudeSum ts)) ts +
      8 * (single.unitRoundoff * (magnitudeSum ts + errorBudget ts.length (magnitudeSum ts))) ≤
      errorBudget ts.length (magnitudeSum ts) := by
  set budget := errorBudget ts.length (magnitudeSum ts) with hbudget
  set roundings : ℚ := ts.length + 8 with hroundings
  have h₀ := magnitudeSum_nonneg ts
  have hu := single.unitRoundoff_pos
  have hη := single.underflowError_pos
  have hfew : roundings * single.unitRoundoff ≤ 1 / 8 := by
    have hcount' : (ts.length : ℚ) ≤ 2 ^ 20 := by exact_mod_cast hcount
    calc roundings * single.unitRoundoff ≤ (2 ^ 20 + 8) * 2 ^ (-24 : ℤ) := by
          rw [hroundings, unitRoundoff_single]
          gcongr
      _ ≤ 1 / 8 := by norm_num
  have hmany : 8 ≤ roundings := le_add_of_nonneg_left (Nat.cast_nonneg _)
  have hhalf : budget / 2 =
      roundings * (single.unitRoundoff * magnitudeSum ts + single.underflowError) := by
    rw [hbudget, errorBudget, ← hroundings, unitRoundoff_single, underflowError_single]
    norm_num
    ring
  have hnonneg : 0 ≤ budget / 2 := by
    rw [hhalf]
    positivity
  have hcompound : roundings * single.unitRoundoff * budget ≤ 1 / 8 * budget := by
    gcongr
    linarith
  have hproducts : 8 * (single.unitRoundoff * magnitudeSum ts + single.underflowError) ≤ budget / 2 := by
    rw [hhalf]
    gcongr
  rw [sumError_eq]
  calc _ = budget / 2 - 8 * single.underflowError + roundings * single.unitRoundoff * budget +
        single.unitRoundoff * magnitudeSum ts := by
        rw [hhalf, hroundings]
        ring
    _ ≤ budget := by linarith

section Follows

variable {ts : List (Binary32 × Binary32)} (hcount : ts.length ≤ 2 ^ 20) (hmagnitude : magnitudeSum ts ≤ 2 ^ 126)
include hcount hmagnitude

/-- **Any way to add up the products**, as long as its roundings fit the budget: the class of the value is the sum
of the classes of the products, and if that is a number the value is within the budget of the exact sum.

**Proof sketch.** The budget leaves room for the summation, whose value then follows its products. The order of the
products does not matter, neither for the exact sum nor for the classes. -/
theorem follows_eval_of_perm {s : Summation Format.single} (hperm : s.products.Perm ts)
    (herror : s.error (magnitudeSum ts + errorBudget ts.length (magnitudeSum ts)) ≤
      errorBudget ts.length (magnitudeSum ts)) :
    s.eval.Follows (ts.map productClass).sum (exactSum ts) (errorBudget ts.length (magnitudeSum ts)) := by
  have hM := headroom_errorBudget hcount (magnitudeSum_nonneg ts) hmagnitude
  have hfollows := s.follows_eval hM (by rw [magnitudeSum_perm hperm]; linarith)
  rw [exactSum_perm hperm, (hperm.map productClass).sum_eq] at hfollows
  exact ⟨hfollows.numberClass_eq, fun hfinite => (hfollows.near hfinite).mono herror⟩

/-- The scalar walk is such a way. -/
theorem follows_walk : (ts.foldl (fun acc t => acc + t.1 * t.2) (zero false)).Follows
    (ts.map productClass).sum (exactSum ts) (errorBudget ts.length (magnitudeSum ts)) := by
  have hM := headroom_errorBudget hcount (magnitudeSum_nonneg ts) hmagnitude
  have hlanes := mul_nonneg Format.single.unitRoundoff_pos.le hM.nonneg
  rw [← eval_walkSummation]
  refine follows_eval_of_perm hcount hmagnitude (.of_eq (products_walkSummation ts)) ?_
  rw [error_walkSummation]
  linarith [sumError_le_errorBudget hcount]

/-- The grouped sum is such a way. -/
theorem follows_groupedSum : (groupedSum ts).Follows
    (ts.map productClass).sum (exactSum ts) (errorBudget ts.length (magnitudeSum ts)) := by
  rw [← eval_groupedSummation]
  refine follows_eval_of_perm hcount hmagnitude (products_groupedSummation_perm ts _) ?_
  rw [error_groupedSummation]
  exact sumError_le_errorBudget hcount

end Follows

/-- **What the kernels give**: values of the class of the products, and within the budget of the exact sum. -/
theorem kernels_follow (tokens : Array Int16) (weights dense : Array Binary32)
    (enough : tokens.size ≤ weights.size)
    (hcount : (terms tokens weights dense enough 0).length ≤ 2 ^ 20)
    (hmagnitude : magnitudeSum (terms tokens weights dense enough 0) ≤ 2 ^ 126) :
    let ts := terms tokens weights dense enough 0
    ∃ single grouped vectorised : Binary32,
      dotSingle tokens weights dense = .ok single ∧
      dotGrouped tokens weights dense = .ok grouped ∧
      dotVectorised tokens weights dense = .ok vectorised ∧
      ∀ x ∈ [single, grouped, vectorised],
        x.Follows (ts.map productClass).sum (exactSum ts) (errorBudget ts.length (magnitudeSum ts)) := by
  intro ts
  have hwalk := follows_walk hcount hmagnitude
  have hgrouped := follows_groupedSum hcount hmagnitude
  refine ⟨_, _, _, dot_eq enough, dotGrouped_eq enough, dotVectorised_eq enough, ?_⟩
  intro x hx
  simp only [List.mem_cons, List.not_mem_nil, or_false] at hx
  rcases hx with rfl | rfl | rfl
  · exact hwalk
  · exact hgrouped
  · exact hgrouped

/-- **The error of the kernels.** If the reached weights and dense values are finite, there are not too
many of them and their products are not too large, then each of the three kernels gives a finite value
within the error budget of the exact sum, and no two of these values are more than two budgets apart. -/
theorem kernels_near_exactSum (tokens : Array Int16) (weights dense : Array Binary32)
    (enough : tokens.size ≤ weights.size)
    (hcount : (terms tokens weights dense enough 0).length ≤ 2 ^ 20)
    (hfinite : ∀ t ∈ terms tokens weights dense enough 0, t.1.isFinite ∧ t.2.isFinite)
    (hmagnitude : magnitudeSum (terms tokens weights dense enough 0) ≤ 2 ^ 126) :
    let ts := terms tokens weights dense enough 0
    let bound := (ts.length + 8) * (2 ^ (-23 : ℤ) * magnitudeSum ts + 2 ^ (-149 : ℤ))
    ∃ single grouped vectorised : Binary32,
      dotSingle tokens weights dense = .ok single ∧
      dotGrouped tokens weights dense = .ok grouped ∧
      dotVectorised tokens weights dense = .ok vectorised ∧
      (∀ x ∈ [single, grouped, vectorised], x.isFinite ∧ |x.toRat - exactSum ts| ≤ bound) ∧
      ∀ x ∈ [single, grouped, vectorised], ∀ y ∈ [single, grouped, vectorised],
        |x.toRat - y.toRat| ≤ 2 * bound := by
  intro ts bound
  obtain ⟨single, grouped, vectorised, hsingle, hgrouped, hvectorised, hfollows⟩ :=
    kernels_follow tokens weights dense enough hcount hmagnitude
  have hnear : ∀ x ∈ [single, grouped, vectorised], x.Near (exactSum ts) bound :=
    fun x hx => (hfollows x hx).near_of_finite hfinite
  refine ⟨single, grouped, vectorised, hsingle, hgrouped, hvectorised, ?_, ?_⟩
  · exact fun x hx => ⟨(hnear x hx).isFinite, (hnear x hx).abs_sub_le⟩
  · intro x hx y hy
    have hxe := (hnear x hx).abs_sub_le
    have hye := (hnear y hy).abs_sub_le
    rw [abs_sub_comm] at hye
    calc |x.toRat - y.toRat| ≤ |x.toRat - exactSum ts| + |exactSum ts - y.toRat| := abs_sub_le _ _ _
      _ ≤ 2 * bound := by linarith

/-- Products of thirds and tenths that partly cancel, and some of subnormal numbers: the two results differ,
but only a little. -/
theorem kernels_near_exactSum_thirds :
    let tokens : Array Int16 := #[0, 1, 2, 0, 1, 0, 0, 1, 2, 0, 1, 0, 0, 1, 2, 0, 0, 1]
    let weights : Array Binary32 := Array.replicate 18 (ofBits single 0x3eaaaaab)
    let dense : Array Binary32 := #[ofBits single 0x3dcccccd, ofBits single 0xbf800001, ofBits single 1]
    tokens.size ≤ weights.size ∧
      ∃ x y : Binary32, dotSingle tokens weights dense = .ok x ∧
        dotVectorised tokens weights dense = .ok y ∧ x ≠ y ∧ x.isFinite ∧ y.isFinite ∧
        |x.toRat - y.toRat| ≤ 1 / 2 ^ 16 := by
  intro tokens weights dense
  obtain ⟨x, z, y, hx, -, hy, hnear, hdiff⟩ := kernels_near_exactSum tokens weights dense (by decide)
    (by decide +kernel) (by decide +kernel) (by decide +kernel)
  refine ⟨by decide, x, y, hx, hy, ?_, (hnear x (by simp)).1, (hnear y (by simp)).1, ?_⟩
  · rintro rfl
    have : dotSingle tokens weights dense ≠ dotVectorised tokens weights dense := by decide +kernel
    exact this (hx.trans hy.symm)
  · exact (hdiff x (by simp) y (by simp)).trans (by decide +kernel)

end SparseDot.Kernel
