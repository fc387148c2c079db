import Mathlib.Algebra.Order.BigOperators.Group.List
import SparseDot.Proofs.Numeric.Integer

set_option autoImplicit false

/-!
# Sums of products

A running sum takes up one product after the other, with two roundings each or, fused, with one. What one
such step does is stated once for both, in two respects: it is exact on integers that stay small, and it adds
a bounded amount to the error as long as the sum stays within a bound. The first is carried through a whole
list here, by induction, and so it asks at the start for room for the absolute values of all products left.
The second holds for a sum in any order, which is why the bounds on the error are only prepared here.

## Main definitions

* `SparseDot.Binary.exactSum`, `SparseDot.Binary.magnitudeSum` — the exact sum of a list of products, and of
  their absolute values.
* `SparseDot.Binary.AddsInteger`, `SparseDot.Binary.AddsNear` — what one step of a running sum has to do.
* `SparseDot.Binary.Headroom` — a bound on partial sums that is far enough from overflow.
* `SparseDot.Binary.sumError` — the error that the products of a list may bring.

## Main results

* `SparseDot.Binary.foldl_eq_ofInt` — a running sum of small integers is exact.
* `SparseDot.Binary.sum_eq_ofInt` — the same for a sum of values.
* `SparseDot.Binary.addsNear_mul_add`, `SparseDot.Binary.addsNear_fma` — the error of one step.
-/

namespace SparseDot.Binary

open Format

variable {fmt : Format}

/-! ## Products and their sums -/

/-- The exact product of two factors. -/
def exactProduct (t : Binary fmt × Binary fmt) : ℚ := t.1.toRat * t.2.toRat

/-- **The exact sum of the products.** -/
def exactSum (ts : List (Binary fmt × Binary fmt)) : ℚ := (ts.map exactProduct).sum

/-- **The exact sum of the absolute values of the products.** -/
def magnitudeSum (ts : List (Binary fmt × Binary fmt)) : ℚ := (ts.map fun t => |exactProduct t|).sum

/-- The exact sum of no products. -/
@[simp] lemma exactSum_nil : exactSum ([] : List (Binary fmt × Binary fmt)) = 0 := rfl

/-- The absolute values of no products. -/
@[simp] lemma magnitudeSum_nil : magnitudeSum ([] : List (Binary fmt × Binary fmt)) = 0 := rfl

/-- The exact sum with one more product. -/
@[simp] lemma exactSum_cons (t : Binary fmt × Binary fmt) (ts : List (Binary fmt × Binary fmt)) :
    exactSum (t :: ts) = exactProduct t + exactSum ts := by
  simp [exactSum]

/-- The absolute values with those of one more product. -/
@[simp] lemma magnitudeSum_cons (t : Binary fmt × Binary fmt)
    (ts : List (Binary fmt × Binary fmt)) :
    magnitudeSum (t :: ts) = |exactProduct t| + magnitudeSum ts := by
  simp [magnitudeSum]

/-- Exact sums are added up. -/
@[simp] lemma exactSum_append (ts us : List (Binary fmt × Binary fmt)) :
    exactSum (ts ++ us) = exactSum ts + exactSum us := by
  simp [exactSum]

/-- Absolute values are added up. -/
@[simp] lemma magnitudeSum_append (ts us : List (Binary fmt × Binary fmt)) :
    magnitudeSum (ts ++ us) = magnitudeSum ts + magnitudeSum us := by
  simp [magnitudeSum]

/-- The exact sum does not depend on the order of the products. -/
lemma exactSum_perm {ts us : List (Binary fmt × Binary fmt)} (h : ts.Perm us) : exactSum ts = exactSum us :=
  (h.map _).sum_eq

/-- The absolute values do not depend on the order of the products. -/
lemma magnitudeSum_perm {ts us : List (Binary fmt × Binary fmt)} (h : ts.Perm us) :
    magnitudeSum ts = magnitudeSum us :=
  (h.map _).sum_eq

/-- A sum of numbers that are not negative is not negative. -/
lemma sum_map_nonneg {ι : Type} (js : List ι) {f : ι → ℚ} (hf : ∀ j, 0 ≤ f j) :
    0 ≤ (js.map f).sum := by
  refine List.sum_nonneg fun x hx => ?_
  obtain ⟨j, -, rfl⟩ := List.mem_map.mp hx
  exact hf j

/-- The absolute value of a sum is at most the sum of the absolute values. -/
lemma abs_sum_map_le {ι : Type} (js : List ι) (f : ι → ℚ) :
    |(js.map f).sum| ≤ (js.map fun j => |f j|).sum := by
  have h := List.le_sum_of_subadditive (fun q : ℚ => |q|) abs_zero.le abs_add_le (js.map f)
  rwa [List.map_map] at h

/-- Absolute values do not add up to less than zero. -/
lemma magnitudeSum_nonneg (ts : List (Binary fmt × Binary fmt)) : 0 ≤ magnitudeSum ts :=
  sum_map_nonneg ts fun t => abs_nonneg (exactProduct t)

/-- Infinities and NaN stand for zero, so only the products of numbers count. -/
lemma magnitudeSum_filter_isFinite (ts : List (Binary fmt × Binary fmt)) :
    magnitudeSum (ts.filter fun t => t.1.isFinite && t.2.isFinite) = magnitudeSum ts := by
  induction ts with
  | nil => rfl
  | cons t ts ih =>
    by_cases ht : t.1.isFinite && t.2.isFinite
    · rw [List.filter_cons, if_pos ht, magnitudeSum_cons, magnitudeSum_cons, ih]
    · have hzero : exactProduct t = 0 := by
        by_contra hne
        obtain ⟨h₁, h₂⟩ := mul_ne_zero_iff.mp hne
        exact ht (Bool.and_eq_true_iff.mpr ⟨isFinite_of_toRat_ne_zero h₁, isFinite_of_toRat_ne_zero h₂⟩)
      rw [List.filter_cons, if_neg ht, magnitudeSum_cons, ih, hzero, abs_zero, zero_add]

/-- The exact sum is at most the sum of the absolute values, whatever the signs are. -/
lemma abs_exactSum_le (ts : List (Binary fmt × Binary fmt)) : |exactSum ts| ≤ magnitudeSum ts :=
  abs_sum_map_le ts exactProduct

/-! ## Integers -/

/-- **A finite value that is an integer.** -/
def IsInteger (x : Binary fmt) : Prop := x.isFinite ∧ ∃ n : ℤ, x.toRat = n

instance (x : Binary fmt) : Decidable x.IsInteger :=
  decidable_of_iff (x.isFinite ∧ x.toRat.den = 1)
    (and_congr_right' ⟨fun h => ⟨x.toRat.num, (Rat.coe_int_num_of_den_eq_one h).symm⟩,
      fun ⟨n, hn⟩ => hn ▸ Rat.den_intCast n⟩)

/-- The exact product of two integers is an integer. -/
private lemma IsInteger.exists_exactProduct_eq {t : Binary fmt × Binary fmt} (h₁ : t.1.IsInteger)
    (h₂ : t.2.IsInteger) : ∃ k : ℤ, exactProduct t = k := by
  obtain ⟨-, m, hm⟩ := h₁
  obtain ⟨-, n, hn⟩ := h₂
  exact ⟨m * n, by rw [exactProduct, hm, hn, Int.cast_mul]⟩

/-- **One step of a running sum that is exact on integers**, as long as the sum stays within the integers
that are all numbers of the format. -/
def AddsInteger (op : Binary32 → Binary32 × Binary32 → Binary32) : Prop :=
  ∀ (t : Binary32 × Binary32) (m k : ℤ), t.1.isFinite → t.2.isFinite → exactProduct t = k →
    |m| + |k| ≤ 2 ^ 24 → op (ofInt m) t = ofInt (m + k)

/-- A product and a sum, rounded each. -/
lemma addsInteger_mul_add : AddsInteger fun acc t => acc + t.1 * t.2 := by
  intro t m k h₁ h₂ hk hbound
  have hprod : (t.1 * t.2).Near k 0 :=
    near_mul_of_eq h₁ h₂ hk (representable_single (by linarith [abs_nonneg m]))
  exact ofInt_add_eq (representable_single (by linarith [abs_nonneg k])) hprod.isFinite hprod.toRat_eq
    (representable_single ((abs_add_le m k).trans hbound))

/-- A product and a sum, rounded once. -/
lemma addsInteger_fma : AddsInteger fun acc t => fma t.1 t.2 acc := by
  intro t m k h₁ h₂ hk hbound
  rw [add_comm m k]
  refine fma_ofInt_eq h₁ h₂ hk (representable_single (by linarith [abs_nonneg k])) ?_
  exact representable_single ((abs_add_le k m).trans (by linarith))

/-- **A running sum of small integers is exact.**

**Proof sketch.** Induction on the products. One step adds the integer of the first product exactly, since the absolute
values leave room for it, and what they leave is room for the other products. -/
theorem foldl_eq_ofInt {op : Binary32 → Binary32 × Binary32 → Binary32} (hop : AddsInteger op)
    (ts : List (Binary32 × Binary32)) (hint : ∀ t ∈ ts, t.1.IsInteger ∧ t.2.IsInteger) (m : ℤ)
    (hbound : |(m : ℚ)| + magnitudeSum ts ≤ 2 ^ 24) :
    ∃ k : ℤ, exactSum ts = k ∧ ts.foldl op (ofInt m) = ofInt (m + k) := by
  induction ts generalizing m with
  | nil => exact ⟨0, by simp, by simp⟩
  | cons t ts ih =>
    obtain ⟨h₁, h₂⟩ := hint t List.mem_cons_self
    obtain ⟨k, hk⟩ := h₁.exists_exactProduct_eq h₂
    rw [magnitudeSum_cons, hk] at hbound
    have hstep : |m| + |k| ≤ 2 ^ 24 := by
      have : |(m : ℚ)| + |(k : ℚ)| ≤ 2 ^ 24 := by linarith [magnitudeSum_nonneg ts]
      exact_mod_cast this
    obtain ⟨n, hn, hfold⟩ := ih (fun u hu => hint u (List.mem_cons_of_mem t hu)) (m + k) (by
      rw [Int.cast_add]
      linarith [abs_add_le (m : ℚ) k])
    refine ⟨k + n, by rw [exactSum_cons, hk, hn, Int.cast_add], ?_⟩
    rw [List.foldl_cons, hop t m k h₁.1 h₂.1 hk hstep, hfold, add_assoc]

/-- Values of small integers, added to that of an integer.

**Proof sketch.** Induction on the values, as for products: one sum of two integers is exact, and the rest of the
absolute values bounds the rest of the sum. -/
private lemma foldl_add_eq_ofInt {ι : Type} (f : ι → Binary32) (k : ι → ℤ) (hf : ∀ j, f j = ofInt (k j))
    (js : List ι) (m : ℤ) (hbound : |(m : ℚ)| + (js.map fun j => |(k j : ℚ)|).sum ≤ 2 ^ 24) :
    (js.map f).foldl add (ofInt m) = ofInt (m + (js.map k).sum) := by
  induction js generalizing m with
  | nil => simp
  | cons j js ih =>
    simp only [List.map_cons, List.sum_cons] at hbound ⊢
    have hrest : 0 ≤ (js.map fun j => |(k j : ℚ)|).sum :=
      sum_map_nonneg js fun i => abs_nonneg (k i : ℚ)
    have hbound' : |((m + k j : ℤ) : ℚ)| + (js.map fun j => |(k j : ℚ)|).sum ≤ 2 ^ 24 := by
      push_cast
      linarith [abs_add_le (m : ℚ) (k j)]
    have hsmall : |m| + |k j| ≤ 2 ^ 24 := by
      have : |(m : ℚ)| + |(k j : ℚ)| ≤ 2 ^ 24 := by linarith
      exact_mod_cast this
    have hj : single.Representable (k j) := representable_single (by linarith [abs_nonneg m])
    have hadd : (ofInt m : Binary32).add (ofInt (k j)) = ofInt (m + k j) :=
      ofInt_add_eq (representable_single (by linarith [abs_nonneg (k j)])) (near_ofInt hj).isFinite
        (near_ofInt hj).toRat_eq (representable_single ((abs_add_le m (k j)).trans hsmall))
    rw [List.foldl_cons, hf j, hadd, ih (m + k j) hbound', add_assoc]

/-- **A sum of values of small integers is exact**, unless it is empty: that one is the negative zero,
which the first integer makes disappear. -/
theorem sum_eq_ofInt {ι : Type} (f : ι → Binary32) (k : ι → ℤ) (hf : ∀ j, f j = ofInt (k j))
    {js : List ι} (hne : js ≠ []) (hbound : (js.map fun j => |(k j : ℚ)|).sum ≤ 2 ^ 24) :
    sum (js.map f) = ofInt (js.map k).sum := by
  obtain ⟨j, js, rfl⟩ := List.exists_cons_of_ne_nil hne
  simp only [List.map_cons, List.sum_cons] at hbound ⊢
  have hj : single.Representable (k j) := by
    have : |(k j : ℚ)| ≤ 2 ^ 24 := by
      linarith [sum_map_nonneg js fun i => abs_nonneg (k i : ℚ)]
    exact representable_single (by exact_mod_cast this)
  have hzero : (zero true : Binary32).toRat = (0 : ℤ) := by
    rw [Int.cast_zero]
    exact (near_zero true).toRat_eq
  have hfirst : (zero true : Binary32).add (ofInt (k j)) = ofInt (k j) := by
    have h := add_ofInt_eq (near_zero true).isFinite hzero hj (by rwa [zero_add])
    rwa [zero_add] at h
  rw [sum, List.foldl_cons, hf j, hfirst, foldl_add_eq_ofInt f k hf js (k j) hbound]

/-! ## Errors -/

/-- **A bound on partial sums** that a sum can reach and be rounded once more without overflow. -/
structure Headroom (fmt : Format) (M : ℚ) : Prop where
  nonneg : 0 ≤ M
  lt_overflowBound : M + (fmt.unitRoundoff * M + fmt.underflowError) < fmt.overflowBound

/-- The error that one product may bring to a running sum within the bound `M`: a rounding of the sum, and
one of the product. -/
def termError (M : ℚ) (t : Binary fmt × Binary fmt) : ℚ :=
  fmt.unitRoundoff * M + fmt.underflowError + fmt.unitRoundoff * |exactProduct t|

/-- **The error that the products of a list may bring.** -/
def sumError (M : ℚ) (ts : List (Binary fmt × Binary fmt)) : ℚ := (ts.map (termError M)).sum

/-- **One step of a running sum with a bounded error**, as long as there is room for the product and for
the error. -/
def AddsNear (M : ℚ) (op : Binary fmt → Binary fmt × Binary fmt → Binary fmt) : Prop :=
  ∀ {acc : Binary fmt} {t : Binary fmt × Binary fmt} {q e : ℚ}, acc.Near q e →
    t.1.isFinite → t.2.isFinite → |q| + |exactProduct t| + (e + termError M t) ≤ M →
    (op acc t).Near (q + exactProduct t) (e + termError M t)

section Error

variable {x y z : Binary fmt} {M p q s t e : ℚ}

/-- The errors of all products, counted together: a rounding of the sum for each of them, and a part of the absolute
values. -/
lemma sumError_eq (M : ℚ) (ts : List (Binary fmt × Binary fmt)) :
    sumError M ts = ts.length * (fmt.unitRoundoff * M + fmt.underflowError) +
      fmt.unitRoundoff * magnitudeSum ts := by
  induction ts with
  | nil => simp [sumError]
  | cons t ts ih =>
    rw [sumError, List.map_cons, List.sum_cons, ← sumError, ih, magnitudeSum_cons, List.length_cons,
      termError, Nat.cast_succ]
    ring

/-- The error of a product is not negative. -/
lemma termError_nonneg (hM : Headroom fmt M) (t : Binary fmt × Binary fmt) : 0 ≤ termError M t := by
  have hu := fmt.unitRoundoff_pos
  have hη := fmt.underflowError_pos
  have hM₀ := hM.nonneg
  unfold termError
  positivity

/-- Distances are not negative. -/
lemma Near.nonneg (h : x.Near q t) : 0 ≤ t := (abs_nonneg _).trans h.abs_sub_le

/-- A value near a number is not much larger than the number. -/
private lemma Near.abs_toRat_le (h : x.Near q t) : |x.toRat| ≤ |q| + t := by
  have := abs_sub_abs_le_abs_sub x.toRat q
  linarith [h.abs_sub_le]

/-- A value near a number is near the numbers around it. -/
lemma Near.trans (h : x.Near q s) (hqp : |q - p| ≤ t) : x.Near p (s + t) := by
  refine ⟨h.isFinite, ?_⟩
  rw [← sub_add_sub_cancel x.toRat q p]
  exact (abs_add_le _ _).trans (add_le_add h.abs_sub_le hqp)

variable [fmt.Valid]

/-- **The error of a sum of inexact terms**: theirs, and one rounding.

**Proof sketch.** The sum of the two values is within the distances of its terms, and within the bound `M`, so that it
is rounded once with an error of at most `unitRoundoff * M`. -/
theorem Near.add (hM : Headroom fmt M) (hx : x.Near p s) (hy : y.Near q t)
    (room : |p| + |q| + (s + t) ≤ M) : (x + y).Near (p + q) (s + t + fmt.unitRoundoff * M) := by
  have hu := fmt.unitRoundoff_pos
  have hη := fmt.underflowError_pos
  have hsum : |x.toRat + y.toRat| ≤ M := by
    linarith [abs_add_le x.toRat y.toRat, hx.abs_toRat_le, hy.abs_toRat_le]
  have hround : fmt.unitRoundoff * |x.toRat + y.toRat| ≤ fmt.unitRoundoff * M := by gcongr
  have hterms : |x.toRat + y.toRat - (p + q)| ≤ s + t := by
    rw [add_sub_add_comm]
    exact (abs_add_le _ _).trans (add_le_add hx.abs_sub_le hy.abs_sub_le)
  rw [add_comm (s + t)]
  refine Near.trans ((near_add hx.isFinite hy.isFinite ?_).mono hround) hterms
  linarith [hM.lt_overflowBound]

/-- **The error of a running sum of values**: one rounding for each of them.

**Proof sketch.** Induction on the values. The first one is at no distance from its number, so one step costs one
rounding; the room that is left is enough for the others. -/
theorem near_foldl_add (hM : Headroom fmt M) {terms : List (Binary fmt)} (hterms : ∀ t ∈ terms, t.isFinite)
    (hx : x.Near p s)
    (room : |p| + (terms.map fun t => |t.toRat|).sum + (s + terms.length * (fmt.unitRoundoff * M)) ≤ M) :
    (terms.foldl add x).Near (p + (terms.map toRat).sum) (s + terms.length * (fmt.unitRoundoff * M)) := by
  induction terms generalizing x p s with
  | nil => simpa using hx
  | cons t terms ih =>
    obtain ⟨ht, hrest⟩ := List.forall_mem_cons.mp hterms
    have huM : 0 ≤ fmt.unitRoundoff * M := mul_nonneg fmt.unitRoundoff_pos.le hM.nonneg
    have hsum : 0 ≤ (terms.map fun t => |t.toRat|).sum := sum_map_nonneg terms fun t => abs_nonneg t.toRat
    have hrounds : 0 ≤ terms.length * (fmt.unitRoundoff * M) := by positivity
    simp only [List.map_cons, List.sum_cons, List.length_cons, Nat.cast_succ, add_one_mul] at room ⊢
    have hself : t.Near t.toRat 0 := ⟨ht, by simp⟩
    have hstep := hx.add hM hself (by linarith)
    have hnear := ih hrest hstep (by linarith [abs_add_le p t.toRat])
    rw [add_zero, add_assoc p] at hnear
    exact hnear.mono (by linarith)

/-- **The error of a product within the bound.** -/
theorem near_mul_of_le (hM : Headroom fmt M) {t : Binary fmt × Binary fmt} (h₁ : t.1.isFinite)
    (h₂ : t.2.isFinite) (hprod : |exactProduct t| ≤ M) :
    (t.1 * t.2).Near (exactProduct t) (fmt.unitRoundoff * |exactProduct t| + fmt.underflowError) := by
  have hu := fmt.unitRoundoff_pos
  have hround : fmt.unitRoundoff * |exactProduct t| ≤ fmt.unitRoundoff * M := by gcongr
  refine near_mul h₁ h₂ ?_
  rw [← exactProduct]
  linarith [hM.lt_overflowBound]

/-- A product and a sum, rounded each.

**Proof sketch.** The product is rounded once and the sum once. Both stay within the bound `M`, so the two errors are
at most the error of a term. -/
theorem addsNear_mul_add (hM : Headroom fmt M) :
    AddsNear M fun (acc : Binary fmt) t => acc + t.1 * t.2 := by
  intro acc t q e hacc h₁ h₂ room
  have hu := fmt.unitRoundoff_pos
  have hη := fmt.underflowError_pos
  have huM : 0 ≤ fmt.unitRoundoff * M := mul_nonneg hu.le hM.nonneg
  rw [termError] at room
  have hprod : |exactProduct t| ≤ M := by
    have : 0 ≤ fmt.unitRoundoff * |exactProduct t| := by positivity
    linarith [abs_nonneg q, hacc.nonneg]
  refine (hacc.add hM (near_mul_of_le hM h₁ h₂ hprod) (by linarith)).mono ?_
  rw [termError]
  linarith

/-- A product and a sum, rounded once.

**Proof sketch.** There is one rounding, of the product added to the running sum. It stays within the bound `M`, and
the distance of the running sum is added to its error. -/
theorem addsNear_fma (hM : Headroom fmt M) :
    AddsNear M fun (acc : Binary fmt) t => fma t.1 t.2 acc := by
  intro acc t q e hacc h₁ h₂ room
  have hu := fmt.unitRoundoff_pos
  have hη := fmt.underflowError_pos
  have huM : 0 ≤ fmt.unitRoundoff * M := mul_nonneg hu.le hM.nonneg
  have hprod : 0 ≤ fmt.unitRoundoff * |exactProduct t| := by positivity
  rw [termError] at room ⊢
  have hsum : |exactProduct t + acc.toRat| ≤ M := by
    linarith [abs_add_le (exactProduct t) acc.toRat, hacc.abs_toRat_le]
  have hround : fmt.unitRoundoff * |exactProduct t + acc.toRat| ≤ fmt.unitRoundoff * M := by gcongr
  have hfma := near_fma h₁ h₂ hacc.isFinite (by
    rw [← exactProduct]
    linarith [hM.lt_overflowBound])
  rw [← exactProduct] at hfma
  have hacc' : |exactProduct t + acc.toRat - (q + exactProduct t)| ≤ e := by
    rw [add_comm q, add_sub_add_left_eq_sub]
    exact hacc.abs_sub_le
  exact (hfma.trans hacc').mono (by linarith)

end Error

end SparseDot.Binary
