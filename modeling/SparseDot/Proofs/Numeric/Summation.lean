import SparseDot.Proofs.Numeric.Accumulate
import SparseDot.Proofs.Numeric.NumberClass

set_option autoImplicit false

/-!
# Sums of products in any order

A sum of products can be worked out in many ways: with or without a rounding between product and sum, one
product after the other, or in several running sums that are added up at the end. A summation writes such a way
down. Whatever it is, the class of its value is the sum of the classes of the products, and if that is a number,
the value is close to the exact sum. Both need that there is room for the products that are numbers.

## Main definitions

* `SparseDot.Summation` — the ways to add up products.
* `SparseDot.Summation.eval`, `SparseDot.Summation.products`, `SparseDot.Summation.error` — the value, the
  products, and the error that the value may have.
* `SparseDot.Binary.Follows` — a value of a class, near a number if it is one itself.

## Main results

* `SparseDot.Summation.follows_eval` — the class and the error of the value.
-/

namespace SparseDot

namespace Binary

variable {fmt : Format}

/-- A product added to a sum, with a rounding in between or fused. -/
def addProduct (fused : Bool) (sum : Binary fmt) (t : Binary fmt × Binary fmt) : Binary fmt :=
  if fused then fma t.1 t.2 sum else sum + t.1 * t.2

/-- **A value of a class**, which is near a number if it is one itself. -/
structure Follows (x : Binary fmt) (c : NumberClass) (q t : ℚ) : Prop where
  numberClass_eq : x.numberClass = c
  near : x.isFinite → x.Near q t

variable [fmt.Valid] {M q e : ℚ} {sum : Binary fmt} {t : Binary fmt × Binary fmt} {c : NumberClass}

/-- Either way the error is within the same bound. -/
private lemma addsNear_addProduct (hM : Headroom fmt M) (fused : Bool) :
    AddsNear M fun (sum : Binary fmt) t => sum.addProduct fused t := by
  cases fused with
  | true => exact addsNear_fma hM
  | false => exact addsNear_mul_add hM

/-- **A product is added to the class of a sum.**

**Proof sketch.** If the sum and both factors are numbers then the step is near their exact sum, and so it does not
overflow. Hence its class is the sum of the classes, and it is a number only if all three are. -/
theorem Follows.addProduct (hM : Headroom fmt M) (fused : Bool) (h : sum.Follows c q e)
    (hprod : |exactProduct t| ≤ M) (room : sum.isFinite → |q| + |exactProduct t| + (e + termError M t) ≤ M) :
    (sum.addProduct fused t).Follows (c + productClass t) (q + exactProduct t) (e + termError M t) := by
  have hnear : sum.isFinite → t.1.isFinite → t.2.isFinite →
      (sum.addProduct fused t).Near (q + exactProduct t) (e + termError M t) := fun hsum h₁ h₂ =>
    addsNear_addProduct hM fused (h.near hsum) h₁ h₂ (room hsum)
  have hclass : (sum.addProduct fused t).numberClass = c + productClass t := by
    rw [← h.numberClass_eq]
    cases fused with
    | true => exact numberClass_fma fun h₁ h₂ hsum => (hnear hsum h₁ h₂).isFinite
    | false =>
      exact numberClass_add_mul (fun h₁ h₂ => (near_mul_of_le hM h₁ h₂ hprod).isFinite)
        fun hsum h₁ h₂ => (hnear hsum h₁ h₂).isFinite
  refine ⟨hclass, fun hfinite => ?_⟩
  rw [← numberClass_eq_finite_iff, hclass, NumberClass.add_eq_finite_iff, productClass_eq_finite_iff,
    ← h.numberClass_eq, numberClass_eq_finite_iff] at hfinite
  exact hnear hfinite.1 hfinite.2.1 hfinite.2.2

/-- **Two sums are added up**, and their classes with them.

**Proof sketch.** If both values are numbers then their sum is near the exact one, and so it does not overflow. Hence
its class is the sum of the classes, and it is a number only if both are. -/
theorem Follows.add (hM : Headroom fmt M) {x y : Binary fmt} {c d : NumberClass} {p q s t : ℚ}
    (hx : x.Follows c p s) (hy : y.Follows d q t) (room : |p| + |q| + (s + t) ≤ M) :
    (x + y).Follows (c + d) (p + q) (s + t + fmt.unitRoundoff * M) := by
  have hnear : x.isFinite → y.isFinite → (x + y).Near (p + q) (s + t + fmt.unitRoundoff * M) :=
    fun h₁ h₂ => (hx.near h₁).add hM (hy.near h₂) room
  have hclass : (x + y).numberClass = c + d := by
    rw [← hx.numberClass_eq, ← hy.numberClass_eq]
    exact numberClass_add fun h₁ h₂ => (hnear h₁ h₂).isFinite
  refine ⟨hclass, fun hfinite => ?_⟩
  rw [← numberClass_eq_finite_iff, hclass, NumberClass.add_eq_finite_iff, ← hx.numberClass_eq,
    ← hy.numberClass_eq, numberClass_eq_finite_iff, numberClass_eq_finite_iff] at hfinite
  exact hnear hfinite.1 hfinite.2

omit [fmt.Valid] in
/-- A value that follows products of numbers is near a number. -/
lemma Follows.near_of_finite {x : Binary fmt} {ts : List (Binary fmt × Binary fmt)}
    (h : x.Follows (ts.map productClass).sum q e) (hfinite : ∀ t ∈ ts, t.1.isFinite ∧ t.2.isFinite) :
    x.Near q e := by
  have hclass : (ts.map productClass).sum = .finite := by
    refine List.sum_eq_zero fun c hc => ?_
    obtain ⟨t, ht, rfl⟩ := List.mem_map.mp hc
    exact productClass_eq_finite_iff.mpr (hfinite t ht)
  exact h.near (numberClass_eq_finite_iff.mp (h.numberClass_eq.trans hclass))

end Binary

/-! ## Ways to add up -/

/-- **A way to add up products.** -/
inductive Summation (fmt : Format) where
  /-- A zero to begin with. -/
  | zero (negative : Bool)
  /-- One more product, with a rounding before it is added or fused. -/
  | addProduct (fused : Bool) (sum : Summation fmt) (t : Binary fmt × Binary fmt)
  /-- Two sums added up. -/
  | add (left right : Summation fmt)

namespace Summation

variable {fmt : Format}

/-- The value that it comes to. -/
def eval : Summation fmt → Binary fmt
  | zero s => .zero s
  | addProduct fused sum t => sum.eval.addProduct fused t
  | add left right => left.eval + right.eval

/-- The factors of its products. -/
def products : Summation fmt → List (Binary fmt × Binary fmt)
  | zero _ => []
  | addProduct _ sum t => sum.products ++ [t]
  | add left right => left.products ++ right.products

/-- **The error that the value may have**, as long as all partial sums are within the bound `M`. -/
def error (M : ℚ) : Summation fmt → ℚ
  | zero _ => 0
  | addProduct _ sum t => sum.error M + Binary.termError M t
  | add left right => left.error M + right.error M + fmt.unitRoundoff * M

open Binary

variable {M : ℚ}

/-- The error of a summation is not negative. -/
private lemma error_nonneg (hM : Headroom fmt M) (s : Summation fmt) : 0 ≤ s.error M := by
  induction s with
  | zero s => exact le_rfl
  | addProduct fused sum t ih => exact add_nonneg ih (termError_nonneg hM t)
  | add left right ihl ihr =>
    exact add_nonneg (add_nonneg ihl ihr) (mul_nonneg fmt.unitRoundoff_pos.le hM.nonneg)

/-- **The class and the error of a summation**: its class is the sum of the classes of the products, and if that
is a number, the value is near the exact sum.

**Proof sketch.** Induction on the summation. The room is asked for once, for the absolute values of all products
and for all errors, so each part of the summation has enough of it. -/
theorem follows_eval [fmt.Valid] (hM : Headroom fmt M) (s : Summation fmt)
    (room : magnitudeSum s.products + s.error M ≤ M) :
    s.eval.Follows (s.products.map productClass).sum (exactSum s.products) (s.error M) := by
  induction s with
  | zero s =>
    have hzero : (Binary.zero s : Binary fmt).Near 0 0 := near_zero s
    exact ⟨numberClass_eq_finite_iff.mpr hzero.isFinite, fun _ => hzero⟩
  | addProduct fused sum t ih =>
    have herror := error_nonneg hM sum
    have hterm := termError_nonneg hM t
    have hmagnitude := magnitudeSum_nonneg sum.products
    have hproduct := abs_nonneg (exactProduct t)
    simp only [products, error, magnitudeSum_append, magnitudeSum_cons, magnitudeSum_nil, add_zero] at room
    have hstep := (ih (by linarith)).addProduct hM fused (t := t) (by linarith) fun _ => by
      linarith [abs_exactSum_le sum.products]
    simpa [eval, products, error] using hstep
  | add left right ihl ihr =>
    have hl := error_nonneg hM left
    have hr := error_nonneg hM right
    have hround : 0 ≤ fmt.unitRoundoff * M := mul_nonneg fmt.unitRoundoff_pos.le hM.nonneg
    have hleft := magnitudeSum_nonneg left.products
    have hright := magnitudeSum_nonneg right.products
    simp only [products, error, magnitudeSum_append] at room
    have hstep := (ihl (by linarith)).add hM (ihr (by linarith)) (by
      linarith [abs_exactSum_le left.products, abs_exactSum_le right.products])
    simpa [eval, products, error] using hstep

/-! ## Running sums -/

section Running

variable (fused : Bool) (s : Summation fmt) (ts : List (Binary fmt × Binary fmt)) (l : List (Summation fmt))

/-- One product after the other, added to what there is. -/
def addProducts : Summation fmt := ts.foldl (addProduct fused) s

/-- One sum after the other, added to what there is. -/
def addAll : Summation fmt := l.foldl add s

/-- The first product is added before the others. -/
private lemma addProducts_cons (t : Binary fmt × Binary fmt) :
    s.addProducts fused (t :: ts) = (s.addProduct fused t).addProducts fused ts := rfl

/-- The first sum is added before the others. -/
private lemma addAll_cons (a : Summation fmt) : s.addAll (a :: l) = (s.add a).addAll l := rfl

/-- The value of a running sum of products. -/
lemma eval_addProducts : (s.addProducts fused ts).eval = ts.foldl (Binary.addProduct fused) s.eval := by
  induction ts generalizing s with
  | nil => rfl
  | cons t ts ih => exact ih (s.addProduct fused t)

/-- The products of a running sum, behind those that were there. -/
@[simp] lemma products_addProducts : (s.addProducts fused ts).products = s.products ++ ts := by
  induction ts generalizing s with
  | nil => exact (List.append_nil _).symm
  | cons t ts ih =>
    rw [addProducts_cons, ih, products, List.append_assoc]
    rfl

/-- The products bring one error each. -/
lemma error_addProducts : (s.addProducts fused ts).error M = s.error M + sumError M ts := by
  induction ts generalizing s with
  | nil => exact (add_zero _).symm
  | cons t ts ih =>
    rw [addProducts_cons, ih, error, add_assoc]
    rfl

/-- The value of a running sum of sums. -/
lemma eval_addAll : (s.addAll l).eval = (l.map eval).foldl Binary.add s.eval := by
  induction l generalizing s with
  | nil => rfl
  | cons a l ih => exact ih (s.add a)

/-- The products of all sums, behind those that were there. -/
@[simp] lemma products_addAll : (s.addAll l).products = s.products ++ l.flatMap products := by
  induction l generalizing s with
  | nil => exact (List.append_nil _).symm
  | cons a l ih =>
    rw [addAll_cons, ih, products, List.append_assoc]
    rfl

/-- Each sum brings its own error, and one rounding. -/
lemma error_addAll :
    (s.addAll l).error M = s.error M + (l.map fun a => a.error M + fmt.unitRoundoff * M).sum := by
  induction l generalizing s with
  | nil => exact (add_zero _).symm
  | cons a l ih =>
    rw [addAll_cons, ih, error, List.map_cons, List.sum_cons]
    ring

end Running

end Summation

end SparseDot
