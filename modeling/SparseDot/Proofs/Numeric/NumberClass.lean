import Mathlib.Algebra.BigOperators.Group.List.Basic
import SparseDot.Proofs.Numeric.Value

set_option autoImplicit false

/-!
# Numbers, infinities and NaN

A value is a number, an infinity of one of two signs, or NaN. As long as nothing overflows, the class of a sum
depends on the classes of its terms only: a number disappears beside an infinity, an infinity stays beside
others of its sign, and infinities of both signs, or a NaN, make the sum a NaN. In this way classes are added up
in a commutative monoid. So the class of a long sum depends neither on the order of its terms nor on where the
brackets are, although the sum itself does.

## Main definitions

* `SparseDot.NumberClass` — the classes, with their addition.
* `SparseDot.Binary.numberClass` — the class of a value.
* `SparseDot.Binary.productClass` — the class of an exact product.

## Main results

* `SparseDot.NumberClass.sum_eq` — the class of a sum of many terms.
* `SparseDot.Exact.numberClass_add` — an exact sum has the sum of the classes.
* `SparseDot.Binary.numberClass_round` — rounding keeps the class, unless a number overflows.
-/

namespace SparseDot

/-- **What a value is**: a number, an infinity, or not a number. -/
inductive NumberClass where
  | finite
  | infinite (negative : Bool)
  | nan
  deriving DecidableEq

namespace NumberClass

/-- **The class of a sum** that does not overflow. -/
protected def add : NumberClass → NumberClass → NumberClass
  | .nan, _ | _, .nan => .nan
  | .finite, c | c, .finite => c
  | .infinite s, .infinite t => if s = t then .infinite s else .nan

instance : Add NumberClass := ⟨NumberClass.add⟩

instance : Zero NumberClass := ⟨.finite⟩

/-- Opposite infinities are the only classes whose sum is neither of them. -/
instance : AddCommMonoid NumberClass where
  add_assoc a b c := by
    rcases a with _ | (_ | _) | _ <;> rcases b with _ | (_ | _) | _ <;> rcases c with _ | (_ | _) | _ <;> rfl
  zero_add a := by cases a <;> rfl
  add_zero a := by cases a <;> rfl
  add_comm a b := by rcases a with _ | (_ | _) | _ <;> rcases b with _ | (_ | _) | _ <;> rfl
  nsmul := nsmulRec

/-- NaN makes every sum NaN. -/
@[simp] lemma nan_add (c : NumberClass) : nan + c = nan := by cases c <;> rfl

/-- A number does not change the class of a sum. -/
@[simp] lemma finite_add (c : NumberClass) : finite + c = c := zero_add c

/-- A sum is a number only if both terms are. -/
lemma add_eq_finite_iff {a b : NumberClass} : a + b = finite ↔ a = finite ∧ b = finite := by
  rcases a with _ | (_ | _) | _ <;> rcases b with _ | (_ | _) | _ <;> decide

/-- **The class of a sum of many terms.**

**Proof sketch.** Induction on the terms. A number changes nothing and NaN makes the sum NaN. Beside an infinity it
depends on what the other terms have among them: NaN, an infinity of the same sign, or one of the other sign. -/
theorem sum_eq (l : List NumberClass) :
    l.sum =
      if nan ∈ l ∨ infinite false ∈ l ∧ infinite true ∈ l then nan
      else if infinite false ∈ l then infinite false
      else if infinite true ∈ l then infinite true
      else finite := by
  induction l with
  | nil => rfl
  | cons c l ih =>
    rw [List.sum_cons, ih]
    rcases c with _ | (_ | _) | _
    · simp
    · by_cases hnan : nan ∈ l <;> by_cases hpos : infinite false ∈ l <;> by_cases hneg : infinite true ∈ l <;>
        simp [hnan, hpos, hneg] <;> rfl
    · by_cases hnan : nan ∈ l <;> by_cases hpos : infinite false ∈ l <;> by_cases hneg : infinite true ∈ l <;>
        simp [hnan, hpos, hneg] <;> rfl
    · simp

end NumberClass

/-! ## Exact results -/

namespace Exact

/-- The class of an exact result. -/
def numberClass : Exact → NumberClass
  | .finite .. => .finite
  | .infinity s => .infinite s
  | .nan => .nan

variable {x y : Exact}

/-- The results of the class of numbers are the numbers. -/
lemma numberClass_eq_finite_iff : x.numberClass = .finite ↔ x.isFinite := by
  cases x <;> simp [numberClass, isFinite]

/-- There is one infinity of each sign. -/
lemma numberClass_eq_infinite_iff {s : Bool} : x.numberClass = .infinite s ↔ x = .infinity s := by
  cases x <;> simp [numberClass]

/-- There is one NaN. -/
lemma numberClass_eq_nan_iff : x.numberClass = .nan ↔ x = .nan := by
  cases x <;> simp [numberClass]

/-- **An exact sum has the sum of the classes.**

**Proof sketch.** Case by case, as the sum is defined: the sum of two numbers is a number. -/
theorem numberClass_add (x y : Exact) : (x.add y).numberClass = x.numberClass + y.numberClass := by
  cases x with
  | nan => cases y <;> rfl
  | infinity s =>
    cases y with
    | nan => rfl
    | infinity t => cases s <;> cases t <;> rfl
    | finite t b e => rfl
  | finite s a d =>
    cases y with
    | nan => rfl
    | infinity t => rfl
    | finite t b e => exact numberClass_eq_finite_iff.mpr (isFinite_add rfl rfl)

/-- An exact product is a number only if both factors are. -/
private lemma isFinite_mul_iff : (x.mul y).isFinite ↔ x.isFinite ∧ y.isFinite := by
  cases x with
  | nan => cases y <;> simp [mul, isFinite]
  | infinity s =>
    cases y with
    | nan => simp [mul, isFinite]
    | infinity t => simp [mul, isFinite]
    | finite t b e => by_cases hb : b = 0 <;> simp [mul, isFinite, hb]
  | finite s a d =>
    cases y with
    | nan => simp [mul, isFinite]
    | infinity t => by_cases ha : a = 0 <;> simp [mul, isFinite, ha]
    | finite t b e => simp [mul, isFinite]

end Exact

/-! ## Values -/

namespace Binary

variable {fmt : Format} {x y z : Binary fmt}

/-- The class of a value. -/
def numberClass (x : Binary fmt) : NumberClass := x.exact.numberClass

/-- The values of the class of numbers are the finite ones. -/
lemma numberClass_eq_finite_iff : x.numberClass = .finite ↔ x.isFinite := by
  rw [numberClass, Exact.numberClass_eq_finite_iff, isFinite_exact]

/-- There is one infinite value of each sign. -/
lemma numberClass_eq_infinite_iff {s : Bool} : x.numberClass = .infinite s ↔ x = .infinity s := by
  cases x <;> simp [numberClass, exact, Exact.numberClass]

/-- There is one value that is no number. -/
lemma numberClass_eq_nan_iff : x.numberClass = .nan ↔ x = .nan := by
  cases x <;> simp [numberClass, exact, Exact.numberClass]

/-- **Rounding keeps the class**, unless a number overflows. -/
theorem numberClass_round {x : Exact} (h : x.isFinite → (round x : Binary fmt).isFinite) :
    (round x : Binary fmt).numberClass = x.numberClass := by
  cases x with
  | finite s c e => exact numberClass_eq_finite_iff.mpr (h rfl)
  | infinity s => rfl
  | nan => rfl

/-- The class of a sum, unless numbers overflow. -/
lemma numberClass_add (h : x.isFinite → y.isFinite → (x + y).isFinite) :
    (x + y).numberClass = x.numberClass + y.numberClass := by
  have hround : (x + y).numberClass = (x.exact.add y.exact).numberClass := by
    refine numberClass_round fun hfinite => ?_
    rw [← Exact.numberClass_eq_finite_iff, Exact.numberClass_add, NumberClass.add_eq_finite_iff] at hfinite
    exact h (numberClass_eq_finite_iff.mp hfinite.1) (numberClass_eq_finite_iff.mp hfinite.2)
  rw [hround, Exact.numberClass_add]
  rfl

/-- **The class of the exact product of two factors.** -/
def productClass (t : Binary fmt × Binary fmt) : NumberClass := (t.1.exact.mul t.2.exact).numberClass

/-- An exact product is a number exactly if both factors are. -/
lemma productClass_eq_finite_iff {t : Binary fmt × Binary fmt} :
    productClass t = .finite ↔ t.1.isFinite ∧ t.2.isFinite := by
  rw [productClass, Exact.numberClass_eq_finite_iff, Exact.isFinite_mul_iff, isFinite_exact, isFinite_exact]

/-- The class of a product, unless numbers overflow. -/
private lemma numberClass_mul (h : x.isFinite → y.isFinite → (x * y).isFinite) :
    (x * y).numberClass = productClass (x, y) := by
  refine numberClass_round fun hfinite => ?_
  rw [Exact.isFinite_mul_iff, isFinite_exact, isFinite_exact] at hfinite
  exact h hfinite.1 hfinite.2

/-- The class of a rounded product added to a sum, unless numbers overflow. -/
lemma numberClass_add_mul (hmul : x.isFinite → y.isFinite → (x * y).isFinite)
    (h : z.isFinite → x.isFinite → y.isFinite → (z + x * y).isFinite) :
    (z + x * y).numberClass = z.numberClass + productClass (x, y) := by
  have hclass := numberClass_mul hmul
  rw [numberClass_add, hclass]
  intro hz hxy
  rw [← numberClass_eq_finite_iff, hclass, productClass_eq_finite_iff] at hxy
  exact h hz hxy.1 hxy.2

/-- The class of a fused product and sum, unless numbers overflow. -/
lemma numberClass_fma (h : x.isFinite → y.isFinite → z.isFinite → (fma x y z).isFinite) :
    (fma x y z).numberClass = z.numberClass + productClass (x, y) := by
  have hround : (fma x y z).numberClass = ((x.exact.mul y.exact).add z.exact).numberClass := by
    refine numberClass_round fun hfinite => ?_
    rw [← Exact.numberClass_eq_finite_iff, Exact.numberClass_add, NumberClass.add_eq_finite_iff] at hfinite
    obtain ⟨hx, hy⟩ := productClass_eq_finite_iff (t := (x, y)).mp hfinite.1
    exact h hx hy (numberClass_eq_finite_iff.mp hfinite.2)
  rw [hround, Exact.numberClass_add, add_comm]
  rfl

/-! ## Products that are not a number -/

variable [fmt.Valid]

/-- Only the lowest rank has a coefficient of zero. -/
private lemma coefficient_eq_zero_iff {r : ℕ} : fmt.coefficient r = 0 ↔ r = 0 := by
  have hvalue : fmt.rankValue r = 0 ↔ r = 0 := by
    rw [← Format.rankValue_zero fmt, (Format.rankValue_strictMono fmt).injective.eq_iff]
  have hpow : (2 : ℚ) ^ fmt.exponent r ≠ 0 := by positivity
  rw [← hvalue, Format.rankValue, mul_eq_zero_iff_right hpow, Nat.cast_eq_zero]

/-- A finite value is a zero exactly if it has the lowest rank. -/
private lemma finite_eq_zero_iff {s t : Bool} {r : ℕ} {h : r < fmt.infinityRank} :
    (finite s r h : Binary fmt) = zero t ↔ s = t ∧ r = 0 := by
  rw [zero, ofRank, dif_pos (Format.infinityRank_pos fmt), finite.injEq]

/-- **An exact product is not a number** exactly if a factor is not, or if one is infinite and the other
zero.

**Proof sketch.** Case by case, as the product is defined. The only products that are no number though both factors are
none of these are those of an infinity and a zero. -/
theorem mul_exact_eq_nan_iff : x.exact.mul y.exact = .nan ↔
    x = .nan ∨ y = .nan ∨ ∃ s t, x = .infinity s ∧ y = zero t ∨ x = zero s ∧ y = .infinity t := by
  cases x with
  | nan => cases y <;> simp [exact, Exact.mul]
  | infinity s =>
    cases y with
    | nan => simp [exact, Exact.mul]
    | infinity t => simp [exact, Exact.mul, zero, ofRank, Format.infinityRank_pos]
    | finite t r h => simp [exact, Exact.mul, finite_eq_zero_iff, coefficient_eq_zero_iff]
  | finite s r h =>
    cases y with
    | nan => simp [exact, Exact.mul]
    | infinity t => simp [exact, Exact.mul, finite_eq_zero_iff, coefficient_eq_zero_iff]
    | finite t r h => simp [exact, Exact.mul]

end Binary

end SparseDot
