import Mathlib.Algebra.Order.BigOperators.Group.List
import Mathlib.Algebra.Order.Ring.Abs
import Mathlib.Data.Int.ModEq
import Mathlib.Tactic.Linarith
import SparseDot.Proofs.Kernel.Walk

set_option autoImplicit false

/-!
# The product of signed bytes

The running sum of the byte kernel has 32 bits and wraps. Wrapping commutes with sums and products, so the
result is the exact sum of the products, wrapped once. Tokens may repeat, and so there is no bound on the
number of products; but as long as there are not too many of them the exact sum has 32 bits itself, and then
nothing was wrapped.

The largest product of two bytes is `(-128) · (-128)`, and that of two bytes that are not negative is
`127 · 127`. So the second kind leaves room for a few more products.

## Main definitions

* `SparseDot.Kernel.byteProduct`, `SparseDot.Kernel.byteSum` — exact products of bytes, and their sum.

## Main results

* `SparseDot.Kernel.foldl_mulAdd_ofInt` — a running sum is the exact sum, wrapped.
* `SparseDot.Kernel.toInt_modEq_iff` — what wrapping is.
* `SparseDot.Kernel.toInt_ofInt_byteSum`, `SparseDot.Kernel.toInt_ofInt_byteSum_of_nonneg` — when nothing is
  wrapped.
* `SparseDot.Kernel.dotInt8_toInt_modEq` — the product of signed bytes.
-/

namespace SparseDot.Kernel

/-! ## Exact sums -/

/-- The exact product of two bytes. -/
def byteProduct (t : Int8 × Int8) : ℤ := t.1.toInt * t.2.toInt

/-- **The exact sum of the products.** -/
def byteSum (ts : List (Int8 × Int8)) : ℤ := (ts.map byteProduct).sum

/-- The exact sum of no products. -/
@[simp] lemma byteSum_nil : byteSum [] = 0 := rfl

/-- The exact sum with one more product. -/
@[simp] lemma byteSum_cons (t : Int8 × Int8) (ts : List (Int8 × Int8)) :
    byteSum (t :: ts) = byteProduct t + byteSum ts := by
  simp [byteSum]

/-- The exact sum does not depend on the order of the products. -/
lemma byteSum_perm {ts us : List (Int8 × Int8)} (h : ts.Perm us) : byteSum ts = byteSum us :=
  (h.map byteProduct).sum_eq

/-- The product of two bytes has at most 15 bits. -/
private lemma abs_byteProduct_le (t : Int8 × Int8) : |byteProduct t| ≤ 2 ^ 14 := by
  have h₁ : |t.1.toInt| ≤ 2 ^ 7 := abs_le.mpr ⟨t.1.le_toInt, t.1.toInt_lt.le⟩
  have h₂ : |t.2.toInt| ≤ 2 ^ 7 := abs_le.mpr ⟨t.2.le_toInt, t.2.toInt_lt.le⟩
  rw [byteProduct, abs_mul]
  exact mul_le_mul h₁ h₂ (abs_nonneg _) (by norm_num)

/-- Two bytes that are not negative are at most `127` each. -/
private lemma byteProduct_bounds {t : Int8 × Int8} (h₁ : 0 ≤ t.1.toInt) (h₂ : 0 ≤ t.2.toInt) :
    0 ≤ byteProduct t ∧ byteProduct t ≤ 127 ^ 2 := by
  have hlt₁ := t.1.toInt_lt
  have hlt₂ := t.2.toInt_lt
  refine ⟨mul_nonneg h₁ h₂, ?_⟩
  calc byteProduct t ≤ 127 * 127 := mul_le_mul (by omega) (by omega) h₂ (by norm_num)
    _ = 127 ^ 2 := by norm_num

/-- A bound on every product bounds the sum. -/
private lemma abs_byteSum_le {ts : List (Int8 × Int8)} {bound : ℤ} (h : ∀ t ∈ ts, |byteProduct t| ≤ bound) :
    |byteSum ts| ≤ ts.length * bound := by
  induction ts with
  | nil => simp
  | cons t ts ih =>
    have hfirst := h t List.mem_cons_self
    have hrest := ih fun u hu => h u (List.mem_cons_of_mem t hu)
    rw [byteSum_cons, List.length_cons, Nat.cast_succ, add_one_mul]
    linarith [abs_add_le (byteProduct t) (byteSum ts)]

/-- Products of bytes that are not negative add up to a sum that is not negative. -/
lemma byteSum_nonneg {ts : List (Int8 × Int8)} (h : ∀ t ∈ ts, 0 ≤ t.1.toInt ∧ 0 ≤ t.2.toInt) :
    0 ≤ byteSum ts := by
  refine List.sum_nonneg fun x hx => ?_
  obtain ⟨t, ht, rfl⟩ := List.mem_map.mp hx
  exact mul_nonneg (h t ht).1 (h t ht).2

/-- They add up to at most `127 ^ 2` each. -/
lemma byteSum_le {ts : List (Int8 × Int8)} (h : ∀ t ∈ ts, 0 ≤ t.1.toInt ∧ 0 ≤ t.2.toInt) :
    byteSum ts ≤ ts.length * 127 ^ 2 := by
  refine (le_abs_self _).trans (abs_byteSum_le fun t ht => ?_)
  obtain ⟨hlow, hhigh⟩ := byteProduct_bounds (h t ht).1 (h t ht).2
  rwa [abs_of_nonneg hlow]

/-! ## Wrapping -/

/-- One step of the running sum, with the sum wrapped before it or after it. -/
private lemma mulAdd_ofInt (n : ℤ) (a b : Int8) :
    Element.mulAdd (Int32.ofInt n) a b = Int32.ofInt (n + byteProduct (a, b)) := by
  rw [byteProduct, Int32.ofInt_add, Int32.ofInt_mul, Int32.ofInt_int8ToInt, Int32.ofInt_int8ToInt]
  rfl

/-- **A running sum is the exact sum, wrapped.**

**Proof sketch.** Induction on the products: one step wraps the sum of the integer and the product. -/
theorem foldl_mulAdd_ofInt (ts : List (Int8 × Int8)) (n : ℤ) :
    ts.foldl (fun acc t => Element.mulAdd acc t.1 t.2) (Int32.ofInt n) = Int32.ofInt (n + byteSum ts) := by
  induction ts generalizing n with
  | nil => simp
  | cons t ts ih => rw [List.foldl_cons, mulAdd_ofInt, ih, byteSum_cons, add_assoc]

/-- **The product of bytes is the exact sum of its terms, wrapped.** -/
theorem dotInt8_eq {tokens : Array Int16} {weights dense : Array Int8}
    (enough : tokens.size ≤ weights.size) :
    dotInt8 tokens weights dense =
      .ok (Int32.ofInt (byteSum (terms tokens weights dense enough 0))) := by
  have hfold := foldl_mulAdd_ofInt (terms tokens weights dense enough 0) 0
  rw [zero_add] at hfold
  rw [dotInt8, dot_eq enough, ← hfold]
  rfl

/-- **What wrapping is**: of the integers that are the same modulo `2 ^ 32` it takes the one of 32 bits.

**Proof sketch.** The wrapped integer is the same as the integer modulo `2 ^ 32`. Two integers of 32 bits that are the
same modulo `2 ^ 32` are equal, as each is its own remainder. -/
theorem toInt_modEq_iff {x : Int32} {n : ℤ} : x.toInt ≡ n [ZMOD 2 ^ 32] ↔ x = Int32.ofInt n := by
  have hwrap : (Int32.ofInt n).toInt ≡ n [ZMOD Int32.size] := by
    rw [Int32.toInt_ofInt]
    exact Int.bmod_emod
  have hsize : (2 ^ 32 : ℤ) = (Int32.size : ℕ) := by norm_num [Int32.size]
  rw [hsize]
  constructor
  · intro h
    have hmod : x.toInt.bmod Int32.size = (Int32.ofInt n).toInt.bmod Int32.size := by
      rw [← Int.emod_bmod, h.trans hwrap.symm, Int.emod_bmod]
    rw [← Int32.toInt_inj]
    exact (Int32.toInt_bmod x).symm.trans (hmod.trans (Int32.toInt_bmod _))
  · rintro rfl
    exact hwrap

/-- **Up to 131071 products** nothing is wrapped: they add up to less than `2 ^ 31`. -/
theorem toInt_ofInt_byteSum {ts : List (Int8 × Int8)} (hcount : ts.length ≤ 131071) :
    (Int32.ofInt (byteSum ts)).toInt = byteSum ts := by
  obtain ⟨hlow, hhigh⟩ := abs_le.mp (abs_byteSum_le fun t (_ : t ∈ ts) => abs_byteProduct_le t)
  have hcount' : (ts.length : ℤ) ≤ 131071 := by exact_mod_cast hcount
  exact Int32.toInt_ofInt_of_le (by omega) (by omega)

/-- **Up to 133144 products** of bytes that are not negative nothing is wrapped. -/
theorem toInt_ofInt_byteSum_of_nonneg {ts : List (Int8 × Int8)}
    (hnonneg : ∀ t ∈ ts, 0 ≤ t.1.toInt ∧ 0 ≤ t.2.toInt) (hcount : ts.length ≤ 133144) :
    (Int32.ofInt (byteSum ts)).toInt = byteSum ts := by
  have hlow := byteSum_nonneg hnonneg
  have hhigh := byteSum_le hnonneg
  have hcount' : (ts.length : ℤ) ≤ 133144 := by exact_mod_cast hcount
  exact Int32.toInt_ofInt_of_le (by omega) (by omega)

/-- **The product of signed bytes.** With a weight for every token, it is the one 32-bit integer that is the
same as the exact sum over the reached positions modulo `2 ^ 32`. With up to 131071 reached positions it is
that sum, and if the weights and dense values there are not negative, then with up to 133144. -/
theorem dotInt8_toInt_modEq (tokens : Array Int16) (weights dense : Array Int8)
    (enough : tokens.size ≤ weights.size) :
    let ts := terms tokens weights dense enough 0
    ∃ product : Int32, dotInt8 tokens weights dense = .ok product ∧
      (∀ x : Int32, x.toInt ≡ byteSum ts [ZMOD 2 ^ 32] ↔ x = product) ∧
      (ts.length ≤ 131071 → product.toInt = byteSum ts) ∧
      ((∀ t ∈ ts, 0 ≤ t.1.toInt ∧ 0 ≤ t.2.toInt) → ts.length ≤ 133144 →
        product.toInt = byteSum ts) := by
  intro ts
  refine ⟨Int32.ofInt (byteSum ts), dotInt8_eq enough, ?_, ?_, ?_⟩
  · exact fun x => toInt_modEq_iff
  · exact fun hcount => toInt_ofInt_byteSum hcount
  · exact fun hnonneg hcount => toInt_ofInt_byteSum_of_nonneg hnonneg hcount

/-- Nine of the largest products, and one of each sign, before a token out of range; and nine of the largest
products of bytes that are not negative. -/
theorem dotInt8_extreme_bytes :
    let tokens : Array Int16 := Array.replicate 9 0 ++ #[1, 2, 3, 0]
    let weights : Array Int8 := Array.replicate 9 (-128) ++ #[127, -128, 1, 1]
    let nonneg : Array Int8 := Array.replicate 13 127
    tokens.size ≤ weights.size ∧ tokens.size ≤ nonneg.size ∧
      (∃ product : Int32, dotInt8 tokens weights #[-128, 127, 127] = .ok product ∧
        product.toInt = 147329) ∧
      ∃ product : Int32, dotInt8 tokens nonneg #[127] = .ok product ∧ product.toInt = 145161 := by
  intro tokens weights nonneg
  obtain ⟨product, hproduct, -, hexact, -⟩ :=
    dotInt8_toInt_modEq tokens weights #[-128, 127, 127] (by decide)
  obtain ⟨product', hproduct', -, -, hexact'⟩ := dotInt8_toInt_modEq tokens nonneg #[127] (by decide)
  have hnonneg : ∀ t ∈ terms tokens nonneg #[127] (by decide) 0, 0 ≤ t.1.toInt ∧ 0 ≤ t.2.toInt := by
    rw [← List.forall_iff_forall_mem]
    decide
  refine ⟨by decide, by decide, ⟨product, hproduct, ?_⟩, ⟨product', hproduct', ?_⟩⟩
  · exact (hexact (by decide)).trans (by decide)
  · exact (hexact' hnonneg (by decide)).trans (by decide)

end SparseDot.Kernel
