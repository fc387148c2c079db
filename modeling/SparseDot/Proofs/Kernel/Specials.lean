import SparseDot.Proofs.Kernel.Accuracy

set_option autoImplicit false

/-!
# NaN and infinities in the kernels

A NaN or an infinity among the weights and dense values may come up in a lane, in the sum of the lanes or in
the scalar walk, and infinities of opposite signs may meet at any of these places. The result is the same
wherever it happens: the class of a sum does not depend on the order, so it can be read off the exact
products. Values at positions that are not reached, and in slots that no reached token addresses, have no part
in it.

## Main results

* `SparseDot.Kernel.kernels_congr` — what the kernels do not look at.
* `SparseDot.Kernel.special_value_of_numberClass` — the class of the products, case by case.
* `SparseDot.Kernel.kernels_special_values` — when the kernels give NaN, an infinity or a number.
-/

namespace SparseDot.Kernel

open Binary

/-- **What the kernels do not look at**: weights at positions that are not reached, and dense values that no
reached token addresses. -/
theorem kernels_congr {tokens : Array Int16} {weights weights' dense dense' : Array Binary32}
    (enough : tokens.size ≤ weights.size) (enough' : tokens.size ≤ weights'.size)
    (hsize : dense'.size = dense.size)
    (hsame : ∀ p ∈ reached tokens dense.size 0,
      weights'[p.index]? = weights[p.index]? ∧ dense'[p.slot]? = dense[p.slot]?) :
    ∀ kernel ∈ [dotSingle, dotGrouped, dotVectorised],
      kernel tokens weights' dense' = kernel tokens weights dense := by
  have hterms := terms_congr enough enough' hsize hsame
  intro kernel hkernel
  simp only [List.mem_cons, List.not_mem_nil, or_false] at hkernel
  rcases hkernel with rfl | rfl | rfl
  · rw [dotSingle, dotSingle, dot_eq enough', dot_eq enough, hterms]
  · rw [dotGrouped_eq enough', dotGrouped_eq enough, hterms]
  · rw [dotVectorised_eq enough', dotVectorised_eq enough, hterms]

/-- The class of a value with this sum of classes of products, case by case.

**Proof sketch.** The class of the sum is read off the classes of the products. It is NaN if one of them is or if there
are both infinities, else the infinity that occurs, and else that of numbers. -/
theorem special_value_of_numberClass {x : Binary32} {ts : List (Binary32 × Binary32)}
    (hx : x.numberClass = (ts.map productClass).sum) :
    let products : List Exact := ts.map fun t => t.1.exact.mul t.2.exact
    let undefined := .nan ∈ products ∨ (.infinity false ∈ products ∧ .infinity true ∈ products)
    (undefined → x = .nan) ∧
      (¬undefined → ∀ s, .infinity s ∈ products → x = .infinity s) ∧
      (¬undefined → (∀ s, .infinity s ∉ products) → x.isFinite) := by
  intro products undefined
  have hmap : ts.map productClass = products.map Exact.numberClass := by
    rw [List.map_map]
    rfl
  have hnan : .nan ∈ products.map Exact.numberClass ↔ .nan ∈ products := by
    simp [List.mem_map, Exact.numberClass_eq_nan_iff]
  have hinfinite : ∀ s, .infinite s ∈ products.map Exact.numberClass ↔ .infinity s ∈ products := by
    simp [List.mem_map, Exact.numberClass_eq_infinite_iff]
  rw [hmap, NumberClass.sum_eq] at hx
  simp only [hnan, hinfinite] at hx
  refine ⟨fun h => ?_, fun h s hs => ?_, fun h hnone => ?_⟩
  · rw [if_pos h] at hx
    exact numberClass_eq_nan_iff.mp hx
  · rw [if_neg h] at hx
    -- there is no infinite product of the other sign
    cases s with
    | false =>
      rw [if_pos hs] at hx
      exact numberClass_eq_infinite_iff.mp hx
    | true =>
      rw [if_neg fun hpositive => h (.inr ⟨hpositive, hs⟩), if_pos hs] at hx
      exact numberClass_eq_infinite_iff.mp hx
  · rw [if_neg h, if_neg (hnone false), if_neg (hnone true)] at hx
    exact numberClass_eq_finite_iff.mp hx

/-- **NaN and infinities come out of all kernels alike.** If there are not too many reached positions, and the
products of numbers among them are not too large, then the result of each kernel is NaN exactly if one of the
products is, or if there are infinite products of both signs; otherwise it is infinite exactly if one of the
products is, with its sign. A product is NaN if a factor is, or if it is of infinity and zero. Weights and dense
values that are not reached have no influence, and no condition on products is needed for that. -/
theorem kernels_special_values (tokens : Array Int16) (weights dense : Array Binary32)
    (enough : tokens.size ≤ weights.size) :
    let ts := terms tokens weights dense enough 0
    let products : List Exact := ts.map fun t => t.1.exact.mul t.2.exact
    let undefined := .nan ∈ products ∨ (.infinity false ∈ products ∧ .infinity true ∈ products)
    (ts.length ≤ 2 ^ 20 → magnitudeSum (ts.filter fun t => t.1.isFinite && t.2.isFinite) ≤ 2 ^ 126 →
      ∃ single grouped vectorised : Binary32,
        dotSingle tokens weights dense = .ok single ∧
        dotGrouped tokens weights dense = .ok grouped ∧
        dotVectorised tokens weights dense = .ok vectorised ∧
        ∀ x ∈ [single, grouped, vectorised],
          (undefined → x = .nan) ∧
            (¬undefined → ∀ s, .infinity s ∈ products → x = .infinity s) ∧
            (¬undefined → (∀ s, .infinity s ∉ products) → x.isFinite)) ∧
    (∀ x y : Binary32, x.exact.mul y.exact = .nan ↔
      x = .nan ∨ y = .nan ∨ ∃ s t, x = .infinity s ∧ y = zero t ∨ x = zero s ∧ y = .infinity t) ∧
    ∀ weights' dense' : Array Binary32, tokens.size ≤ weights'.size → dense'.size = dense.size →
      (∀ p ∈ reached tokens dense.size 0,
        weights'[p.index]? = weights[p.index]? ∧ dense'[p.slot]? = dense[p.slot]?) →
      ∀ kernel ∈ [dotSingle, dotGrouped, dotVectorised],
        kernel tokens weights' dense' = kernel tokens weights dense := by
  intro ts products undefined
  refine ⟨?_, fun x y => mul_exact_eq_nan_iff, fun weights' dense' enough' => kernels_congr enough enough'⟩
  intro hcount hmagnitude
  rw [magnitudeSum_filter_isFinite] at hmagnitude
  obtain ⟨single, grouped, vectorised, hsingle, hgrouped, hvectorised, hfollows⟩ :=
    kernels_follow tokens weights dense enough hcount hmagnitude
  exact ⟨single, grouped, vectorised, hsingle, hgrouped, hvectorised, fun x hx =>
    special_value_of_numberClass (hfollows x hx).numberClass_eq⟩

/-- The first position goes to a lane and the tenth to the scalar walk. Where infinities of opposite signs meet
there, the result is NaN; if they have the same sign, it is that infinity, although there are NaNs behind the
end of the walk and in a slot that is not addressed. Without these it is the same. -/
theorem kernels_special_values_lane_and_rest :
    let tokens : Array Int16 := #[0, 1, 1, 1, 1, 1, 1, 1, 1, 2, -1, 3]
    let weights : Array Binary32 := Array.replicate 10 (ofNat 5) ++ #[.nan, .nan]
    let dense : Bool → Array Binary32 := fun s => #[.infinity false, ofNat 3, .infinity s, .nan]
    tokens.size ≤ weights.size ∧
      (dotSingle tokens weights (dense true) = .ok .nan ∧ dotVectorised tokens weights (dense true) = .ok .nan) ∧
      (dotSingle tokens weights (dense false) = .ok (.infinity false) ∧
        dotVectorised tokens weights (dense false) = .ok (.infinity false)) ∧
      dotGrouped tokens (Array.replicate 12 (ofNat 5)) #[.infinity false, ofNat 3, .infinity false, ofNat 7] =
        dotGrouped tokens weights (dense false) := by
  intro tokens weights dense
  have hopposite := kernels_special_values tokens weights (dense true) (by decide)
  have hequal := kernels_special_values tokens weights (dense false) (by decide)
  refine ⟨by decide, ?_, ?_, ?_⟩
  · obtain ⟨x, _, y, hx, -, hy, hvalue⟩ := hopposite.1 (by decide +kernel) (by decide +kernel)
    have hx' := (hvalue x (by simp)).1 (by decide +kernel)
    have hy' := (hvalue y (by simp)).1 (by decide +kernel)
    exact ⟨hx' ▸ hx, hy' ▸ hy⟩
  · obtain ⟨x, _, y, hx, -, hy, hvalue⟩ := hequal.1 (by decide +kernel) (by decide +kernel)
    have hx' := (hvalue x (by simp)).2.1 (by decide +kernel) false (by decide +kernel)
    have hy' := (hvalue y (by simp)).2.1 (by decide +kernel) false (by decide +kernel)
    exact ⟨hx' ▸ hx, hy' ▸ hy⟩
  · exact hequal.2.2 (Array.replicate 12 (ofNat 5)) #[.infinity false, ofNat 3, .infinity false, ofNat 7]
      (by decide) (by decide) (by decide +kernel) dotGrouped (by simp)

end SparseDot.Kernel
