import Mathlib.Data.List.Nodup
import SparseDot.Proofs.Kernel.Ordered
import SparseDot.Proofs.Kernel.Skipping

set_option autoImplicit false

/-!
# Vectors built from pairs

Building a vector from pairs sorts them by token. The sort is stable: pairs with equal tokens stay in the order
in which they came. So the order of the pairs is visible in the vector, but only through equal tokens, and in
the product of bytes it is not visible at all, because wrapping sums do not depend on the order.

## Main results

* `SparseDot.Kernel.filter_entries_ofPairs` — pairs with equal tokens keep their order.
* `SparseDot.Kernel.ofPairs_eq_of_perm` — with different tokens the order of the pairs is lost.
* `SparseDot.Kernel.ofPairs_dot_eq_of_perm` — it is never seen in the product of bytes.
* `SparseDot.Kernel.ofPairs_sorts_stably` — what building from pairs does.
-/

namespace SparseDot.Kernel

section OfPairs

variable {α : Type}

/-- The vector of these pairs has as many tokens as there are pairs. -/
private lemma size_tokens_ofPairs (pairs : List (Int16 × α)) :
    (SparseVector.ofPairs pairs).tokens.size = pairs.length := by
  rw [← length_entries (SparseVector.ofPairs pairs).size_eq.le, (entries_ofPairs_perm pairs).length_eq]

/-- The vector of any pairs is ordered. -/
private lemma isOrdered_ofPairs (pairs : List (Int16 × α)) : (SparseVector.ofPairs pairs).isOrdered = true := by
  rw [isOrdered_iff_pairwise]
  have hsorted := pairwise_entries_ofPairs pairs
  rw [entries_ofPairs] at hsorted
  exact List.pairwise_map.mpr hsorted

/-- **Pairs with equal tokens keep their order.**

**Proof sketch.** The pairs with one token are sorted as they are, so a stable sort keeps them as a part of its
result. There are no others with this token in it. -/
theorem filter_entries_ofPairs (pairs : List (Int16 × α)) (token : Int16) :
    (entries (SparseVector.ofPairs pairs).tokens (SparseVector.ofPairs pairs).weights).filter
      (fun e => e.1 == token) = pairs.filter fun e => e.1 == token := by
  have hperm := (entries_ofPairs_perm pairs).filter fun e => e.1 == token
  have hsame : (pairs.filter fun e => e.1 == token).Pairwise fun a b => decide (a.1 ≤ b.1) = true := by
    refine List.pairwise_of_forall_mem_list fun a ha b hb => ?_
    have hatoken : a.1 = token := eq_of_beq (List.mem_filter.mp ha).2
    have hbtoken : b.1 = token := eq_of_beq (List.mem_filter.mp hb).2
    rw [hatoken, hbtoken]
    exact decide_eq_true (Int16.le_refl token)
  -- the sort keeps a sorted part of its input, and the lengths leave no room for anything else
  have hsublist := List.sublist_mergeSort tokenLE_trans tokenLE_total hsame List.filter_sublist
  have hfilter := hsublist.filter fun e => e.1 == token
  rw [List.filter_filter, ← entries_ofPairs] at hfilter
  simp only [Bool.and_self] at hfilter
  exact (hfilter.eq_of_length hperm.length_eq.symm).symm

/-- **With different tokens the order of the pairs is lost.**

**Proof sketch.** Both sorted lists are ordered, and they are permutations of each other. Pairs that are each at most
the other have the same token, and then they are the same pair. -/
theorem ofPairs_eq_of_perm {pairs pairs' : List (Int16 × α)} (hperm : pairs.Perm pairs')
    (hnodup : (pairs.map Prod.fst).Nodup) : SparseVector.ofPairs pairs = SparseVector.ofPairs pairs' := by
  have hentries : ((pairs.mergeSort fun a b => decide (a.1 ≤ b.1))).Perm
      (pairs'.mergeSort fun a b => decide (a.1 ≤ b.1)) :=
    ((List.mergeSort_perm _ _).trans hperm).trans (List.mergeSort_perm _ _).symm
  have hsorted : pairs.mergeSort (fun a b => decide (a.1 ≤ b.1)) =
      pairs'.mergeSort fun a b => decide (a.1 ≤ b.1) := by
    refine hentries.eq_of_pairwise ?_ (List.pairwise_mergeSort tokenLE_trans tokenLE_total pairs)
      (List.pairwise_mergeSort tokenLE_trans tokenLE_total pairs')
    intro a b ha hb hab hba
    have htoken : a.1 = b.1 := Int16.le_antisymm (of_decide_eq_true hab) (of_decide_eq_true hba)
    exact List.inj_on_of_nodup_map hnodup (List.mem_mergeSort.mp ha)
      (hperm.mem_iff.mpr (List.mem_mergeSort.mp hb)) htoken
  simp only [SparseVector.ofPairs, hsorted]

end OfPairs

/-- **The order of the pairs is never seen in the product of bytes**, not even among equal tokens. -/
theorem ofPairs_dot_eq_of_perm {pairs pairs' : List (Int16 × Int8)} (hperm : pairs.Perm pairs')
    (dense : Array Int8) :
    (SparseVector.ofPairs pairs).dot dense = (SparseVector.ofPairs pairs').dot dense := by
  by_cases hneg : ∃ p ∈ pairs, p.1.toInt < 0
  · obtain ⟨p, hp, hlt⟩ := hneg
    rw [ofPairs_dot_of_negative hp hlt, ofPairs_dot_of_negative (hperm.mem_iff.mp hp) hlt]
  · have hnonneg : ∀ p ∈ pairs, 0 ≤ p.1.toInt := fun p hp =>
      Int.not_lt.mp fun hlt => hneg ⟨p, hp, hlt⟩
    rw [ofPairs_dot_of_nonneg hnonneg, ofPairs_dot_of_nonneg fun p hp => hnonneg p (hperm.mem_iff.mpr hp),
      byteSum_perm (hperm.filterMap (factors? dense))]

/-- **Building from pairs is a stable sort.** The vector has a token and a weight for each pair; they are these
pairs in another order; the vector passes its test for order; and the pairs with any one token are in the order
in which they came. So pairs with different tokens give the same vector in whatever order they come, and any
pairs of bytes the same product. -/
theorem ofPairs_sorts_stably :
    (∀ {α : Type} (pairs : List (Int16 × α)),
      let v := SparseVector.ofPairs pairs
      v.tokens.size = pairs.length ∧ v.weights.size = pairs.length ∧
      (entries v.tokens v.weights).Perm pairs ∧
      v.isOrdered = true ∧
      ∀ token, (entries v.tokens v.weights).filter (fun e => e.1 == token) = pairs.filter fun e => e.1 == token) ∧
    (∀ {α : Type} (pairs pairs' : List (Int16 × α)), pairs.Perm pairs' → (pairs.map Prod.fst).Nodup →
      SparseVector.ofPairs pairs = SparseVector.ofPairs pairs') ∧
    ∀ pairs pairs' : List (Int16 × Int8), pairs.Perm pairs' → ∀ dense : Array Int8,
      (SparseVector.ofPairs pairs).dot dense = (SparseVector.ofPairs pairs').dot dense := by
  refine ⟨?_, fun pairs pairs' => ofPairs_eq_of_perm, fun pairs pairs' => ofPairs_dot_eq_of_perm⟩
  intro α pairs v
  have hsize : v.tokens.size = pairs.length := size_tokens_ofPairs pairs
  exact ⟨hsize, v.size_eq.symm.trans hsize, entries_ofPairs_perm pairs, isOrdered_ofPairs pairs,
    filter_entries_ofPairs pairs⟩

/-- Two of five pairs have the same token. They stay in order, and turning the pairs round keeps the product of
bytes. Without one of the two the vector itself stays the same. -/
theorem ofPairs_sorts_stably_five :
    let pairs : List (Int16 × Int8) := [(3, 1), (1, 20), (2, -7), (1, 50), (0, 2)]
    let distinct : List (Int16 × Int8) := [(3, 1), (1, 20), (2, -7), (0, 2)]
    let v := SparseVector.ofPairs pairs
    v.isOrdered = true ∧
      (entries v.tokens v.weights).filter (fun e => e.1 == 1) = [(1, 20), (1, 50)] ∧
      (pairs.Perm pairs.reverse ∧
        v.dot #[100, 100, 100] = (SparseVector.ofPairs pairs.reverse).dot #[100, 100, 100]) ∧
      distinct.Perm distinct.reverse ∧ (distinct.map Prod.fst).Nodup ∧
      SparseVector.ofPairs distinct = SparseVector.ofPairs distinct.reverse := by
  intro pairs distinct v
  obtain ⟨-, -, -, hordered, hstable⟩ := ofPairs_sorts_stably.1 pairs
  have hpairs : pairs.Perm pairs.reverse := (List.reverse_perm pairs).symm
  have hdistinct : distinct.Perm distinct.reverse := (List.reverse_perm distinct).symm
  have hnodup : (distinct.map Prod.fst).Nodup := by decide
  exact ⟨hordered, hstable 1, ⟨hpairs, ofPairs_sorts_stably.2.2 pairs pairs.reverse hpairs _⟩, hdistinct,
    hnodup, ofPairs_sorts_stably.2.1 distinct distinct.reverse hdistinct hnodup⟩

end SparseDot.Kernel
