import SparseDot.Proofs.Kernel.Lanes

set_option autoImplicit false

/-!
# Early exit and skipping

A kernel that stops at the first token out of range and one that skips such tokens and goes on are different
programs. On ordered tokens that are not negative they do the same: a token in range has only tokens in range
before it, so the positions in range are the first ones, and a kernel reaches all of them. It then makes no
difference how a kernel is organised, and where the last token in range falls in a block or in a group.

## Main definitions

* `SparseDot.Kernel.Ordered` — each token is at most any later one.
* `SparseDot.Kernel.inRangePositions` — all positions in range, whether a kernel reaches them or not.
* `SparseDot.Kernel.skippingWalk` — the product with tokens out of range skipped.

## Main results

* `SparseDot.Kernel.isOrdered_iff` — what the test on neighbours says about all tokens.
* `SparseDot.Kernel.reached_eq_inRangePositions` — all positions in range are reached.
* `SparseDot.Kernel.length_inRangePositions` — there are as many of them as tokens in range.
* `SparseDot.Kernel.early_exit_eq_skipping` — what this means for the kernels.
-/

namespace SparseDot.Kernel

/-! ## Order -/

/-- **Each token is at most any later one.** -/
def Ordered (tokens : Array Int16) : Prop :=
  ∀ (i j : ℕ) (hij : i < j) (hj : j < tokens.size), getElem tokens i (hij.trans hj) ≤ getElem tokens j hj

/-- Comparing the elements of a list with their successors. -/
private lemma all_zip_tail_iff {γ : Type} {r : γ → γ → Prop} [DecidableRel r] {l : List γ} :
    ((l.zip l.tail).all fun (a, b) => decide (r a b)) = true ↔ l.IsChain r := by
  induction l with
  | nil => simp
  | cons a l ih =>
    cases l with
    | nil => simp
    | cons b l =>
      rw [List.tail_cons, List.zip_cons_cons, List.all_cons, Bool.and_eq_true, decide_eq_true_iff,
        List.isChain_cons_cons, ← ih, List.tail_cons]

/-- Comparing neighbours is comparing all tokens in order. -/
lemma isOrdered_iff_pairwise {α : Type} {v : SparseVector α} :
    v.isOrdered = true ↔ v.tokens.toList.Pairwise (· ≤ ·) := by
  rw [SparseVector.isOrdered, all_zip_tail_iff, List.isChain_iff_pairwise]

/-- **No token is smaller than the one before it exactly if each is at most any later one.**

**Proof sketch.** The test compares neighbours, which is comparing all tokens in order, and that says the same place by
place. -/
theorem isOrdered_iff {α : Type} (v : SparseVector α) : v.isOrdered = true ↔ Ordered v.tokens := by
  rw [isOrdered_iff_pairwise, List.pairwise_iff_getElem]
  constructor
  · exact fun h i j hij hj => h i j (hij.trans hj) hj hij
  · exact fun h i j _ hj hij => h i j hij hj

section Positions

variable {tokens : Array Int16} {size : ℕ}

/-- **Before a token in range there are only tokens in range**, as long as none is negative. -/
theorem Ordered.inRange_of_le (hordered : Ordered tokens) (hnonneg : ∀ t ∈ tokens, 0 ≤ t.toInt) {i j : ℕ}
    (hij : i ≤ j) (h : InRange tokens size j) : InRange tokens size i := by
  rcases hij.eq_or_lt with rfl | hlt
  · exact h
  · obtain ⟨hj, -, hhigh⟩ := h
    have hi : i < tokens.size := hlt.trans hj
    have hle := Int16.le_iff_toInt_le.mp (hordered i j hlt hj)
    exact ⟨hi, hnonneg _ (Array.getElem_mem hi), hle.trans_lt hhigh⟩

/-! ## The positions in range -/

/-- The position at a place, if its token is in range. -/
def position? (tokens : Array Int16) (size i : ℕ) : Option (Position tokens size) :=
  if h : InRange tokens size i then some h.position else none

/-- **All positions in range**, in order. -/
def inRangePositions (tokens : Array Int16) (size : ℕ) : List (Position tokens size) :=
  (List.range tokens.size).filterMap (position? tokens size)

/-- A walk reaches all positions in range that are not before its start.

**Proof sketch.** Induction along the walk. It stops at a position out of range, and then no later one is in
range either. -/
private lemma reached_eq_filterMap
    (hclosed : ∀ {i j}, i ≤ j → InRange tokens size j → InRange tokens size i) (i : ℕ) :
    reached tokens size i = (List.range' i (tokens.size - i)).filterMap (position? tokens size) := by
  induction i using reached_induction tokens size with
  | stop i h =>
    have hnone : ∀ j ∈ List.range' i (tokens.size - i), position? tokens size j = none := by
      intro j hj
      exact dif_neg fun hr => h (hclosed (List.mem_range'_1.mp hj).1 hr)
    rw [reached_of_not_inRange h, List.filterMap_eq_nil_iff.mpr hnone]
  | step i h ih =>
    obtain ⟨count, hcount⟩ : ∃ count, tokens.size - i = count + 1 :=
      ⟨tokens.size - i - 1, by have := h.1; omega⟩
    have hposition : position? tokens size i = some h.position := dif_pos h
    rw [reached_of_inRange h, ih, hcount, List.range'_succ, List.filterMap_cons_some hposition,
      show tokens.size - (i + 1) = count by omega]

/-- **All positions in range are reached**, if the tokens are ordered and none is negative. -/
theorem reached_eq_inRangePositions (hordered : Ordered tokens) (hnonneg : ∀ t ∈ tokens, 0 ≤ t.toInt) :
    reached tokens size 0 = inRangePositions tokens size := by
  rw [reached_eq_filterMap (hordered.inRange_of_le hnonneg), inRangePositions, List.range_eq_range', Nat.sub_zero]

/-- **There are as many positions in range as tokens in range.**

**Proof sketch.** A place has a position exactly if its token is in range. So counting the places that have one is
counting the tokens in range. -/
theorem length_inRangePositions : (inRangePositions tokens size).length =
    tokens.toList.countP fun t : Int16 => decide (0 ≤ t.toInt ∧ t.toInt < size) := by
  have hsome : ∀ (i : ℕ) (hi : i < tokens.size), (position? tokens size i).isSome =
      decide (0 ≤ tokens[i].toInt ∧ tokens[i].toInt < size) := by
    intro i hi
    by_cases h : InRange tokens size i
    · rw [position?, dif_pos h, Option.isSome_some]
      exact (decide_eq_true h.2).symm
    · rw [position?, dif_neg h, Option.isSome_none]
      exact (decide_eq_false fun hr => h ⟨hi, hr⟩).symm
  have hrange : List.range tokens.size = (List.finRange tokens.toList.length).map Fin.val := by
    simp
  rw [inRangePositions, List.length_filterMap_eq_countP, hrange, List.countP_map]
  conv_rhs => rw [← List.map_getElem_finRange tokens.toList, List.countP_map]
  congr 1
  funext i
  exact hsome i i.isLt

/-- A walk that starts before the end of the walk from the first position ends with it.

**Proof sketch.** Both ends are out of range, and what stands before each of them is in range. So neither can be before
the other. -/
private lemma reach_of_le {start : ℕ} (h : start ≤ reach tokens size 0) :
    reach tokens size start = reach tokens size 0 := by
  have hwhole : EndsReach tokens size (min 0 tokens.size) (reach tokens size 0) := endsReach_reach 0
  have hrest : EndsReach tokens size (min start tokens.size) (reach tokens size start) := endsReach_reach start
  rw [Nat.min_eq_left (h.trans hwhole.last_le)] at hrest
  rcases lt_trichotomy (reach tokens size start) (reach tokens size 0) with hlt | heq | hgt
  · exact absurd (hwhole.inRange _ (by omega) hlt) hrest.not_inRange
  · exact heq
  · exact absurd (hrest.inRange _ h hgt) hwhole.not_inRange

end Positions

/-! ## The kernels -/

section Kernels

variable {α β : Type} [Element α β] (tokens : Array Int16) (weights dense : Array α)
  (enough : tokens.size ≤ weights.size)

/-- **The product with tokens out of range skipped**: every position has its turn, and one in range adds its
product. -/
def skippingWalk : β :=
  (List.range tokens.size).foldl (fun acc i =>
    if h : InRange tokens dense.size i then
      Element.mulAdd acc (h.position.weight weights enough) (h.position.value dense)
    else acc) (Element.zero α)

/-- Folding over the positions in range is skipping the others. -/
private lemma foldl_inRangePositions :
    (inRangePositions tokens dense.size).foldl
      (fun acc p => Element.mulAdd acc (p.weight weights enough) (p.value dense)) (Element.zero α) =
      skippingWalk tokens weights dense enough := by
  rw [inRangePositions, List.foldl_filterMap, skippingWalk]
  congr 1
  funext acc i
  by_cases h : InRange tokens dense.size i
  · rw [position?, dif_pos h, dif_pos h]
  · rw [position?, dif_neg h, dif_neg h]

/-- **A kernel that stops early gives what one that skips would give.** -/
theorem dot_eq_skippingWalk (hordered : Ordered tokens) (hnonneg : ∀ t ∈ tokens, 0 ≤ t.toInt) :
    dot tokens weights dense = .ok (skippingWalk tokens weights dense enough) := by
  rw [dot_eq enough, foldl_terms, plainWalk, reached_eq_inRangePositions hordered hnonneg,
    foldl_inRangePositions]

end Kernels

/-- **The loop over the groups by positions**: it ends at a multiple of eight, and each lane holds the products at
its positions.

**Proof sketch.** The terms are what stands at the positions, so each lane of the terms is that lane of the positions,
read. -/
theorem takeGroups_positions {tokens : Array Int16} {weights dense : Array Binary32}
    (enough : tokens.size ≤ weights.size) {add : ℕ → Lanes → Lanes → Except Fault Lanes}
    (hadd : AddsGroup weights add) {positions : List (Position tokens dense.size)}
    (hpositions : reached tokens dense.size 0 = positions) (buffer : Lanes) :
    takeGroups tokens dense add (groupLimit tokens.size) 0 buffer (Vector.replicate laneCount (Binary.zero false)) =
      .ok (laneCount * (positions.length / laneCount), Vector.ofFn fun j =>
        (lane positions (Nat.mul_div_le positions.length laneCount) j).foldl
          (fun sum p => Binary.fma (p.weight weights enough) (p.value dense) sum) (Binary.zero false)) := by
  -- stated for any number that is that of the groups, because the proofs in the lanes depend on it
  have hlanes : ∀ groups, (terms tokens weights dense enough 0).length / laneCount = groups →
      ∀ h : laneCount * groups ≤ positions.length,
      Vector.ofFn (laneSum (terms tokens weights dense enough 0) (Nat.mul_div_le _ laneCount)) =
        Vector.ofFn fun j => (lane positions h j).foldl
          (fun sum p => Binary.fma (p.weight weights enough) (p.value dense) sum) (Binary.zero false) := by
    subst hpositions
    rintro _ rfl h
    congr 1
    funext j
    rw [laneSum]
    simp only [terms, lane_map, List.foldl_map]
  have hgroups : (terms tokens weights dense enough 0).length / laneCount = positions.length / laneCount := by
    rw [length_terms, hpositions]
  rw [takeGroups_zeros dense enough hadd, hlanes _ hgroups (Nat.mul_div_le positions.length laneCount), hgroups]

/-- The scalar walk from a reached position on takes the positions that are left. -/
private lemma dotFrom_drop_positions {tokens : Array Int16} {weights dense : Array Binary32}
    (enough : tokens.size ≤ weights.size) {positions : List (Position tokens dense.size)}
    (hpositions : reached tokens dense.size 0 = positions) {last : ℕ} (hlast : last ≤ positions.length)
    (acc : Binary32) : dotFrom tokens weights dense last acc =
      .ok ((positions.drop last).foldl (fun acc p => acc + p.weight weights enough * p.value dense) acc) := by
  subst hpositions
  have hdrop := terms_eq_drop enough (hlast.trans_eq (length_terms enough 0).symm)
  rw [dotFrom_eq enough, hdrop, terms, ← List.map_drop, List.foldl_map]
  rfl

/-- **Early exit equals skipping on ordered tokens.** A vector passes its test exactly if each token is at most
any later one. If moreover no token is negative, then a walk reaches as many positions as there are tokens in
range, and for every element type the product is the one that skips tokens out of range and goes on. In single
precision, the loop over the groups deals out the first of these positions to the lanes and ends at a multiple
of eight, and the scalar walk takes the others from there; each position in range is used exactly once. -/
theorem early_exit_eq_skipping :
    (∀ {α : Type} (v : SparseVector α), v.isOrdered = true ↔ Ordered v.tokens) ∧
    ∀ tokens : Array Int16, Ordered tokens → (∀ t ∈ tokens, 0 ≤ t.toInt) →
      (∀ {α β : Type} [Element α β] (weights dense : Array α) (enough : tokens.size ≤ weights.size),
        reach tokens dense.size 0 =
          tokens.toList.countP (fun t : Int16 => decide (0 ≤ t.toInt ∧ t.toInt < dense.size)) ∧
        dot tokens weights dense = .ok (skippingWalk tokens weights dense enough)) ∧
      ∀ (weights dense : Array Binary32) (enough : tokens.size ≤ weights.size),
        let positions := inRangePositions tokens dense.size
        let lanes := lane positions (Nat.mul_div_le positions.length laneCount)
        let last := laneCount * (positions.length / laneCount)
        let zeros := Vector.replicate laneCount (Binary.zero false)
        positions.map (·.index) = List.range positions.length ∧
        ((List.finRange laneCount).flatMap lanes ++ positions.drop last).Perm positions ∧
        (∀ add ∈ [accumulate weights, accumulateAtOnce weights], ∀ buffer,
          takeGroups tokens dense add (groupLimit tokens.size) 0 buffer zeros =
            .ok (last, Vector.ofFn fun j => (lanes j).foldl
              (fun sum p => Binary.fma (p.weight weights enough) (p.value dense) sum) (Binary.zero false))) ∧
        reach tokens dense.size last = positions.length ∧
        (∀ acc, dotFrom tokens weights dense last acc =
          .ok ((positions.drop last).foldl (fun acc p => acc + p.weight weights enough * p.value dense) acc)) ∧
        dotGrouped tokens weights dense =
          .ok (groupedSum (positions.map fun p => (p.weight weights enough, p.value dense))) ∧
        dotVectorised tokens weights dense =
          .ok (groupedSum (positions.map fun p => (p.weight weights enough, p.value dense))) := by
  refine ⟨isOrdered_iff, fun tokens hordered hnonneg => ⟨?_, ?_⟩⟩
  · intro α β _ weights dense enough
    refine ⟨?_, dot_eq_skippingWalk tokens weights dense enough hordered hnonneg⟩
    rw [reach, reached_eq_inRangePositions hordered hnonneg, length_inRangePositions, Nat.zero_min, Nat.zero_add]
  · intro weights dense enough positions lanes last zeros
    have hpositions : reached tokens dense.size 0 = positions := reached_eq_inRangePositions hordered hnonneg
    have hreach : reach tokens dense.size 0 = positions.length := by
      rw [reach, hpositions, Nat.zero_min, Nat.zero_add]
    have hlast : last ≤ positions.length := Nat.mul_div_le positions.length laneCount
    refine ⟨?_, flatMap_lane_append_perm _ _, ?_, ?_, ?_, ?_, ?_⟩
    · rw [← hpositions, map_index_reached, List.range_eq_range']
    · exact fun add hmem buffer => takeGroups_positions enough (addsGroup_of_mem hmem) hpositions buffer
    · rw [reach_of_le (hlast.trans_eq hreach.symm), hreach]
    · exact dotFrom_drop_positions enough hpositions hlast
    · rw [dotGrouped_eq enough, terms, hpositions]
    · rw [dotVectorised_eq enough, terms, hpositions]

/-- Eleven of fourteen tokens are in range, some of them equal: eight positions go to the lanes, three to the
scalar walk, and behind them come two tokens that are just too large. -/
theorem early_exit_eq_skipping_eleven :
    let tokens : Array Int16 := #[0, 0, 1, 1, 1, 1, 2, 2, 2, 2, 2, 3, 3, 7]
    let weights : Array Binary32 := Array.replicate 14 (Binary.ofNat 3)
    let dense : Array Binary32 := #[Binary.ofNat 1, Binary.ofInt (-20), Binary.ofNat 300]
    (Ordered tokens ∧ (∀ t ∈ tokens, 0 ≤ t.toInt) ∧ tokens.size ≤ weights.size) ∧
      reach tokens dense.size 0 = 11 ∧ reach tokens dense.size 8 = 11 ∧
      dotSingle tokens weights dense = .ok (Binary.ofInt 4266) ∧
      dotVectorised tokens weights dense = .ok (Binary.ofInt 4266) := by
  intro tokens weights dense
  have hordered : Ordered tokens :=
    (early_exit_eq_skipping.1 ⟨tokens, weights, by decide⟩).mp (by decide)
  have hall : tokens.toList.all (fun t => decide (0 ≤ t.toInt)) = true := by decide
  have hnonneg : ∀ t ∈ tokens, 0 ≤ t.toInt := fun t ht =>
    of_decide_eq_true (List.all_eq_true.mp hall t (Array.mem_toList_iff.mpr ht))
  have hwalk := (early_exit_eq_skipping.2 tokens hordered hnonneg).1 weights dense (by decide)
  have hgroups := (early_exit_eq_skipping.2 tokens hordered hnonneg).2 weights dense (by decide)
  have hcount : (inRangePositions tokens dense.size).length = 11 := by decide +kernel
  refine ⟨⟨hordered, hnonneg, by decide⟩, hwalk.1.trans (by decide), ?_, ?_, ?_⟩
  · have hlast : laneCount * (11 / laneCount) = 8 := by decide
    have hreach := hgroups.2.2.2.1
    rwa [hcount, hlast] at hreach
  · exact hwalk.2.trans (by decide +kernel)
  · exact hgroups.2.2.2.2.2.2.trans (by decide +kernel)

end SparseDot.Kernel
