import SparseDot.Proofs.Kernel.Reach
import SparseDot.SparseVector

set_option autoImplicit false

/-!
# The scalar kernel is a left fold

The scalar kernel takes four positions at a time and what is left one by one, and it may stop between any
two positions. All the same it adds up the products at the reached positions from left to right, each of
them once, and it reads nothing that is not there.

## Main results

* `SparseDot.Kernel.advanceBlocks_eq` — blocks and rest are one plain walk.
* `SparseDot.Kernel.dotFrom_eq` — the kernel, from any start, is a fold over the terms of the product.
* `SparseDot.Kernel.dotFrom_eq_plainWalk` — the same, with the reached positions spelled out.
-/

namespace SparseDot.Kernel

section Walk

variable {α β : Type} [Element α β] {tokens : Array Int16} {weights dense : Array α}

/-- Reading inside an array does not fault. -/
private lemma read_of_lt {γ : Type} {xs : Array γ} {i : ℕ} (h : i < xs.size) :
    (read xs i : Except (Stop β) γ) = .ok xs[i] := by
  rw [read, fetch_of_lt h]
  rfl

/-! ## One position -/

/-- A position in range adds its product. -/
private lemma advance_position (enough : tokens.size ≤ weights.size) (p : Position tokens dense.size)
    (acc : β) :
    advance tokens weights dense p.index acc =
      .ok (Element.mulAdd acc (p.weight weights enough) (p.value dense)) := by
  rw [advance, read_of_lt p.index_lt]
  simp only [bind, Except.bind]
  rw [p.slot_token]
  simp only [read_of_lt (p.index_lt.trans_le enough), read_of_lt p.slot_lt]
  rfl

/-- A token out of range stops the walk. -/
private lemma advance_of_not_inRange {i : ℕ} (hi : i < tokens.size) (h : ¬InRange tokens dense.size i)
    (acc : β) : advance tokens weights dense i acc = .error (.outOfRange acc) := by
  rw [advance, read_of_lt hi]
  simp only [bind, Except.bind]
  rw [slot_of_not_inRange hi h]

/-! ## Unrolling -/

/-- A plain walk takes one position and goes on behind it. -/
private lemma advanceRest_of_lt {i : ℕ} (hi : i < tokens.size) (acc : β) :
    advanceRest tokens weights dense i acc =
      advance tokens weights dense i acc >>= advanceRest tokens weights dense (i + 1) := by
  rw [advanceRest, if_pos hi]

/-- A block is four positions of a plain walk.

**Proof sketch.** The plain walk takes one position and goes on, four times, as there are four more tokens. -/
private lemma advanceFour_bind {i : ℕ} (hi : i + unroll ≤ tokens.size) (acc : β) :
    advanceFour tokens weights dense i acc >>= advanceRest tokens weights dense (i + unroll) =
      advanceRest tokens weights dense i acc := by
  simp only [unroll] at hi ⊢
  rw [advanceFour, advanceRest_of_lt (by omega)]
  simp only [bind_assoc]
  refine congrArg _ (funext fun acc => ?_)
  rw [advanceRest_of_lt (by omega)]
  refine congrArg _ (funext fun acc => ?_)
  rw [advanceRest_of_lt (by omega)]
  refine congrArg _ (funext fun acc => ?_)
  rw [advanceRest_of_lt (by omega)]

/-- The whole blocks end within the tokens. -/
private lemma blockLimit_le (start size : ℕ) : blockLimit start size ≤ size := Nat.sub_le _ _

/-- From the start up to the limit there are whole blocks. -/
private lemma unroll_dvd_blockLimit (start size : ℕ) : unroll ∣ blockLimit start size - min start size := by
  simp only [unroll, blockLimit]
  omega

/-- **Blocks and rest are one plain walk**, if up to the limit there are whole blocks.

**Proof sketch.** Induction on the loop over the blocks. Below the limit there is a whole block, which lies within
the tokens and is four positions of the plain walk; from the limit on, the two walks are the same. -/
theorem advanceBlocks_eq {limit i : ℕ} (hlimit : limit ≤ tokens.size) (hblocks : unroll ∣ limit - i) (acc : β) :
    advanceBlocks tokens weights dense limit i acc = advanceRest tokens weights dense i acc := by
  fun_induction advanceBlocks tokens weights dense limit i acc with
  | case1 i acc hi ih =>
    have hblock : i + unroll ≤ limit := by
      have := Nat.le_of_dvd (Nat.sub_pos_of_lt hi) hblocks
      omega
    have hrest : unroll ∣ limit - (i + unroll) := by
      rw [← Nat.sub_sub]
      exact Nat.dvd_sub hblocks (Nat.dvd_refl unroll)
    rw [← advanceFour_bind (hblock.trans hlimit)]
    exact congrArg _ (funext fun acc => ih acc hrest)
  | case2 i acc hi => rfl

/-! ## The walk as a fold -/

/-- **A plain walk to the end of the tokens adds up the terms.**

**Proof sketch.** Induction on the walk. A position in range adds its term, which is the first one of those from
there on; at a token out of range, and at the end of the tokens, no terms are left. -/
theorem settle_advanceRest (enough : tokens.size ≤ weights.size) (i : ℕ) (acc : β) :
    settle (advanceRest tokens weights dense i acc) =
      .ok ((terms tokens weights dense enough i).foldl
        (fun acc t => Element.mulAdd acc t.1 t.2) acc) := by
  fun_induction advanceRest tokens weights dense i acc with
  | case1 i acc hi ih =>
    by_cases h : InRange tokens dense.size i
    · have hstep : advance tokens weights dense i acc = _ := advance_position enough h.position acc
      rw [terms_of_inRange enough h, List.foldl_cons, ← ih, hstep]
      rfl
    · rw [terms_of_not_inRange enough h, advance_of_not_inRange hi h]
      rfl
  | case2 i acc hi =>
    rw [terms_of_not_inRange enough fun h => hi h.1]
    rfl

/-- **The kernel, from any start, is a fold over the terms of the product.**

**Proof sketch.** With an empty vector there are no terms, and there are enough weights. So the kernel is the walk in
blocks and single positions from the start, brought to the end of the tokens, and that is a plain walk, which adds up
the terms. -/
theorem dotFrom_eq (enough : tokens.size ≤ weights.size) (start : ℕ) (acc : β) :
    dotFrom tokens weights dense start acc =
      .ok ((terms tokens weights dense enough start).foldl
        (fun acc t => Element.mulAdd acc t.1 t.2) acc) := by
  unfold dotFrom
  split_ifs with hempty hshort
  · rw [terms, reached_of_isEmpty hempty]
    rfl
  · omega
  · rw [advanceBlocks_eq (blockLimit_le _ _) (unroll_dvd_blockLimit _ _), settle_advanceRest enough]
    rcases Nat.le_total start tokens.size with h | h
    · rw [Nat.min_eq_left h]
    · rw [Nat.min_eq_right h, terms_of_not_inRange enough fun h => absurd h.1 (by omega),
        terms_of_not_inRange enough fun h => absurd h.1 (by omega)]

/-- The whole product is a fold over the terms from the first position on. -/
lemma dot_eq (enough : tokens.size ≤ weights.size) :
    dot tokens weights dense =
      .ok ((terms tokens weights dense enough 0).foldl
        (fun acc t => Element.mulAdd acc t.1 t.2) (Element.zero α)) :=
  dotFrom_eq enough 0 _

end Walk

/-! ## The reached positions spelled out -/

/-- **The plain walk**: the products at the reached positions, added to a running sum one by one. -/
def plainWalk {α β : Type} [Element α β] (tokens : Array Int16) (weights dense : Array α)
    (enough : tokens.size ≤ weights.size) (start : ℕ) (acc : β) : β :=
  (reached tokens dense.size start).foldl
    (fun acc p => Element.mulAdd acc (p.weight weights enough) (p.value dense)) acc

/-- The fold over the terms is the plain walk over the reached positions. -/
lemma foldl_terms {α β : Type} [Element α β] (tokens : Array Int16) (weights dense : Array α)
    (enough : tokens.size ≤ weights.size) (start : ℕ) (acc : β) :
    (terms tokens weights dense enough start).foldl (fun acc t => Element.mulAdd acc t.1 t.2) acc =
      plainWalk tokens weights dense enough start acc := by
  rw [terms, List.foldl_map, plainWalk]

/-- **The scalar kernels are the plain walk.** With a weight for every token, the kernel from any start
gives the running sum back if there is nothing to add, and otherwise adds the products at the positions
from the start, or the end of the tokens if that is earlier, up to the first token out of range: each
position once and in order. No read fails. The whole product is the walk from the first position and
zero, in single precision, for signed bytes, and on a sparse vector. -/
theorem dotFrom_eq_plainWalk :
    (∀ {α β : Type} [Element α β] (tokens : Array Int16) (weights dense : Array α)
      (enough : tokens.size ≤ weights.size) (start : ℕ) (acc : β),
      let first := min start tokens.size
      let last := reach tokens dense.size start
      EndsReach tokens dense.size first last ∧
      (reached tokens dense.size start).map (·.index) = List.range' first (last - first) ∧
      dotFrom tokens weights dense start acc =
        .ok (if tokens.isEmpty || dense.isEmpty then acc
          else plainWalk tokens weights dense enough start acc) ∧
      dot tokens weights dense = .ok (plainWalk tokens weights dense enough 0 (Element.zero α))) ∧
    (∀ (tokens : Array Int16) (weights dense : Array Binary32) (enough : tokens.size ≤ weights.size),
      dotSingle tokens weights dense =
        .ok ((reached tokens dense.size 0).foldl
          (fun acc p => acc + p.weight weights enough * p.value dense) (Binary.zero false))) ∧
    (∀ (tokens : Array Int16) (weights dense : Array Int8) (enough : tokens.size ≤ weights.size),
      dotInt8 tokens weights dense =
        .ok ((reached tokens dense.size 0).foldl
          (fun acc p => acc + (p.weight weights enough).toInt32 * (p.value dense).toInt32) 0)) ∧
    (∀ {α β : Type} [Element α β] (v : SparseVector α) (dense : Array α),
      v.dot dense = .ok (plainWalk v.tokens v.weights dense v.size_eq.le 0 (Element.zero α))) := by
  refine ⟨?_, ?_, ?_, ?_⟩
  · intro α β _ tokens weights dense enough start acc
    refine ⟨endsReach_reach start, ?_, ?_, ?_⟩
    · rw [map_index_reached, reach, Nat.add_sub_cancel_left]
      rcases Nat.le_total start tokens.size with h | h
      · rw [Nat.min_eq_left h]
      · rw [reached_of_size_le h]
        rfl
    · rw [dotFrom_eq enough, foldl_terms]
      split_ifs with hempty
      · rw [plainWalk, reached_of_isEmpty hempty]
        rfl
      · rfl
    · rw [dot_eq enough, foldl_terms]
  · intro tokens weights dense enough
    rw [dotSingle, dot_eq enough, foldl_terms]
    rfl
  · intro tokens weights dense enough
    rw [dotInt8, dot_eq enough, foldl_terms]
    rfl
  · intro α β _ v dense
    rw [SparseVector.dot, dot_eq v.size_eq.le, foldl_terms]

/-- From position one on, a block of four and one more position are reached; the token after them is out of
range. -/
theorem dotFrom_resumed :
    (#[0, 2, 1, 1, 2, 0, 3, 1] : Array Int16).size ≤ (#[1, 2, 3, 4, 5, 6, 7, 8] : Array Int8).size ∧
      dotFrom #[0, 2, 1, 1, 2, 0, 3, 1] (#[1, 2, 3, 4, 5, 6, 7, 8] : Array Int8) #[10, -20, 30] 1
        (7 : Int32) = .ok 137 :=
  ⟨by decide, (dotFrom_eq_plainWalk.1 #[0, 2, 1, 1, 2, 0, 3, 1] #[1, 2, 3, 4, 5, 6, 7, 8]
    #[10, -20, 30] (by decide) 1 (7 : Int32)).2.2.1.trans (by decide)⟩

end SparseDot.Kernel
