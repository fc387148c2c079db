import Mathlib.Data.Fintype.Pigeonhole
import Mathlib.Data.Fintype.Prod
import Mathlib.Logic.Function.Iterate
import SparseDot.Bench.Generator

set_option autoImplicit false

/-!
# Drawing again

A number that would come too often is drawn again, and there is no bound on how often that may happen. The generator
tries as often as it has states, and not more. Nothing is lost by that: if no attempt up to there has given
anything, one of the states has come twice, and from then on the same attempts follow each other for ever.

## Main definitions

* `SparseDot.Bench.Generator.Draws` — what drawing again without a bound comes to.

## Main results

* `SparseDot.Bench.Generator.Draws.lt_stateCount` — the attempts in vain are fewer than the states.
* `SparseDot.Bench.Generator.retry_stateCount` — the bound on the attempts changes nothing.
* `SparseDot.Bench.Generator.retry_tryBelow_lt` — numbers below a bound are below it.

## Design

An attempt leads from a state to the next, whether it gives something or not. So the states of a sequence of attempts
are the iterates of one map on a finite type, and the bound is the pigeonhole principle for them.
-/

namespace SparseDot.Bench.Generator

variable {α : Type} {attempt : Generator → Option α × Generator} {default value : α} {g g' : Generator} {n : ℕ}

/-- **Drawing again without a bound**: a number of attempts in vain, and one that gives a value. -/
inductive Draws (attempt : Generator → Option α × Generator) : ℕ → Generator → α → Generator → Prop where
  /-- The first attempt gives a value. -/
  | taken {g g' : Generator} {value : α} (h : attempt g = (some value, g')) : Draws attempt 0 g value g'
  /-- The first attempt is in vain. -/
  | again {n : ℕ} {g g' g'' : Generator} {value : α} (h : attempt g = (none, g'))
    (later : Draws attempt n g' value g'') : Draws attempt (n + 1) g value g''

/-- The attempts in vain, and the one after them, by the states that they start from.

**Proof sketch.** Induction on the attempts in vain: the first attempt leads to where the others start from. -/
private lemma Draws.iterate (h : Draws attempt n g value g') :
    (∀ i < n, (attempt ((fun g => (attempt g).2)^[i] g)).1 = none) ∧
      attempt ((fun g => (attempt g).2)^[n] g) = (some value, g') := by
  induction h with
  | taken h => exact ⟨fun i hi => absurd hi (Nat.not_lt_zero i), h⟩
  | again h later ih =>
    refine ⟨fun i hi => ?_, ?_⟩
    · cases i with
      | zero => exact congrArg Prod.fst h
      | succ i =>
        rw [Function.iterate_succ_apply, h]
        exact ih.1 i (Nat.lt_of_succ_lt_succ hi)
    · rw [Function.iterate_succ_apply, h]
      exact ih.2

/-- The four words of a state. -/
private def words (g : Generator) : Fin UInt64.size × Fin UInt64.size × Fin UInt64.size × Fin UInt64.size :=
  (g.s0.toFin, g.s1.toFin, g.s2.toFin, g.s3.toFin)

/-- A state is known by its words. -/
private lemma words_injective : Function.Injective words := by
  rintro ⟨a0, a1, a2, a3⟩ ⟨b0, b1, b2, b3⟩ h
  simp only [words, Prod.mk.injEq, UInt64.toFin_inj] at h
  obtain ⟨rfl, rfl, rfl, rfl⟩ := h
  rfl

/-- A sequence of more states than there are has one of them twice.

**Proof sketch.** The pigeonhole principle: a state is four words, and the first `n + 1` states of the sequence are
more than there are ways to choose these. -/
private lemma exists_eq_of_stateCount_le (states : ℕ → Generator) (hn : stateCount ≤ n) :
    ∃ i j, i < j ∧ j ≤ n ∧ states i = states j := by
  have hcard : Fintype.card (Fin UInt64.size × Fin UInt64.size × Fin UInt64.size × Fin UInt64.size) <
      Fintype.card (Fin (n + 1)) := by
    rw [Fintype.card_prod, Fintype.card_prod, Fintype.card_prod, Fintype.card_fin, Fintype.card_fin]
    exact Nat.lt_succ_of_le hn
  obtain ⟨i, j, hne, heq⟩ :=
    Fintype.exists_ne_map_eq_of_card_lt (fun i : Fin (n + 1) => words (states i)) hcard
  have hstates := words_injective heq
  rcases Nat.lt_or_gt_of_ne (Fin.val_ne_of_ne hne) with hlt | hlt
  · exact ⟨i, j, hlt, Nat.le_of_lt_succ j.isLt, hstates⟩
  · exact ⟨j, i, hlt, Nat.le_of_lt_succ i.isLt, hstates.symm⟩

/-- **The attempts in vain are fewer than the states.**

**Proof sketch.** Otherwise the attempts up to the one that gives a value start from more states than there are, and
two of them from the same one. What follows the later of these two follows the earlier one as well, so that a value is
given earlier than it is. -/
theorem Draws.lt_stateCount (h : Draws attempt n g value g') : n < stateCount := by
  by_contra hn
  obtain ⟨hvain, hvalue⟩ := h.iterate
  obtain ⟨i, j, hij, hj, heq⟩ :=
    exists_eq_of_stateCount_le (fun i => (fun g => (attempt g).2)^[i] g) (Nat.not_lt.mp hn)
  -- the state of the last attempt, reached from the earlier of the two
  have hearlier : (fun g => (attempt g).2)^[n - j + i] g = (fun g => (attempt g).2)^[n] g := by
    rw [Function.iterate_add_apply, heq, ← Function.iterate_add_apply, Nat.sub_add_cancel hj]
  have hnone := hvain (n - j + i) (by omega)
  rw [hearlier, hvalue] at hnone
  cases hnone

/-- With more attempts than there are in vain, the value is drawn. -/
private lemma Draws.retry_eq (h : Draws attempt n g value g') (default : α) {attempts : ℕ} (hn : n < attempts) :
    retry attempt default attempts g = (value, g') := by
  induction h generalizing attempts with
  | taken h =>
    obtain ⟨attempts, rfl⟩ := Nat.exists_eq_add_one_of_ne_zero (Nat.ne_of_gt hn)
    rw [retry, h]
  | again h later ih =>
    obtain ⟨attempts, rfl⟩ := Nat.exists_eq_add_one_of_ne_zero (Nat.ne_of_gt (Nat.zero_lt_of_lt hn))
    rw [retry, h]
    exact ih (Nat.lt_of_succ_lt_succ hn)

/-- **The bound on the attempts changes nothing.** What is drawn without a bound is drawn with as many attempts as
there are states, and leaves the generator in the same state. -/
theorem retry_stateCount (default : α) (h : Draws attempt n g value g') :
    retry attempt default stateCount g = (value, g') :=
  h.retry_eq default h.lt_stateCount

/-- A number that an attempt gives is below the bound: it is the upper half of the product of a word with it. -/
private lemma lt_of_tryBelow {bound number : ℕ} (hbound : 0 < bound) (h : (tryBelow bound g).1 = some number) :
    number < bound := by
  simp only [tryBelow] at h
  split at h
  · obtain rfl := Option.some.inj h
    rw [Nat.div_lt_iff_lt_mul (by decide), Nat.mul_comm bound]
    exact Nat.mul_lt_mul_of_pos_right g.next.1.toNat_lt_size hbound
  · cases h

/-- **Numbers below a bound are below it**, however often they are drawn again.

**Proof sketch.** Induction on the attempts that are left. The last resort is zero, which is below the bound as well. -/
theorem retry_tryBelow_lt {bound : ℕ} (hbound : 0 < bound) (attempts : ℕ) (g : Generator) :
    (retry (tryBelow bound) 0 attempts g).1 < bound := by
  induction attempts generalizing g with
  | zero => exact hbound
  | succ attempts ih =>
    rw [retry]
    split
    next number g' h => exact lt_of_tryBelow hbound (congrArg Prod.fst h)
    next g' h => exact ih g'

end SparseDot.Bench.Generator
