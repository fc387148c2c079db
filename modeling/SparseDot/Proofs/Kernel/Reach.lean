import Mathlib.Algebra.Order.Ring.Nat
import SparseDot.Kernel.Scalar

set_option autoImplicit false

/-!
# The positions that a walk reaches

A kernel stops for good at the first token out of range. The positions before it, from the start of the
walk on, are the ones it reaches: at each of them there is a token, and the token addresses a slot of the
dense vector.

## Main definitions

* `SparseDot.Kernel.InRange` — there is a token at a position, and it addresses a slot.
* `SparseDot.Kernel.Position` — a position with the slot that its token addresses.
* `SparseDot.Kernel.reached`, `SparseDot.Kernel.reach` — the reached positions in order, and their end.
* `SparseDot.Kernel.terms` — the weights and dense values at the reached positions.
* `SparseDot.Kernel.EndsReach` — what makes a position the end of a walk.

## Main results

* `SparseDot.Kernel.map_index_reached` — the reached positions are consecutive.
* `SparseDot.Kernel.endsReach_reach` — they end at the first token out of range, or with the tokens.
* `SparseDot.Kernel.terms_congr` — what lies elsewhere is never read.
-/

namespace SparseDot.Kernel

section Range

variable (tokens : Array Int16) (size : ℕ)

/-- **Whether there is a token at position `i` that addresses a slot** of a dense vector of this size. -/
def InRange (i : ℕ) : Prop :=
  ∃ h : i < tokens.size, 0 ≤ tokens[i].toInt ∧ tokens[i].toInt < size

instance (i : ℕ) : Decidable (InRange tokens size i) :=
  if h : i < tokens.size then
    decidable_of_iff (0 ≤ tokens[i].toInt ∧ tokens[i].toInt < size) ⟨fun hr => ⟨h, hr⟩, fun hr => hr.2⟩
  else .isFalse fun hr => h hr.1

/-- **A position that a kernel can use**: there is a token, and it addresses this slot. -/
structure Position where
  /-- The place of the token. -/
  index : ℕ
  /-- The slot that it addresses. -/
  slot : ℕ
  index_lt : index < tokens.size
  slot_lt : slot < size
  token_eq : tokens[index].toInt = slot

variable {tokens size} {i : ℕ}

/-- A position in range, with its slot. -/
def InRange.position (h : InRange tokens size i) : Position tokens size where
  index := i
  slot := (getElem tokens i h.1).toInt.toNat
  index_lt := h.1
  slot_lt := by have := h.2; omega
  token_eq := by have := h.2; omega

/-- Up to `count` positions from `i` on, as long as they are in range. -/
def reachedFrom (tokens : Array Int16) (size : ℕ) : ℕ → ℕ → List (Position tokens size)
  | 0, _ => []
  | count + 1, i =>
    if h : InRange tokens size i then h.position :: reachedFrom tokens size count (i + 1) else []

variable (tokens size)

/-- **The positions that a walk from `start` reaches**, in order. -/
def reached (start : ℕ) : List (Position tokens size) :=
  reachedFrom tokens size (tokens.size - start) start

/-- **The end of a walk from `start`**, which is brought to the end of the tokens if it lies past it. -/
def reach (start : ℕ) : ℕ := min start tokens.size + (reached tokens size start).length

/-- **What makes `last` the end of a walk from `first`**: the positions between are in range, and it holds
no token or one out of range. -/
structure EndsReach (first last : ℕ) : Prop where
  first_le : first ≤ last
  last_le : last ≤ tokens.size
  inRange : ∀ i, first ≤ i → i < last → InRange tokens size i
  stops : ∀ h : last < tokens.size, ¬(0 ≤ tokens[last].toInt ∧ tokens[last].toInt < size)

variable {tokens size}

/-- The walk from a position in range reaches it, and goes on from the next one. -/
lemma reached_of_inRange (h : InRange tokens size i) :
    reached tokens size i = h.position :: reached tokens size (i + 1) := by
  obtain ⟨count, hcount⟩ : ∃ count, tokens.size - i = count + 1 :=
    ⟨tokens.size - i - 1, by have := h.1; omega⟩
  rw [reached, hcount, reachedFrom, dif_pos h, reached, show tokens.size - (i + 1) = count by omega]

/-- The walk from a position out of range reaches nothing. -/
lemma reached_of_not_inRange (h : ¬InRange tokens size i) : reached tokens size i = [] := by
  unfold reached
  cases tokens.size - i with
  | zero => rfl
  | succ count => rw [reachedFrom, dif_neg h]

/-- Nothing is reached from the end of the tokens on. -/
lemma reached_of_size_le (h : tokens.size ≤ i) : reached tokens size i = [] :=
  reached_of_not_inRange fun hr => absurd hr.1 (Nat.not_lt.mpr h)

/-- Nothing is reached with an empty sparse or dense vector. -/
lemma reached_of_isEmpty {α : Type} {dense : Array α} {start : ℕ}
    (h : (tokens.isEmpty || dense.isEmpty) = true) : reached tokens dense.size start = [] := by
  apply reached_of_not_inRange
  rintro ⟨hi, hr⟩
  simp only [Bool.or_eq_true, Array.isEmpty_iff_size_eq_zero] at h
  omega

/-- **Induction along a walk**: it holds where the walk ends, and at a position in range if it holds at the
next one. -/
theorem reached_induction (tokens : Array Int16) (size : ℕ) {motive : ℕ → Prop}
    (stop : ∀ i, ¬InRange tokens size i → motive i)
    (step : ∀ i, InRange tokens size i → motive (i + 1) → motive i) (i : ℕ) : motive i := by
  by_cases h : InRange tokens size i
  · exact step i h (reached_induction tokens size stop step (i + 1))
  · exact stop i h
termination_by tokens.size - i
decreasing_by
  have := h.1
  omega

/-- **The reached positions are consecutive.**

**Proof sketch.** Induction along the walk: a position in range stands in front of those that are reached from the next
one. -/
theorem map_index_reached (tokens : Array Int16) (size start : ℕ) :
    (reached tokens size start).map (·.index) =
      List.range' start (reached tokens size start).length := by
  induction start using reached_induction tokens size with
  | stop i h => simp [reached_of_not_inRange h]
  | step i h ih =>
    rw [reached_of_inRange h, List.map_cons, ih, List.length_cons, List.range'_succ]
    rfl

/-- The end of a walk is out of range. -/
lemma EndsReach.not_inRange {first last : ℕ} (h : EndsReach tokens size first last) :
    ¬InRange tokens size last :=
  fun hr => h.stops hr.1 hr.2

/-- The `k`-th reached position. -/
private lemma index_getElem_reached {start k : ℕ} (h : k < (reached tokens size start).length) :
    (reached tokens size start)[k].index = start + k := by
  have hk := congrArg (·[k]?) (map_index_reached tokens size start)
  simpa [h] using hk

/-- The walk from within the tokens ends behind the positions that it reaches.

**Proof sketch.** Induction along the walk. Where it ends nothing is reached, and there is no token or one out of
range. A position in range moves the beginning, and not the end. -/
lemma endsReach_add_length (size : ℕ) {start : ℕ} (hstart : start ≤ tokens.size) :
    EndsReach tokens size start (start + (reached tokens size start).length) := by
  induction start using reached_induction tokens size with
  | stop i h =>
    rw [reached_of_not_inRange h]
    exact ⟨le_rfl, hstart, fun j hj hj' => by simp at hj'; omega, fun hlt hr => h ⟨hlt, hr⟩⟩
  | step i h ih =>
    have hlt := h.1
    have hends := ih hlt
    rw [reached_of_inRange h, List.length_cons, add_comm _ 1, ← add_assoc]
    refine ⟨by omega, hends.last_le, fun j hj hj' => ?_, hends.stops⟩
    rcases hj.eq_or_lt with rfl | hj
    · exact h
    · exact hends.inRange j hj hj'

/-- The walk from the first position on ends behind the positions that it reaches. -/
lemma endsReach_length (tokens : Array Int16) (size : ℕ) : EndsReach tokens size 0 (reached tokens size 0).length := by
  have hends := endsReach_add_length size (Nat.zero_le tokens.size)
  rwa [Nat.zero_add] at hends

/-- **The walk ends at the first token out of range, or with the tokens.**

**Proof sketch.** From a start within the tokens this is where the reached positions end. A start past them is brought
to their end, from where nothing is reached. -/
theorem endsReach_reach (start : ℕ) :
    EndsReach tokens size (min start tokens.size) (reach tokens size start) := by
  rcases Nat.le_total start tokens.size with h | h
  · rw [reach, Nat.min_eq_left h]
    exact endsReach_add_length size h
  · have hends := endsReach_add_length size (le_refl tokens.size)
    rw [reached_of_size_le le_rfl] at hends
    rw [reach, Nat.min_eq_right h, reached_of_size_le h]
    exact hends

/-- There are at most as many reached positions as tokens. -/
lemma length_reached_le (tokens : Array Int16) (size : ℕ) :
    (reached tokens size 0).length ≤ tokens.size :=
  (endsReach_length tokens size).last_le

/-- **The first `k` positions are reached exactly if all of them are in range.**

**Proof sketch.** The walk from the first position on ends at the number of reached positions. All positions before
that are in range, and the one there is not. -/
theorem le_length_reached_iff {k : ℕ} :
    k ≤ (reached tokens size 0).length ↔ ∀ i < k, InRange tokens size i := by
  have hends := endsReach_length tokens size
  constructor
  · exact fun h i hi => hends.inRange i (Nat.zero_le i) (hi.trans_le h)
  · exact fun h => Nat.le_of_not_lt fun hlt => hends.not_inRange (h _ hlt)

/-- The token of a position addresses its slot. -/
lemma Position.slot_token (p : Position tokens size) :
    Kernel.slot (getElem tokens p.index p.index_lt) size = some p.slot :=
  slot_eq_some_iff.mpr ⟨p.token_eq, p.slot_lt⟩

/-- A token out of range addresses nothing. -/
lemma slot_of_not_inRange (hi : i < tokens.size) (h : ¬InRange tokens size i) :
    slot tokens[i] size = none :=
  if_neg fun hr => h ⟨hi, hr⟩

end Range

/-! ## The terms of the product -/

section Terms

variable {α : Type} {tokens : Array Int16} {size : ℕ}

/-- The weight at a position, where there is one for every token. -/
def Position.weight (p : Position tokens size) (weights : Array α)
    (enough : tokens.size ≤ weights.size) : α :=
  getElem weights p.index (p.index_lt.trans_le enough)

/-- The dense value in the slot of a position. -/
def Position.value (dense : Array α) (p : Position tokens dense.size) : α :=
  getElem dense p.slot p.slot_lt

/-- **The factors of the products that a walk from `start` adds up**, in order: the weight at each reached
position and the dense value that its token addresses. -/
def terms (tokens : Array Int16) (weights dense : Array α) (enough : tokens.size ≤ weights.size)
    (start : ℕ) : List (α × α) :=
  (reached tokens dense.size start).map fun p => (p.weight weights enough, p.value dense)

variable {weights dense : Array α} (enough : tokens.size ≤ weights.size)

/-- There are as many terms as reached positions. -/
@[simp] lemma length_terms (start : ℕ) :
    (terms tokens weights dense enough start).length = (reached tokens dense.size start).length := by
  simp [terms]

/-- There are at most as many terms as tokens. -/
lemma length_terms_le : (terms tokens weights dense enough 0).length ≤ tokens.size := by
  rw [length_terms]
  exact length_reached_le tokens dense.size

/-- The `k`-th term is the one at position `k`. -/
lemma exists_position_getElem_terms {k : ℕ}
    (h : k < (terms tokens weights dense enough 0).length) :
    ∃ p : Position tokens dense.size, p.index = k ∧
      (terms tokens weights dense enough 0)[k] = (p.weight weights enough, p.value dense) := by
  have hk : k < (reached tokens dense.size 0).length := length_terms enough 0 ▸ h
  refine ⟨(reached tokens dense.size 0)[k], ?_, ?_⟩
  · rw [index_getElem_reached, Nat.zero_add]
  · simp [terms]

/-- The terms of a walk from a position in range. -/
lemma terms_of_inRange {i : ℕ} (h : InRange tokens dense.size i) :
    terms tokens weights dense enough i =
      (h.position.weight weights enough, h.position.value dense) ::
        terms tokens weights dense enough (i + 1) := by
  rw [terms, reached_of_inRange h, List.map_cons]
  rfl

/-- A walk from a position out of range has no terms. -/
lemma terms_of_not_inRange {i : ℕ} (h : ¬InRange tokens dense.size i) :
    terms tokens weights dense enough i = [] := by
  rw [terms, reached_of_not_inRange h, List.map_nil]

/-- **Changing every weight and every dense value** changes the terms, and not where the walk ends.

**Proof sketch.** Induction along the walk: the dense vector keeps its size, so the same positions are in range. -/
theorem terms_map {β : Type} (f g : α → β) (i : ℕ) :
    terms tokens (weights.map f) (dense.map g) (enough.trans Array.size_map.ge) i =
      (terms tokens weights dense enough i).map (Prod.map f g) := by
  have hsize : (dense.map g).size = dense.size := Array.size_map
  induction i using reached_induction tokens dense.size with
  | stop i h =>
    rw [terms_of_not_inRange _ (by rwa [hsize]), terms_of_not_inRange _ h, List.map_nil]
  | step i h ih =>
    rw [terms_of_inRange _ (by rwa [hsize]), terms_of_inRange _ h, List.map_cons, ih]
    simp [Position.weight, Position.value, InRange.position]

/-- **A walk reads no weights but those at the reached positions, and no dense values but those that their
tokens address.**

**Proof sketch.** Induction along the walk. At a position in range both walks read the same weight and the same dense
value, since both vectors have something there. -/
theorem terms_congr {weights' dense' : Array α} (enough' : tokens.size ≤ weights'.size)
    (hsize : dense'.size = dense.size) {i : ℕ}
    (hsame : ∀ p ∈ reached tokens dense.size i,
      weights'[p.index]? = weights[p.index]? ∧ dense'[p.slot]? = dense[p.slot]?) :
    terms tokens weights' dense' enough' i = terms tokens weights dense enough i := by
  induction i using reached_induction tokens dense.size with
  | stop i h => rw [terms_of_not_inRange _ (by rwa [hsize]), terms_of_not_inRange _ h]
  | step i h ih =>
    have h' : InRange tokens dense'.size i := by rwa [hsize]
    rw [reached_of_inRange h] at hsame
    obtain ⟨hweight, hvalue⟩ := hsame h.position List.mem_cons_self
    have hfactors : (h'.position.weight weights' enough', h'.position.value dense') =
        (h.position.weight weights enough, h.position.value dense) := by
      rw [Array.getElem?_eq_getElem (h.position.index_lt.trans_le enough'),
        Array.getElem?_eq_getElem (h.position.index_lt.trans_le enough)] at hweight
      rw [Array.getElem?_eq_getElem (h.position.slot_lt.trans_eq hsize.symm),
        Array.getElem?_eq_getElem h.position.slot_lt] at hvalue
      exact Prod.ext (Option.some.inj hweight) (Option.some.inj hvalue)
    rw [terms_of_inRange _ h', terms_of_inRange _ h, hfactors,
      ih fun p hp => hsame p (List.mem_cons_of_mem _ hp)]

/-- A walk from a reached position has the rest of the terms.

**Proof sketch.** Induction on the number of positions that are left out: the first one is the first term, and the walk
from the next position has the others. -/
private lemma terms_add (i k : ℕ) (h : k ≤ (terms tokens weights dense enough i).length) :
    terms tokens weights dense enough (i + k) = (terms tokens weights dense enough i).drop k := by
  induction k generalizing i with
  | zero => rfl
  | succ k ih =>
    by_cases hr : InRange tokens dense.size i
    · rw [terms_of_inRange enough hr, List.length_cons] at h
      rw [terms_of_inRange enough hr, List.drop_succ_cons, ← ih (i + 1) (by omega), Nat.add_right_comm]
      rfl
    · rw [terms_of_not_inRange enough hr] at h
      simp at h

/-- The walk from a reached position has the rest of the terms of the whole walk. -/
lemma terms_eq_drop {k : ℕ} (h : k ≤ (terms tokens weights dense enough 0).length) :
    terms tokens weights dense enough k = (terms tokens weights dense enough 0).drop k := by
  rw [← terms_add enough 0 k h, Nat.zero_add]

end Terms

end SparseDot.Kernel
