import SparseDot.Proofs.Kernel.Lanes

set_option autoImplicit false

/-!
# When the kernels fault

A kernel needs a weight for every token, and each kernel finds out in its own place that there are too few of
them. The scalar walk counts the weights before its first position, and the kernel that loads whole groups
counts them before its first group. The kernel that reads its weights lane by lane does not count them: it
comes to the first weight that is missing, or it hands over to the scalar walk before that. All the same the
kernels fault on the same inputs, and only the fault is not always the same.

## Main definitions

* `SparseDot.Kernel.Refused` — the inputs on which the kernels fault.
* `SparseDot.Kernel.FaultsWhen` — a result that is a fault in one case and a value in every other.
* `SparseDot.Kernel.fullGroups` — the number of groups that are in range.

## Main results

* `SparseDot.Kernel.le_fullGroups_iff` — the groups in range come first and are all there are.
* `SparseDot.Kernel.takeGroups_of_enough`, `SparseDot.Kernel.takeGroups_of_short` — the loop over the groups
  with and without weights for all of them.
* `SparseDot.Kernel.kernels_faultWhen_refused` — the fault of each kernel.
-/

namespace SparseDot.Kernel

/-! ## Refused inputs -/

section Refused

variable {α β : Type}

/-- **The inputs that the kernels refuse**: none of the two vectors is empty, and there are fewer weights
than tokens. The tokens may be in range or not. -/
def Refused (tokens : Array Int16) (weights dense : Array α) : Prop :=
  tokens.size ≠ 0 ∧ dense.size ≠ 0 ∧ weights.size < tokens.size

/-- **A result that is this fault in one case**, and a value in every other case. -/
structure FaultsWhen (refused : Prop) (fault : Fault) (result : Except Fault β) : Prop where
  eq_error : refused → result = .error fault
  exists_eq_ok : ¬refused → ∃ x, result = .ok x

variable {tokens : Array Int16} {weights dense : Array α}

/-- None of the vectors of a refused input is empty. -/
private lemma Refused.isEmpty_eq_false (h : Refused tokens weights dense) :
    (tokens.isEmpty || dense.isEmpty) = false := by
  rw [← Bool.not_eq_true, Bool.or_eq_true, Array.isEmpty_iff_size_eq_zero,
    Array.isEmpty_iff_size_eq_zero]
  exact not_or.mpr ⟨h.1, h.2.1⟩

/-- An input that is not refused has an empty vector, or a weight for every token. -/
private lemma isEmpty_or_enough (h : ¬Refused tokens weights dense) :
    (tokens.isEmpty || dense.isEmpty) = true ∨ tokens.size ≤ weights.size := by
  simp only [Bool.or_eq_true, Array.isEmpty_iff_size_eq_zero]
  unfold Refused at h
  omega

variable [Element α β]

/-- **The scalar walk refuses too few weights** before it looks at a token, wherever it starts. -/
theorem dotFrom_faultsWhen (tokens : Array Int16) (weights dense : Array α) (start : ℕ) (acc : β) :
    FaultsWhen (Refused tokens weights dense) (.shortWeights weights.size tokens.size)
      (dotFrom tokens weights dense start acc) := by
  constructor
  · intro h
    simp [dotFrom, h.isEmpty_eq_false, h.2.2]
  · intro h
    rcases isEmpty_or_enough h with hempty | henough
    · exact ⟨acc, by simp [dotFrom, hempty]⟩
    · exact ⟨_, dotFrom_eq henough start acc⟩

end Refused

/-! ## Groups in range -/

section Groups

variable {tokens : Array Int16} {weights dense : Array Binary32} {i : ℕ}

/-- **The number of groups in range** at the beginning of the tokens. -/
def fullGroups (tokens : Array Int16) (size : ℕ) : ℕ :=
  (reached tokens size 0).length / laneCount

/-- **The first groups, up to that number, are in range**, and no more of them. -/
theorem le_fullGroups_iff {size k : ℕ} :
    k ≤ fullGroups tokens size ↔ ∀ i < laneCount * k, InRange tokens size i := by
  rw [fullGroups, Nat.le_div_iff_mul_le (by decide), Nat.mul_comm, le_length_reached_iff]

/-- There are at most as many groups in range as whole groups of tokens. -/
private lemma fullGroups_le (tokens : Array Int16) (size : ℕ) :
    fullGroups tokens size ≤ tokens.size / laneCount :=
  Nat.div_le_div_right (length_reached_le tokens size)

/-- The next group is in range. -/
private lemma exists_positions_of_lt {size taken : ℕ} (h : taken < fullGroups tokens size) :
    ∃ p : Fin laneCount → Position tokens size, ∀ lane, (p lane).index = laneCount * taken + lane := by
  have hin := le_fullGroups_iff.mp h
  refine ⟨fun lane => (hin (laneCount * taken + lane) ?_).position, fun lane => rfl⟩
  rw [Nat.mul_succ]
  omega

/-- The group after the last one in range has a lane out of range.

**Proof sketch.** If all of its lanes were in range then there would be one more group in range. -/
private lemma exists_lane_not_inRange (tokens : Array Int16) (size : ℕ) :
    ∃ lane : Fin laneCount, ¬InRange tokens size (laneCount * fullGroups tokens size + lane) := by
  by_contra! hall
  have hmore : fullGroups tokens size + 1 ≤ fullGroups tokens size := by
    rw [le_fullGroups_iff]
    intro i hi
    by_cases hlt : i < laneCount * fullGroups tokens size
    · exact le_fullGroups_iff.mp le_rfl i hlt
    · obtain ⟨j, rfl⟩ := Nat.exists_eq_add_of_le (Nat.not_lt.mp hlt)
      rw [Nat.mul_succ] at hi
      exact hall ⟨j, by omega⟩
  omega

/-! ## The loop over the groups -/

/-- **The loop takes all groups in range** if there are weights for them, even where there are none for the
tokens after them.

**Proof sketch.** Induction on the groups not yet looked at. A group in range has weights, so it adds its products and
the loop goes on. The group after the last one in range has a lane out of range, and ends the loop. -/
theorem takeGroups_of_enough {add : ℕ → Lanes → Lanes → Except Fault Lanes}
    (hadd : AddsGroup weights add)
    (enough : laneCount * fullGroups tokens dense.size ≤ weights.size) (count taken : ℕ)
    (hcount : taken + count = tokens.size / laneCount)
    (htaken : taken ≤ fullGroups tokens dense.size) (buffer lanes : Lanes) :
    ∃ lanes', takeGroups tokens dense add (groupLimit tokens.size) (laneCount * taken) buffer lanes =
      .ok (laneCount * fullGroups tokens dense.size, lanes') := by
  induction count generalizing taken buffer lanes with
  | zero =>
    obtain rfl : taken = fullGroups tokens dense.size := by
      have := fullGroups_le tokens dense.size
      omega
    exact ⟨lanes, takeGroups_of_le add (not_lt.mp (mul_lt_groupLimit_iff.not.mpr hcount.ge.not_gt)) ..⟩
  | succ count ih =>
    rcases htaken.lt_or_eq with hlt | rfl
    · obtain ⟨p, hp⟩ := exists_positions_of_lt hlt
      have hweights : laneCount * taken + laneCount ≤ weights.size := by
        rw [← Nat.mul_succ]
        exact (Nat.mul_le_mul_left _ hlt).trans enough
      rw [takeGroups_of_position hadd hweights p hp (mul_lt_groupLimit_iff.mpr (hlt.trans_le (fullGroups_le _ _)))]
      exact ih (taken + 1) (by omega) hlt _ _
    · obtain ⟨lane, hlane⟩ := exists_lane_not_inRange tokens dense.size
      refine ⟨lanes, takeGroups_of_not_inRange add ?_ hlane _ buffer lanes⟩
      have := Nat.mul_div_le tokens.size laneCount
      rw [← hcount, Nat.mul_add, Nat.mul_succ] at this
      omega

/-- A pass whose steps do not fault does not fault. -/
private lemma exists_foldlM_eq_ok {α β : Type} {step : β → α → Except Fault β} (pass : List α)
    (hstep : ∀ a ∈ pass, ∀ b, ∃ b', step b a = .ok b') (b : β) : ∃ b', pass.foldlM step b = .ok b' := by
  induction pass generalizing b with
  | nil => exact ⟨b, rfl⟩
  | cons a pass ih =>
    obtain ⟨b', hb'⟩ := hstep a List.mem_cons_self b
    rw [List.foldlM_cons, hb']
    exact ih (fun c hc => hstep c (List.mem_cons_of_mem a hc)) b'

/-- **A group that the weights run out in** faults at the first weight that is missing.

**Proof sketch.** The lanes before the first weight that is missing have theirs, so a pass over them does not fault.
The lane of the missing weight does. -/
theorem accumulate_of_short (hi : i ≤ weights.size) (hshort : weights.size < i + laneCount)
    (gathered lanes : Lanes) :
    accumulate weights i gathered lanes = .error (.indexOutOfBounds weights.size weights.size) := by
  obtain ⟨k, hk⟩ := Nat.exists_eq_add_of_le hi
  have hk' : k < (List.finRange laneCount).length := by
    rw [List.length_finRange]
    omega
  -- lane `k` is the first one without a weight
  have hsplit : List.finRange laneCount = (List.finRange laneCount).take k ++
      ⟨k, by omega⟩ :: (List.finRange laneCount).drop (k + 1) := by
    have hdrop := List.drop_eq_getElem_cons hk'
    rw [List.getElem_finRange] at hdrop
    exact (List.take_append_drop k _).symm.trans (congrArg _ hdrop)
  have hbefore : ∀ lane ∈ (List.finRange laneCount).take k, i + lane < weights.size := by
    intro lane hlane
    obtain ⟨j, hj, rfl⟩ := List.mem_take_iff_getElem.mp hlane
    rw [List.getElem_finRange]
    simp only [Fin.val_cast]
    omega
  have hmissing : fetch weights (i + k) = .error (.indexOutOfBounds weights.size weights.size) := by
    rw [fetch, dif_neg (by omega), hk]
  have hstep : ∀ lane ∈ (List.finRange laneCount).take k, ∀ lanes : Lanes, ∃ lanes' : Lanes, (do
      let weight ← fetch weights (i + lane)
      return lanes.set lane (Binary.fma weight gathered[lane] lanes[lane])) = Except.ok lanes' := by
    intro lane hlane lanes
    rw [fetch_of_lt (hbefore lane hlane)]
    exact ⟨_, rfl⟩
  obtain ⟨lanes', hlanes'⟩ := exists_foldlM_eq_ok _ hstep lanes
  rw [accumulate, hsplit, List.foldlM_append, hlanes']
  simp only [bind, Except.bind, List.foldlM_cons, hmissing]

/-- **The loop faults where the weights run out**, if that is in one of the groups in range.

**Proof sketch.** Induction on the groups not yet looked at. As the weights run out in a group in range, each group up
to that one is in range and gathers its values; the first without all of its weights faults. -/
theorem takeGroups_of_short (short : weights.size < laneCount * fullGroups tokens dense.size)
    (count taken : ℕ) (hcount : taken + count = tokens.size / laneCount)
    (htaken : laneCount * taken ≤ weights.size) (buffer lanes : Lanes) :
    takeGroups tokens dense (accumulate weights) (groupLimit tokens.size) (laneCount * taken) buffer lanes =
      .error (.indexOutOfBounds weights.size weights.size) := by
  have hlt : taken < fullGroups tokens dense.size :=
    Nat.lt_of_mul_lt_mul_left (htaken.trans_lt short)
  induction count generalizing taken buffer lanes with
  | zero =>
    have := fullGroups_le tokens dense.size
    omega
  | succ count ih =>
    obtain ⟨p, hp⟩ := exists_positions_of_lt hlt
    have hbelow := mul_lt_groupLimit_iff.mpr (hlt.trans_le (fullGroups_le tokens dense.size))
    by_cases hnext : laneCount * taken + laneCount ≤ weights.size
    · rw [takeGroups_of_position addsGroup_accumulate hnext p hp hbelow]
      exact ih (taken + 1) (by omega) hnext _ _ (Nat.lt_of_mul_lt_mul_left (hnext.trans_lt short))
    · rw [takeGroups, if_pos hbelow, gather_eq buffer p hp]
      simp only [bind, Except.bind, if_true]
      rw [accumulate_of_short htaken (Nat.not_le.mp hnext)]

end Groups

/-! ## The faults of the grouped kernels -/

section Grouped

variable (tokens : Array Int16) (weights dense : Array Binary32)

/-- **The fault of the kernel that reads its weights lane by lane.** If the weights run out in one of the
groups in range, it reads past their end; otherwise the scalar walk refuses them.

**Proof sketch.** On a refused input the loop comes to the end of the weights if they run out in a group in range. Else
it ends with a value, and the scalar walk that follows refuses the input. On others there is an empty vector, or there
are enough weights for the grouped sum. -/
theorem dotGrouped_faultsWhen :
    FaultsWhen (Refused tokens weights dense)
      (if weights.size < laneCount * fullGroups tokens dense.size then
        .indexOutOfBounds weights.size weights.size
      else .shortWeights weights.size tokens.size)
      (dotGrouped tokens weights dense) := by
  have hzero : laneCount * 0 = 0 := Nat.mul_zero _
  constructor
  · intro h
    simp only [dotGrouped, h.isEmpty_eq_false, Bool.false_eq_true, if_false, dotByGroups]
    split_ifs with hshort
    · have hloop := takeGroups_of_short hshort (tokens.size / laneCount) 0 (Nat.zero_add _)
        (Nat.zero_le _)
      rw [hzero] at hloop
      rw [hloop]
      rfl
    · obtain ⟨lanes, hloop⟩ := takeGroups_of_enough (addsGroup_accumulate : AddsGroup weights _)
        (Nat.not_lt.mp hshort) (tokens.size / laneCount) 0 (Nat.zero_add _) (Nat.zero_le _)
        (Vector.replicate laneCount (Binary.zero false)) (Vector.replicate laneCount (Binary.zero false))
      rw [hzero] at hloop
      rw [hloop]
      exact (dotFrom_faultsWhen tokens weights dense _ _).eq_error h
  · intro h
    rcases isEmpty_or_enough h with hempty | henough
    · exact ⟨Binary.zero false, by simp [dotGrouped, hempty]⟩
    · exact ⟨_, dotGrouped_eq henough⟩

/-- The kernel that loads whole groups refuses too few weights before its first group. -/
private lemma dotVectorised_faultsWhen :
    FaultsWhen (Refused tokens weights dense) (.shortWeights weights.size tokens.size)
      (dotVectorised tokens weights dense) := by
  constructor
  · intro h
    simp [dotVectorised, h.isEmpty_eq_false, h.2.2]
  · intro h
    rcases isEmpty_or_enough h with hempty | henough
    · exact ⟨Binary.zero false, by simp [dotVectorised, hempty]⟩
    · exact ⟨_, dotVectorised_eq henough⟩

/-- Whatever a processor can do with lanes, too few weights are refused before anything is read. -/
private lemma dotAt_faultsWhen (level : LaneLevel) :
    FaultsWhen (Refused tokens weights dense) (.shortWeights weights.size tokens.size)
      (dotAt tokens weights dense level) := by
  cases level with
  | avx2 => exact dotVectorised_faultsWhen tokens weights dense
  | scalar => exact dotFrom_faultsWhen tokens weights dense 0 _

end Grouped

/-- The weights of a sparse vector are never refused. -/
private lemma not_refused {α : Type} (v : SparseVector α) (dense : Array α) :
    ¬Refused v.tokens v.weights dense :=
  fun h => absurd h.2.2 (Nat.not_lt.mpr v.size_eq.le)

/-- **The kernels fault exactly on the refused inputs**, where both vectors have elements and there are fewer
weights than tokens; on all others they give a value. That holds for the scalar walk from any start and running sum,
for all element types, and for the products in single precision and of signed bytes. It holds for both grouped
kernels too, and for the product on a processor that has no lanes. The fault is that there are too few weights; only
the kernel that reads its weights lane by lane may read past their end, at the first position that is not there,
which happens if they run out in one of the leading groups of eight tokens in range. A sparse vector, however it was
built, has its weights counted, and so its products with any dense vector have a value. -/
theorem kernels_faultWhen_refused :
    (∀ {α β : Type} [Element α β] (tokens : Array Int16) (weights dense : Array α) (start : ℕ) (acc : β),
      FaultsWhen (Refused tokens weights dense) (.shortWeights weights.size tokens.size)
        (dotFrom tokens weights dense start acc)) ∧
    (∀ (tokens : Array Int16) (weights dense : Array Binary32),
      FaultsWhen (Refused tokens weights dense) (.shortWeights weights.size tokens.size)
        (dotSingle tokens weights dense)) ∧
    (∀ (tokens : Array Int16) (weights dense : Array Int8),
      FaultsWhen (Refused tokens weights dense) (.shortWeights weights.size tokens.size)
        (dotInt8 tokens weights dense)) ∧
    (∀ (tokens : Array Int16) (weights dense : Array Binary32),
      FaultsWhen (Refused tokens weights dense) (.shortWeights weights.size tokens.size)
        (dotVectorised tokens weights dense) ∧
      ∀ level, FaultsWhen (Refused tokens weights dense) (.shortWeights weights.size tokens.size)
        (dotAt tokens weights dense level)) ∧
    (∀ (tokens : Array Int16) (weights dense : Array Binary32),
      FaultsWhen (Refused tokens weights dense)
        (if weights.size < laneCount * fullGroups tokens dense.size then
          .indexOutOfBounds weights.size weights.size
        else .shortWeights weights.size tokens.size)
        (dotGrouped tokens weights dense)) ∧
    (∀ (tokens : Array Int16) (size groups : ℕ),
      groups ≤ fullGroups tokens size ↔ ∀ i < laneCount * groups, InRange tokens size i) ∧
    (∀ {α β : Type} [Element α β] (v : SparseVector α) (dense : Array α), ∃ x : β, v.dot dense = .ok x) ∧
    (∀ (v : SparseVector Binary32) (level : LaneLevel) (dense : Array Binary32), ∃ x, v.dotAt level dense = .ok x) := by
  refine ⟨?_, ?_, ?_, ?_, dotGrouped_faultsWhen, fun tokens size groups => le_fullGroups_iff, ?_, ?_⟩
  · intro α β _ tokens weights dense start acc
    exact dotFrom_faultsWhen tokens weights dense start acc
  · exact fun tokens weights dense => dotFrom_faultsWhen tokens weights dense 0 _
  · exact fun tokens weights dense => dotFrom_faultsWhen tokens weights dense 0 _
  · exact fun tokens weights dense =>
      ⟨dotVectorised_faultsWhen tokens weights dense, dotAt_faultsWhen tokens weights dense⟩
  · intro α β _ v dense
    exact (dotFrom_faultsWhen v.tokens v.weights dense 0 _).exists_eq_ok (not_refused v dense)
  · intro v level dense
    exact (dotAt_faultsWhen v.tokens v.weights dense level).exists_eq_ok (not_refused v dense)

/-- With eleven weights the kernel that reads lane by lane comes to the end of them in the second of two
groups in range. With seventeen it has weights for both groups, and the scalar walk refuses the eighteen
tokens, though it would not come to the last one. -/
theorem dotGrouped_runs_out_of_weights :
    let tokens : Array Int16 := (Array.replicate 16 1) ++ #[-1, 0]
    let dense : Array Binary32 := #[Binary.ofNat 2, Binary.ofNat 3]
    let weights (size : ℕ) : Array Binary32 := Array.replicate size (Binary.ofNat 5)
    dotGrouped tokens (weights 11) dense = .error (.indexOutOfBounds 11 11) ∧
      dotGrouped tokens (weights 17) dense = .error (.shortWeights 17 18) := by
  intro tokens dense weights
  have hgrouped := kernels_faultWhen_refused.2.2.2.2.1
  constructor
  · exact ((hgrouped tokens (weights 11) dense).eq_error ⟨by decide, by decide, by decide⟩).trans
      (congrArg _ (if_pos (by decide)))
  · exact ((hgrouped tokens (weights 17) dense).eq_error ⟨by decide, by decide, by decide⟩).trans
      (congrArg _ (if_neg (by decide)))

end SparseDot.Kernel
