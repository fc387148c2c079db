import Mathlib.Data.List.OfFn
import Mathlib.Data.List.Perm.Basic
import SparseDot.Proofs.Kernel.Walk

set_option autoImplicit false

/-!
# The grouped kernels lane by lane

The grouped kernels deal the terms of the product out to eight lanes, as long as there are eight at a time,
and leave the others to the scalar walk. Every term is used exactly once, and what a gathering that stopped
half-way left in the buffer is never used.

## Main definitions

* `SparseDot.Kernel.lane` — the terms that go to one lane.
* `SparseDot.Kernel.laneSum`, `SparseDot.Kernel.headSum` — the fused sum of a lane, and the sum of the lanes.
* `SparseDot.Kernel.groupedSum` — the whole product, from its terms.

## Main results

* `SparseDot.Kernel.flatMap_lane_append_perm` — lanes and rest are a permutation of the terms.
* `SparseDot.Kernel.gather_eq`, `SparseDot.Kernel.exists_gather_eq` — a gathering of eight positions in
  range fills the buffer, whatever was in it, and any other tells that it stopped.
* `SparseDot.Kernel.takeGroups_eq` — the loop over the groups.
* `SparseDot.Kernel.dotGrouped_eq`, `SparseDot.Kernel.dotVectorised_eq` — both kernels are the grouped sum.
* `SparseDot.Kernel.grouped_kernels_eq_groupedSum` — the same, with what becomes of every position.
-/

namespace SparseDot.Kernel

/-! ## Dealing a list out to lanes -/

section Deal

variable {γ : Type} {width groups : ℕ}

/-- The elements that are dealt out are in the list. -/
private lemma lane_index_lt {xs : List γ} (h : width * groups ≤ xs.length) {k j : ℕ} (hk : k < groups)
    (hj : j < width) : width * k + j < xs.length := by
  have : width * (k + 1) ≤ width * groups := Nat.mul_le_mul_left _ hk
  rw [Nat.mul_succ] at this
  omega

/-- **The elements of a list that go to lane `j`** when `groups` groups are dealt out: every `width`-th one,
from the `j`-th on. -/
def lane (xs : List γ) (h : width * groups ≤ xs.length) (j : Fin width) : List γ :=
  List.ofFn fun k : Fin groups => getElem xs (width * k + j) (lane_index_lt h k.isLt j.isLt)

/-- The lanes of a list of images. -/
lemma lane_map {δ : Type} (f : γ → δ) (xs : List γ) (h : width * groups ≤ (xs.map f).length)
    (j : Fin width) :
    lane (xs.map f) h j = (lane xs (h.trans_eq (List.length_map f)) j).map f := by
  simp [lane, List.map_ofFn, Function.comp_def]

/-- The last group adds one element to every lane. -/
private lemma lane_succ (xs : List γ) (h : width * (groups + 1) ≤ xs.length) (j : Fin width) :
    lane xs h j = lane xs ((Nat.mul_le_mul_left _ (Nat.le_succ _)).trans h) j ++
      [getElem xs (width * groups + j) (lane_index_lt h (Nat.lt_succ_self _) j.isLt)] := by
  rw [lane, List.ofFn_succ', List.concat_eq_append]
  rfl

/-- The next group is as many elements as there are lanes.

**Proof sketch.** The rest is its first `width` elements and what comes after them, and the `j`-th of these is the one
that goes to lane `j`. -/
private lemma drop_eq_map_append_drop (xs : List γ) (h : width * (groups + 1) ≤ xs.length) :
    xs.drop (width * groups) =
      (List.finRange width).map (fun j : Fin width =>
        getElem xs (width * groups + j) (lane_index_lt h (Nat.lt_succ_self _) j.isLt)) ++
      xs.drop (width * (groups + 1)) := by
  rw [← List.take_append_drop width (xs.drop (width * groups)), List.drop_drop, ← Nat.mul_succ]
  congr 1
  rw [Nat.mul_succ] at h
  apply List.ext_getElem
  · simp
    omega
  · intro j _ _
    simp

/-- **Lanes and rest are a permutation of the list**: nothing is dealt out twice and nothing is lost.

**Proof sketch.** Induction on the groups. The elements that the last group adds to the lanes can be moved
behind all lanes, where they are the front of the rest. -/
theorem flatMap_lane_append_perm (xs : List γ) (h : width * groups ≤ xs.length) :
    ((List.finRange width).flatMap (lane xs h) ++ xs.drop (width * groups)).Perm xs := by
  induction groups with
  | zero =>
    have hnil : (List.finRange width).flatMap (lane xs h) = [] :=
      List.flatMap_eq_nil_iff.mpr fun j _ => by simp [lane]
    simp [hnil]
  | succ groups ih =>
    have hprev : width * groups ≤ xs.length := (Nat.mul_le_mul_left _ (Nat.le_succ _)).trans h
    rw [show lane xs h = _ from funext (lane_succ xs h)]
    refine ((List.flatMap_append_perm _ _ _).symm.append_right _).trans ?_
    rw [List.append_assoc, ← List.map_eq_flatMap, ← drop_eq_map_append_drop xs h]
    exact ih hprev

end Deal

/-! ## Passes over the lanes -/

section Pass

variable {γ : Type} {n : ℕ} (f : Fin n → γ → γ)

/-- Some lanes rewritten, one after the other. -/
def rewriteLanes (lanes : List (Fin n)) (v : Vector γ n) : Vector γ n :=
  lanes.foldl (fun (v : Vector γ n) (lane : Fin n) => v.set lane (f lane v[lane])) v

/-- A pass over some lanes rewrites these and leaves the others alone.

**Proof sketch.** Induction on the lanes. The first one is rewritten at its place, where none of the others comes
again. -/
private lemma getElem_rewriteLanes (lanes : List (Fin n)) (hnodup : lanes.Nodup) (v : Vector γ n)
    (j : Fin n) : (rewriteLanes f lanes v)[j] = if j ∈ lanes then f j v[j] else v[j] := by
  induction lanes generalizing v with
  | nil => simp [rewriteLanes]
  | cons lane rest ih =>
    rw [List.nodup_cons] at hnodup
    rw [rewriteLanes, List.foldl_cons, ← rewriteLanes, ih hnodup.2]
    by_cases hj : j = lane
    · subst hj
      simp [hnodup.1]
    · have hne : (lane : ℕ) ≠ j := fun h => hj (Fin.ext h.symm)
      simp [hj, Vector.getElem_set_ne, hne]

/-- A pass over all lanes rewrites every one of them. -/
private lemma rewriteLanes_finRange (v : Vector γ n) :
    rewriteLanes f (List.finRange n) v = Vector.ofFn fun j => f j v[j] := by
  apply Vector.ext
  intro j hj
  have := getElem_rewriteLanes f (List.finRange n) (List.nodup_finRange n) v ⟨j, hj⟩
  simpa using this

end Pass

section Groups

variable {tokens : Array Int16} {weights dense : Array Binary32} {i : ℕ}

/-! ## Gathering -/

/-- A lane in range is written. -/
private lemma gatherLanes_cons_position (lane : Fin laneCount) (rest : List (Fin laneCount))
    (buffer : Lanes) (p : Position tokens dense.size) (hp : p.index = i + lane) :
    gatherLanes tokens dense i (lane :: rest) buffer =
      gatherLanes tokens dense i rest (buffer.set lane (p.value dense)) := by
  rw [gatherLanes, ← hp, fetch_of_lt p.index_lt]
  simp only [bind, Except.bind]
  rw [p.slot_token]
  simp only [fetch_of_lt p.slot_lt]
  rfl

/-- A lane out of range stops the gathering. -/
private lemma gatherLanes_cons_of_not_inRange (lane : Fin laneCount) (rest : List (Fin laneCount))
    (buffer : Lanes) (hi : i + lane < tokens.size) (h : ¬InRange tokens dense.size (i + lane)) :
    gatherLanes tokens dense i (lane :: rest) buffer = .ok (false, buffer) := by
  rw [gatherLanes, fetch_of_lt hi]
  simp only [bind, Except.bind]
  rw [slot_of_not_inRange hi h]
  rfl

/-- **A gathering in range fills the buffer**, whatever was in it.

**Proof sketch.** Induction on the lanes that are still to be gathered: each is in range and rewrites its place. All
places are rewritten in the end. -/
theorem gather_eq (buffer : Lanes) (p : Fin laneCount → Position tokens dense.size)
    (hp : ∀ lane, (p lane).index = i + lane) :
    gather tokens dense i buffer = .ok (true, Vector.ofFn fun lane => (p lane).value dense) := by
  have hlanes : ∀ lanes buffer, gatherLanes tokens dense i lanes buffer =
      .ok (true, rewriteLanes (fun lane _ => (p lane).value dense) lanes buffer) := by
    intro lanes
    induction lanes with
    | nil => exact fun buffer => rfl
    | cons lane rest ih =>
      intro buffer
      rw [gatherLanes_cons_position lane rest buffer (p lane) (hp lane), ih]
      rfl
  rw [gather, hlanes, rewriteLanes_finRange]

/-- **A gathering with a lane out of range tells so.** What it leaves in the buffer is not said, because
nothing uses it.

**Proof sketch.** Induction on the lanes that are still to be gathered, among which there is one out of range. A lane
in range is another one, so that one is still to come; the first lane out of range stops the gathering. -/
theorem exists_gather_eq (hi : i + laneCount ≤ tokens.size) (buffer : Lanes) {lane : Fin laneCount}
    (hlane : ¬InRange tokens dense.size (i + lane)) :
    ∃ buffer', gather tokens dense i buffer = .ok (false, buffer') := by
  have hlanes : ∀ lanes buffer, lane ∈ lanes →
      ∃ buffer', gatherLanes tokens dense i lanes buffer = .ok (false, buffer') := by
    intro lanes
    induction lanes with
    | nil => exact fun _ h => absurd h List.not_mem_nil
    | cons first rest ih =>
      intro buffer hmem
      by_cases h : InRange tokens dense.size (i + first)
      · rw [gatherLanes_cons_position first rest buffer h.position rfl]
        refine ih _ ((List.mem_cons.mp hmem).resolve_left ?_)
        rintro rfl
        exact hlane h
      · exact ⟨buffer, gatherLanes_cons_of_not_inRange first rest buffer (by omega) h⟩
  exact hlanes _ buffer (List.mem_finRange lane)

/-! ## Adding the products of a group -/

/-- The lanes of a group have their weights in the array. -/
private lemma add_lane_lt {size : ℕ} (h : i + laneCount ≤ size) (lane : Fin laneCount) : i + lane < size :=
  (Nat.add_lt_add_left lane.isLt i).trans_le h

/-- **What it means to add the products of a group to the lanes**: the same as to load its weights at
once, where there are eight of them. -/
def AddsGroup (weights : Array Binary32) (add : ℕ → Lanes → Lanes → Except Fault Lanes) : Prop :=
  ∀ (i : ℕ) (gathered lanes : Lanes), i + laneCount ≤ weights.size →
    add i gathered lanes = accumulateAtOnce weights i gathered lanes

/-- Each lane adds its own product, with one rounding. -/
private lemma accumulateAtOnce_eq (h : i + laneCount ≤ weights.size) (gathered lanes : Lanes) :
    accumulateAtOnce weights i gathered lanes =
      .ok (Vector.ofFn fun lane =>
        Binary.fma (getElem weights (i + lane) (add_lane_lt h lane)) gathered[lane] lanes[lane]) := by
  rw [accumulateAtOnce, loadWeights, dif_pos h]
  simp [bind, Except.bind, pure, Except.pure]

/-- Reading the weights lane by lane.

**Proof sketch.** Induction on the lanes of a pass: no read fails, and each step rewrites its lane. All lanes together
are what loading the weights at once gives. -/
lemma addsGroup_accumulate : AddsGroup weights (accumulate weights) := by
  intro i gathered lanes h
  have hlanes : ∀ (pass : List (Fin laneCount)) (lanes : Lanes),
      pass.foldlM (fun (lanes : Lanes) (lane : Fin laneCount) => do
        let weight ← fetch weights (i + lane)
        return lanes.set lane (Binary.fma weight gathered[lane] lanes[lane])) lanes =
      .ok (rewriteLanes (fun lane sum => Binary.fma weights[i + lane] gathered[lane] sum)
        pass lanes) := by
    intro pass
    induction pass with
    | nil => exact fun lanes => rfl
    | cons lane rest ih =>
      intro lanes
      rw [List.foldlM_cons, fetch_of_lt (add_lane_lt h lane)]
      exact ih _
  rw [accumulateAtOnce_eq h, accumulate, hlanes, rewriteLanes_finRange]

/-- Reading the weights at once. -/
private lemma addsGroup_accumulateAtOnce : AddsGroup weights (accumulateAtOnce weights) :=
  fun _ _ _ _ => rfl

/-- The two ways to read the weights. -/
lemma addsGroup_of_mem {add : ℕ → Lanes → Lanes → Except Fault Lanes}
    (h : add ∈ [accumulate weights, accumulateAtOnce weights]) : AddsGroup weights add := by
  rcases List.mem_pair.mp h with rfl | rfl
  · exact addsGroup_accumulate
  · exact addsGroup_accumulateAtOnce

/-! ## The loop over the groups -/

/-- There are as many whole groups as fit. -/
private lemma groupLimit_eq (size : ℕ) : groupLimit size = laneCount * (size / laneCount) := by
  simp only [groupLimit, laneCount]
  omega

/-- The groups that begin below the limit are those before that number. -/
lemma mul_lt_groupLimit_iff {size taken : ℕ} : laneCount * taken < groupLimit size ↔ taken < size / laneCount := by
  rw [groupLimit_eq]
  exact Nat.mul_lt_mul_left (by decide)

/-- The loop ends with the whole groups. -/
lemma takeGroups_of_le (add : ℕ → Lanes → Lanes → Except Fault Lanes) {limit : ℕ} (hlimit : limit ≤ i)
    (buffer lanes : Lanes) : takeGroups tokens dense add limit i buffer lanes = .ok (i, lanes) := by
  rw [takeGroups, if_neg (Nat.not_lt.mpr hlimit)]
  rfl

/-- A group in range adds its products to the lanes, and the loop goes on. -/
lemma takeGroups_of_position {add : ℕ → Lanes → Lanes → Except Fault Lanes}
    (hadd : AddsGroup weights add) (hi : i + laneCount ≤ weights.size)
    (p : Fin laneCount → Position tokens dense.size) (hp : ∀ lane, (p lane).index = i + lane)
    {limit : ℕ} (hlimit : i < limit) (buffer lanes : Lanes) :
    takeGroups tokens dense add limit i buffer lanes =
      takeGroups tokens dense add limit (i + laneCount) (Vector.ofFn fun lane => (p lane).value dense)
        (Vector.ofFn fun lane =>
          Binary.fma (getElem weights (i + lane) (add_lane_lt hi lane)) ((p lane).value dense)
            lanes[lane]) := by
  rw [takeGroups, if_pos hlimit, gather_eq buffer p hp]
  simp only [bind, Except.bind, if_true]
  rw [hadd _ _ _ hi, accumulateAtOnce_eq hi]
  simp

/-- A group with a lane out of range ends the loop, and the lanes stay as they are. -/
lemma takeGroups_of_not_inRange (add : ℕ → Lanes → Lanes → Except Fault Lanes)
    (hi : i + laneCount ≤ tokens.size) {lane : Fin laneCount}
    (hlane : ¬InRange tokens dense.size (i + lane)) (limit : ℕ) (buffer lanes : Lanes) :
    takeGroups tokens dense add limit i buffer lanes = .ok (i, lanes) := by
  obtain ⟨buffer', hgather⟩ := exists_gather_eq hi buffer hlane
  rw [takeGroups, hgather]
  exact ite_self _

variable (ts : List (Binary32 × Binary32)) {groups : ℕ} (h : laneCount * groups ≤ ts.length)

/-- **The sum of a lane**: its products, each added with one rounding. -/
def laneSum (j : Fin laneCount) : Binary32 :=
  (lane ts h j).foldl (fun sum t => Binary.fma t.1 t.2 sum) (Binary.zero false)

/-- **The sum of the lanes**, from the negative zero on. -/
def headSum : Binary32 :=
  Binary.zero true + laneSum ts h 0 + laneSum ts h 1 + laneSum ts h 2 + laneSum ts h 3 +
    laneSum ts h 4 + laneSum ts h 5 + laneSum ts h 6 + laneSum ts h 7

/-- **The product of the terms by groups**: as many groups as there are go to the lanes, and the products
left over are added to the sum of the lanes one by one. -/
def groupedSum : Binary32 :=
  (ts.drop (laneCount * (ts.length / laneCount))).foldl (fun acc t => acc + t.1 * t.2)
    (headSum ts (Nat.mul_div_le ts.length laneCount))

/-- The next group adds one product to every lane. -/
private lemma laneSum_succ (hnext : laneCount * (groups + 1) ≤ ts.length) (j : Fin laneCount) :
    laneSum ts hnext j =
      Binary.fma
        (getElem ts (laneCount * groups + j) (lane_index_lt hnext (Nat.lt_succ_self _) j.isLt)).1
        (getElem ts (laneCount * groups + j) (lane_index_lt hnext (Nat.lt_succ_self _) j.isLt)).2
        (laneSum ts h j) := by
  rw [laneSum, lane_succ, List.foldl_append]
  rfl

/-- A group of reached positions adds one product to every lane.

**Proof sketch.** Its positions are in range and have weights, and the products there are the next ones of the
lanes. -/
private lemma exists_takeGroups_eq (dense : Array Binary32) (enough : tokens.size ≤ weights.size)
    {add : ℕ → Lanes → Lanes → Except Fault Lanes} (hadd : AddsGroup weights add) {taken : ℕ}
    (htaken : laneCount * taken ≤ (terms tokens weights dense enough 0).length)
    (hnext : laneCount * (taken + 1) ≤ (terms tokens weights dense enough 0).length) {limit : ℕ}
    (hbelow : laneCount * taken < limit) (buffer : Lanes) :
    ∃ buffer', takeGroups tokens dense add limit (laneCount * taken) buffer
        (Vector.ofFn (laneSum (terms tokens weights dense enough 0) htaken)) =
      takeGroups tokens dense add limit (laneCount * (taken + 1)) buffer'
        (Vector.ofFn (laneSum (terms tokens weights dense enough 0) hnext)) := by
  choose p hindex hterm using fun j : Fin laneCount =>
    exists_position_getElem_terms enough (lane_index_lt hnext (Nat.lt_succ_self _) j.isLt)
  have hweights : laneCount * taken + laneCount ≤ weights.size := by
    rw [← Nat.mul_add_one]
    exact hnext.trans ((length_terms_le enough).trans enough)
  have hlanes : (Vector.ofFn fun j : Fin laneCount =>
      Binary.fma weights[laneCount * taken + j] ((p j).value dense)
        (Vector.ofFn (laneSum (terms tokens weights dense enough 0) htaken))[j]) =
      Vector.ofFn (laneSum (terms tokens weights dense enough 0) hnext) := by
    congr 1
    funext j
    simp [laneSum_succ _ htaken hnext, hterm, Position.weight, hindex]
  rw [takeGroups_of_position hadd hweights p hindex hbelow, hlanes]
  exact ⟨_, rfl⟩

/-- The group with the end of the walk in it ends the loop. -/
private lemma takeGroups_of_last (dense : Array Binary32) (enough : tokens.size ≤ weights.size)
    (add : ℕ → Lanes → Lanes → Except Fault Lanes)
    (hroom : laneCount * ((terms tokens weights dense enough 0).length / laneCount) + laneCount ≤ tokens.size)
    (limit : ℕ) (buffer lanes : Lanes) :
    takeGroups tokens dense add limit (laneCount * ((terms tokens weights dense enough 0).length / laneCount)) buffer
        lanes =
      .ok (laneCount * ((terms tokens weights dense enough 0).length / laneCount), lanes) := by
  have hends := endsReach_length tokens dense.size
  rw [← length_terms enough] at hends
  obtain ⟨j, hj⟩ : ∃ j : Fin laneCount, laneCount * ((terms tokens weights dense enough 0).length / laneCount) + j =
      (terms tokens weights dense enough 0).length :=
    ⟨⟨_, Nat.mod_lt _ (by decide)⟩, Nat.div_add_mod _ _⟩
  exact takeGroups_of_not_inRange add hroom (hj ▸ hends.not_inRange) limit buffer lanes

/-- **The loop over the groups.** It takes all groups of eight reached positions, and its lanes hold their
sums.

**Proof sketch.** Induction on the groups not yet looked at. As long as eight more positions are reached,
every lane gets its product. The first group of fewer holds the end of the walk. -/
theorem takeGroups_eq (dense : Array Binary32) (enough : tokens.size ≤ weights.size)
    {add : ℕ → Lanes → Lanes → Except Fault Lanes} (hadd : AddsGroup weights add)
    (count taken : ℕ) (hcount : taken + count = tokens.size / laneCount)
    (htaken : laneCount * taken ≤ (terms tokens weights dense enough 0).length) (buffer : Lanes) :
    takeGroups tokens dense add (groupLimit tokens.size) (laneCount * taken) buffer
        (Vector.ofFn (laneSum (terms tokens weights dense enough 0) htaken)) =
      .ok (laneCount * ((terms tokens weights dense enough 0).length / laneCount),
        Vector.ofFn (laneSum (terms tokens weights dense enough 0)
          (Nat.mul_div_le (terms tokens weights dense enough 0).length laneCount))) := by
  have hlen : (terms tokens weights dense enough 0).length ≤ tokens.size := length_terms_le enough
  induction count generalizing taken buffer with
  | zero =>
    obtain rfl : taken = (terms tokens weights dense enough 0).length / laneCount := by
      simp only [laneCount] at *
      omega
    exact takeGroups_of_le add (not_lt.mp (mul_lt_groupLimit_iff.not.mpr hcount.ge.not_gt)) ..
  | succ count ih =>
    by_cases hnext : laneCount * (taken + 1) ≤ (terms tokens weights dense enough 0).length
    · have hbelow : laneCount * taken < groupLimit tokens.size := mul_lt_groupLimit_iff.mpr (by omega)
      obtain ⟨buffer', hstep⟩ := exists_takeGroups_eq dense enough hadd htaken hnext hbelow buffer
      rw [hstep]
      exact ih (taken + 1) (by omega) hnext buffer'
    · obtain rfl : taken = (terms tokens weights dense enough 0).length / laneCount := by
        simp only [laneCount] at *
        omega
      refine takeGroups_of_last dense enough add ?_ _ buffer _
      simp only [laneCount] at *
      omega

/-- The lanes start with no product in them. -/
private lemma replicate_eq_laneSum (h : laneCount * 0 ≤ ts.length) :
    Vector.replicate laneCount (Binary.zero false) = Vector.ofFn (laneSum ts h) := by
  apply Vector.ext
  intro j hj
  simp [laneSum, lane]

/-- **The loop over all groups**, whatever the buffer holds at its start. -/
theorem takeGroups_zeros (dense : Array Binary32) (enough : tokens.size ≤ weights.size)
    {add : ℕ → Lanes → Lanes → Except Fault Lanes} (hadd : AddsGroup weights add) (buffer : Lanes) :
    takeGroups tokens dense add (groupLimit tokens.size) 0 buffer
        (Vector.replicate laneCount (Binary.zero false)) =
      .ok (laneCount * ((terms tokens weights dense enough 0).length / laneCount),
        Vector.ofFn (laneSum (terms tokens weights dense enough 0)
          (Nat.mul_div_le (terms tokens weights dense enough 0).length laneCount))) := by
  have hloop := takeGroups_eq dense enough hadd (tokens.size / laneCount) 0 (Nat.zero_add _)
    (Nat.zero_le _) buffer
  rwa [← replicate_eq_laneSum, Nat.mul_zero] at hloop

/-- The lanes are added up in order. -/
lemma sum_toList_eq_headSum : Binary.sum (Vector.ofFn (laneSum ts h)).toList = headSum ts h := by
  rw [Vector.toList_ofFn, Binary.sum]
  simp only [List.ofFn_succ, List.ofFn_zero, List.foldl_cons, List.foldl_nil]
  rfl

/-- **The product by groups is the grouped sum of the terms.**

**Proof sketch.** The loop takes the whole groups among the reached positions, and its lanes hold their sums. The
scalar walk from there on has the rest of the terms. -/
theorem dotByGroups_eq (enough : tokens.size ≤ weights.size)
    {add : ℕ → Lanes → Lanes → Except Fault Lanes} (hadd : AddsGroup weights add) :
    dotByGroups tokens weights dense add =
      .ok (groupedSum (terms tokens weights dense enough 0)) := by
  have hloop := takeGroups_zeros dense enough hadd (Vector.replicate laneCount (Binary.zero false))
  have hrest := terms_eq_drop enough (Nat.mul_div_le (terms tokens weights dense enough 0).length laneCount)
  rw [dotByGroups]
  simp only [bind, Except.bind]
  rw [hloop]
  simp only [sum_toList_eq_headSum]
  rw [dotFrom_eq enough, hrest]
  rfl

/-- Without terms the lanes are positive zeros, and so is their sum. -/
private lemma groupedSum_nil : groupedSum [] = Binary.zero false := by decide +kernel

/-- With an empty vector the grouped sum has no terms. -/
private lemma groupedSum_of_isEmpty (enough : tokens.size ≤ weights.size)
    (h : (tokens.isEmpty || dense.isEmpty) = true) :
    groupedSum (terms tokens weights dense enough 0) = Binary.zero false := by
  rw [terms, reached_of_isEmpty h, List.map_nil, groupedSum_nil]

/-- The kernel that reads its weights lane by lane. -/
theorem dotGrouped_eq (enough : tokens.size ≤ weights.size) :
    dotGrouped tokens weights dense = .ok (groupedSum (terms tokens weights dense enough 0)) := by
  unfold dotGrouped
  split_ifs with h
  · rw [groupedSum_of_isEmpty enough h]
  · exact dotByGroups_eq enough addsGroup_accumulate

/-- The kernel that loads its weights at once. -/
theorem dotVectorised_eq (enough : tokens.size ≤ weights.size) :
    dotVectorised tokens weights dense =
      .ok (groupedSum (terms tokens weights dense enough 0)) := by
  unfold dotVectorised
  split_ifs with h hshort
  · rw [groupedSum_of_isEmpty enough h]
  · omega
  · exact dotByGroups_eq enough addsGroup_accumulateAtOnce

end Groups

/-! ## The grouped kernels spelled out -/

/-- **Both grouped kernels are the grouped sum of the terms.** Of the `e` positions before the first token
out of range, the first `8 · (e / 8)` go to the lanes, position `i` to lane `i % 8`, and the others are
added to the sum of the lanes one by one; every position is used once. The lanes at the end of the loop do
not depend on what the buffer holds at its start. -/
theorem grouped_kernels_eq_groupedSum (tokens : Array Int16) (weights dense : Array Binary32)
    (enough : tokens.size ≤ weights.size) :
    let positions := reached tokens dense.size 0
    let ts := positions.map fun p => (p.weight weights enough, p.value dense)
    let zeros := Vector.replicate laneCount (Binary.zero false)
    EndsReach tokens dense.size 0 positions.length ∧
    positions.map (·.index) = List.range positions.length ∧
    ((List.finRange laneCount).flatMap (lane positions (Nat.mul_div_le positions.length laneCount)) ++
      positions.drop (laneCount * (positions.length / laneCount))).Perm positions ∧
    (∀ add ∈ [accumulate weights, accumulateAtOnce weights], ∀ buffer,
      takeGroups tokens dense add (groupLimit tokens.size) 0 buffer zeros =
        .ok (laneCount * (ts.length / laneCount),
          Vector.ofFn (laneSum ts (Nat.mul_div_le ts.length laneCount)))) ∧
    dotGrouped tokens weights dense = .ok (groupedSum ts) ∧
    dotVectorised tokens weights dense = .ok (groupedSum ts) := by
  intro positions ts zeros
  refine ⟨endsReach_length tokens dense.size, ?_, flatMap_lane_append_perm _ _, ?_, dotGrouped_eq enough,
    dotVectorised_eq enough⟩
  · rw [map_index_reached, List.range_eq_range']
  · exact fun add hmem buffer => takeGroups_zeros dense enough (addsGroup_of_mem hmem) buffer

/-- The token out of range is the fourth of its group, so that eight positions go to the lanes and three
to the scalar walk. -/
theorem grouped_kernels_stop_in_second_group :
    let tokens : Array Int16 := #[0, 1, 2, 0, 1, 2, 0, 1, 2, 0, 1, -1, 2, 0, 1, 2, 0]
    let weights : Array Binary32 := Array.replicate 17 (Binary.ofNat 3)
    let dense : Array Binary32 := #[Binary.ofNat 1, Binary.ofInt (-20), Binary.ofNat 300]
    tokens.size ≤ weights.size ∧
      dotGrouped tokens weights dense = .ok (Binary.ofInt 2472) ∧
      dotVectorised tokens weights dense = .ok (Binary.ofInt 2472) := by
  intro tokens weights dense
  have hkernels := grouped_kernels_eq_groupedSum tokens weights dense (by decide)
  refine ⟨by decide, ?_, ?_⟩
  · exact hkernels.2.2.2.2.1.trans (by decide +kernel)
  · exact hkernels.2.2.2.2.2.trans (by decide +kernel)

end SparseDot.Kernel
