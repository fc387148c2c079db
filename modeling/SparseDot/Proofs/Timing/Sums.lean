import Mathlib.Algebra.Order.BigOperators.Group.List
import Mathlib.Algebra.Order.Ring.Nat
import SparseDot.Timing.Aggregator

set_option autoImplicit false

/-!
# The sums of a collector

A collector holds, for every group and tag, the exact sum of the samples that it was given, whether they were
added one by one or came with other collectors. It has no entry for a tag without samples and no group
without tags, so it is determined by these sums, and the order in which the samples came is forgotten.

Adding can only fail because a sum gets too long for a duration. As sums only grow, it does not fail on the
way if the sums at the end are not too long.

## Main definitions

* `SparseDot.Timing.total`, `SparseDot.Timing.sumOf` — the exact sum of the samples of a group and tag.
* `SparseDot.Timing.Bounded` — samples with sums that are not too long.
* `SparseDot.Timing.Collector.Canonical` — collectors without empty groups.
* `SparseDot.Timing.Collector.Holds` — the collector holds the sums of some samples.

## Main results

* `SparseDot.Timing.Collector.Holds.exists_add`, `SparseDot.Timing.Collector.Holds.exists_merge` — adding
  and merging succeed, and what is held afterwards.
* `SparseDot.Timing.Collector.Holds.eq_of_perm` — the order of the samples is forgotten.
* `SparseDot.Timing.Collector.Holds.sum_samples` — no time is lost, and none counted twice.
* `SparseDot.Timing.Collector.pairwise_samples` — the sums are listed by group and then by tag.
-/

namespace SparseDot

namespace NameMap

variable {β : Type}

/-- A map into which something was inserted is not empty. -/
private lemma insert_ne_empty (m : NameMap β) (name : String) (value : β) : m.insert name value ≠ empty := by
  intro h
  have hget := m.get?_insert name name value
  rw [h, get?_empty, if_pos rfl] at hget
  cases hget

/-- A map in which no name is found is empty. -/
lemma eq_empty_of_get? {m : NameMap β} (h : ∀ name, m.get? name = none) : m = empty :=
  ext_get? fun name => h name

end NameMap

namespace Timing

/-- Durations are equal if they have the same number of nanoseconds. -/
lemma Duration.nanoseconds_injective : Function.Injective Duration.nanoseconds := by
  rintro ⟨x, hx⟩ ⟨y, hy⟩ (rfl : x = y)
  rfl

/-! ## Exact sums -/

/-- The group and the tag that a sample counts for. -/
def Sample.key (s : Sample) : String × String := (s.group, s.tag)

/-- The nanoseconds that a sample brings to a key. -/
def Sample.share (key : String × String) (s : Sample) : ℕ := if s.key = key then s.elapsed.nanoseconds else 0

/-- **The exact sum of the samples of a key**, in nanoseconds. -/
def total (key : String × String) (l : List Sample) : ℕ := (l.map (Sample.share key)).sum

/-- **The exact sum of the samples of a key**, if there are any. -/
def sumOf (key : String × String) (l : List Sample) : Option ℕ :=
  if key ∈ l.map Sample.key then some (total key l) else none

/-- **No sum is too long** for a duration. -/
def Bounded (l : List Sample) : Prop := ∀ key, total key l < Duration.limit

section Sums

variable {key : String × String} {l m : List Sample} {s : Sample}

/-- Without samples the sum of every key is zero. -/
@[simp] lemma total_nil (key : String × String) : total key [] = 0 := rfl

/-- The sum is what the first sample brings to it and the sum of the others. -/
@[simp] lemma total_cons (key : String × String) (s : Sample) (l : List Sample) :
    total key (s :: l) = s.share key + total key l := by simp [total]

/-- The sum over two lists is the sum of the two sums. -/
@[simp] lemma total_append (key : String × String) (l m : List Sample) :
    total key (l ++ m) = total key l + total key m := by simp [total]

/-- The order of the samples does not count for a sum. -/
private lemma total_perm (h : l.Perm m) (key : String × String) : total key l = total key m :=
  (h.map _).sum_eq

/-- The sum of a key without samples is zero. -/
lemma total_eq_zero (h : key ∉ l.map Sample.key) : total key l = 0 := by
  induction l with
  | nil => rfl
  | cons s l ih =>
    simp only [List.map_cons, List.mem_cons, not_or] at h
    simp [Sample.share, Ne.symm h.1, ih h.2]

/-- Among samples of different keys the sum of a key is its only sample. -/
private lemma total_of_nodup (hnodup : (l.map Sample.key).Nodup) (hs : s ∈ l) :
    total s.key l = s.elapsed.nanoseconds := by
  induction l with
  | nil => cases hs
  | cons first l ih =>
    obtain ⟨hfirst, hrest⟩ := List.nodup_cons.mp hnodup
    rcases List.mem_cons.mp hs with rfl | hs
    · simp [Sample.share, total_eq_zero hfirst]
    · have hne : first.key ≠ s.key := fun h => hfirst (h ▸ List.mem_map_of_mem hs)
      simp [Sample.share, hne, ih hrest hs]

/-- Without samples no key has a sum. -/
@[simp] lemma sumOf_nil (key : String × String) : sumOf key [] = none := rfl

/-- A key has no sum exactly if it has no sample. -/
lemma sumOf_eq_none_iff : sumOf key l = none ↔ key ∉ l.map Sample.key := by simp [sumOf]

/-- A key without a sum counts as one whose sum is zero. -/
lemma getD_sumOf (key : String × String) (l : List Sample) : (sumOf key l).getD 0 = total key l := by
  unfold sumOf
  split_ifs with h
  · rfl
  · exact (total_eq_zero h).symm

/-- The sum over two lists is the sum of the two sums, as far as there are any.

**Proof sketch.** A key has samples in both lists, in one of them or in neither, and where it has none its sum is
zero. -/
lemma sumOf_append (key : String × String) (l m : List Sample) :
    sumOf key (l ++ m) = Option.merge (· + ·) (sumOf key l) (sumOf key m) := by
  unfold sumOf
  rw [List.map_append, total_append]
  by_cases hl : key ∈ l.map Sample.key
  · by_cases hm : key ∈ m.map Sample.key
    · rw [if_pos (List.mem_append_left _ hl), if_pos hl, if_pos hm]
      rfl
    · rw [if_pos (List.mem_append_left _ hl), if_pos hl, if_neg hm, total_eq_zero hm]
      rfl
  · by_cases hm : key ∈ m.map Sample.key
    · rw [if_pos (List.mem_append_right _ hm), if_neg hl, if_pos hm, total_eq_zero hl, Nat.zero_add]
      rfl
    · rw [if_neg (by simp_all), if_neg hl, if_neg hm]
      rfl

/-- The order of the samples does not count for which keys have a sum, and for the sums. -/
private lemma sumOf_perm (h : l.Perm m) (key : String × String) : sumOf key l = sumOf key m := by
  simp only [sumOf, total_perm h, (h.map Sample.key).mem_iff]

/-- One more sample opens the sum of its key, or adds to it. -/
lemma sumOf_concat (key : String × String) (l : List Sample) (s : Sample) :
    sumOf key (l ++ [s]) =
      if key = s.key then some (total s.key l + s.elapsed.nanoseconds) else sumOf key l := by
  by_cases h : key = s.key
  · subst h
    simp [sumOf, Sample.share]
  · simp [sumOf, Sample.share, h, Ne.symm h]

/-- The order of the samples does not count for sums that are not too long. -/
lemma Bounded.perm (h : Bounded l) (hperm : l.Perm m) : Bounded m :=
  fun key => total_perm hperm key ▸ h key

/-- If no sum is too long in the end then none was after the first samples. -/
lemma Bounded.of_append_left (h : Bounded (l ++ m)) : Bounded l := fun key => by
  have := h key
  rw [total_append] at this
  omega

/-- If no sum is too long then none is over the last samples alone. -/
lemma Bounded.of_append_right (h : Bounded (l ++ m)) : Bounded m :=
  (h.perm List.perm_append_comm).of_append_left

/-- The sum of a key is at most the sum of all samples. -/
private lemma total_le_sum (key : String × String) (l : List Sample) :
    total key l ≤ (l.map fun s => s.elapsed.nanoseconds).sum := by
  refine List.sum_le_sum fun s _ => ?_
  unfold Sample.share
  split_ifs <;> omega

/-- Among different keys only one counts a sample. -/
private lemma sum_share {keys : List (String × String)} (hnodup : keys.Nodup) (hs : s.key ∈ keys) :
    (keys.map fun key => s.share key).sum = s.elapsed.nanoseconds := by
  induction keys with
  | nil => cases hs
  | cons key keys ih =>
    obtain ⟨hkey, hrest⟩ := List.nodup_cons.mp hnodup
    rw [List.map_cons, List.sum_cons]
    by_cases heq : s.key = key
    · have hothers : ∀ n ∈ keys.map fun key => s.share key, n = 0 := by
        intro n hn
        obtain ⟨other, hother, rfl⟩ := List.mem_map.mp hn
        exact if_neg fun h : s.key = other => hkey (heq.symm.trans h ▸ hother)
      rw [List.sum_eq_zero hothers, Nat.add_zero]
      exact if_pos heq
    · have hzero : s.share key = 0 := if_neg heq
      rw [hzero, Nat.zero_add, ih hrest ((List.mem_cons.mp hs).resolve_left heq)]

/-- **The sums of all keys together are the sum of all samples.**

**Proof sketch.** Induction on the samples. What the first one brings to all keys together is its own time, since it
counts for one of them and they are all different. -/
theorem sum_total {keys : List (String × String)} (hnodup : keys.Nodup) (hall : ∀ s ∈ l, s.key ∈ keys) :
    (keys.map fun key => total key l).sum = (l.map fun s => s.elapsed.nanoseconds).sum := by
  induction l with
  | nil => simp
  | cons s l ih =>
    obtain ⟨hs, hl⟩ := List.forall_mem_cons.mp hall
    simp only [total_cons, List.sum_map_add, sum_share hnodup hs, ih hl, List.map_cons, List.sum_cons]

/-- No sum is too long if all samples together are not. -/
lemma bounded_of_sum_lt (h : (l.map fun s => s.elapsed.nanoseconds).sum < Duration.limit) : Bounded l :=
  fun key => (total_le_sum key l).trans_lt h

end Sums

namespace Collector

/-! ## Looking up and listing the sums -/

/-- Setting a sum changes that group and no other. -/
private lemma groups_get?_set (c : Collector) (group tag other : String) (sum : Duration) :
    (c.set group tag sum).groups.get? other =
      if other = group then some (((c.groups.get? group).getD .empty).insert tag sum)
      else c.groups.get? other :=
  c.groups.get?_insert group other _

/-- **Setting a sum changes that tag of that group and nothing else.** -/
theorem get?_set (c : Collector) (group tag group' tag' : String) (sum : Duration) :
    (c.set group tag sum).get? group' tag' =
      if (group', tag') = (group, tag) then some sum else c.get? group' tag' := by
  rw [get?, groups_get?_set]
  by_cases hg : group' = group
  · subst hg
    rw [if_pos rfl, Option.bind_some, NameMap.get?_insert]
    by_cases ht : tag' = tag
    · simp [ht]
    · cases h : c.groups.get? group' <;> simp [ht, get?, h]
  · simp [hg, get?]

variable (c : Collector)

/-- **No group is without tags.** -/
def Canonical : Prop := ∀ group sums, c.groups.get? group = some sums → sums ≠ .empty

/-- The empty collector has no group, so none without tags. -/
lemma canonical_empty : empty.Canonical := fun group _ h => nomatch (NameMap.get?_empty group).symm.trans h

variable {c} in
/-- Setting a sum leaves no group without tags. -/
lemma Canonical.set (h : c.Canonical) (group tag : String) (sum : Duration) :
    (c.set group tag sum).Canonical := by
  intro other sums hsums
  rw [groups_get?_set] at hsums
  split_ifs at hsums with hother
  · obtain rfl := Option.some.inj hsums
    exact NameMap.insert_ne_empty _ _ _
  · exact h other sums hsums

variable {c} in
/-- A group is there exactly if it has a tag. -/
lemma Canonical.groups_get?_eq_none_iff (h : c.Canonical) (group : String) :
    c.groups.get? group = none ↔ ∀ tag, c.get? group tag = none := by
  constructor
  · intro hnone tag
    rw [get?, hnone]
    rfl
  · intro hnone
    cases hsums : c.groups.get? group with
    | none => rfl
    | some sums =>
      refine absurd (NameMap.eq_empty_of_get? fun tag => ?_) (h group sums hsums)
      have htag := hnone tag
      rwa [get?, hsums] at htag

/-- **Collectors without empty groups are equal if they look up alike.**

**Proof sketch.** The groups are those with a tag, and in each of them the same times are found under the same tags. -/
theorem Canonical.ext {c d : Collector} (hc : c.Canonical) (hd : d.Canonical)
    (h : ∀ group tag, c.get? group tag = d.get? group tag) : c = d := by
  have hgroups : c.groups = d.groups := by
    apply NameMap.ext_get?
    intro group
    have hnone : c.groups.get? group = none ↔ d.groups.get? group = none := by
      rw [hc.groups_get?_eq_none_iff, hd.groups_get?_eq_none_iff]
      simp only [h]
    have htags := h group
    cases hs : c.groups.get? group with
    | none => exact (hnone.mp hs).symm
    | some sums =>
      cases hs' : d.groups.get? group with
      | none => simp [hs, hs'] at hnone
      | some sums' =>
        simp only [get?, hs, hs', Option.bind_some] at htags
        rw [NameMap.ext_get? htags]
  cases c
  cases d
  exact congrArg Collector.mk hgroups

/-- The samples in which the sums are listed are what is looked up. -/
lemma mem_samples_iff {s : Sample} : s ∈ c.samples ↔ c.get? s.group s.tag = some s.elapsed := by
  obtain ⟨group, tag, elapsed⟩ := s
  simp only [samples, List.mem_flatMap, List.mem_map, get?, Option.bind_eq_some_iff]
  constructor
  · rintro ⟨⟨name, sums⟩, hgroup, ⟨label, sum⟩, htag, heq⟩
    cases heq
    exact ⟨sums, c.groups.get?_eq_some_iff.mpr hgroup, sums.get?_eq_some_iff.mpr htag⟩
  · rintro ⟨sums, hgroup, htag⟩
    exact ⟨(group, sums), c.groups.get?_eq_some_iff.mp hgroup, (tag, elapsed),
      sums.get?_eq_some_iff.mp htag, rfl⟩

/-- **The sums are listed by group and then by tag**, each once.

**Proof sketch.** Within a group the tags are sorted. Between two groups, as these are sorted, every sample of the one
comes before every sample of the other. -/
theorem pairwise_samples :
    c.samples.Pairwise fun a b => a.group < b.group ∨ a.group = b.group ∧ a.tag < b.tag := by
  rw [samples, List.pairwise_flatMap]
  constructor
  · rintro ⟨group, sums⟩ -
    rw [List.pairwise_map]
    exact sums.sorted.imp fun h => .inr ⟨rfl, h⟩
  · refine c.groups.sorted.imp fun {a b} hlt x hx y hy => .inl ?_
    obtain ⟨-, -, rfl⟩ := List.mem_map.mp hx
    obtain ⟨-, -, rfl⟩ := List.mem_map.mp hy
    exact hlt

/-- No key is listed twice. -/
lemma nodup_keys_samples : (c.samples.map Sample.key).Nodup := by
  rw [List.Nodup, List.pairwise_map]
  refine c.pairwise_samples.imp fun h heq => ?_
  obtain ⟨hgroup, htag⟩ := Prod.mk.inj heq
  rcases h with h | ⟨-, h⟩
  · exact String.lt_irrefl _ (hgroup ▸ h)
  · exact String.lt_irrefl _ (htag ▸ h)

/-- The sums of the list are those that are looked up.

**Proof sketch.** A key that is looked up is that of one sample in the list, and of no other, as keys are listed
once. -/
lemma sumOf_samples (group tag : String) :
    sumOf (group, tag) c.samples = (c.get? group tag).map Duration.nanoseconds := by
  cases h : c.get? group tag with
  | none =>
    rw [Option.map_none, sumOf_eq_none_iff]
    intro hmem
    obtain ⟨s, hs, hkey⟩ := List.mem_map.mp hmem
    obtain ⟨rfl, rfl⟩ := Prod.mk.inj hkey
    rw [c.mem_samples_iff.mp hs] at h
    cases h
  | some sum =>
    have hs : (⟨group, tag, sum⟩ : Sample) ∈ c.samples := c.mem_samples_iff.mpr h
    have hkey : (group, tag) ∈ c.samples.map Sample.key := List.mem_map_of_mem hs
    rw [sumOf, if_pos hkey]
    exact congrArg some (total_of_nodup c.nodup_keys_samples hs)

/-! ## What a collector holds -/

/-- **The collector holds these samples**: it has their sums, and no empty groups. -/
structure Holds (c : Collector) (l : List Sample) : Prop where
  map_get? : ∀ group tag, (c.get? group tag).map Duration.nanoseconds = sumOf (group, tag) l
  canonical : c.Canonical

/-- The empty collector holds no samples. -/
lemma holds_empty : empty.Holds [] := ⟨fun _ _ => rfl, canonical_empty⟩

section Holds

variable {c} {d : Collector} {l m : List Sample}

/-- Only the sums count. -/
lemma Holds.congr (h : c.Holds l) (hsums : ∀ key, sumOf key l = sumOf key m) : c.Holds m :=
  ⟨fun group tag => (h.map_get? group tag).trans (hsums _), h.canonical⟩

/-- A collector that holds samples holds them in every order. -/
lemma Holds.perm (h : c.Holds l) (hperm : l.Perm m) : c.Holds m := h.congr (sumOf_perm hperm)

/-- **The order of the samples is forgotten**: two collectors that hold the same samples are equal. -/
theorem Holds.eq_of_perm (hc : c.Holds l) (hd : d.Holds m) (hperm : l.Perm m) : c = d := by
  refine hc.canonical.ext hd.canonical fun group tag => ?_
  apply Option.map_injective Duration.nanoseconds_injective
  rw [hc.map_get?, hd.map_get?, sumOf_perm hperm]

/-- The sums of what a collector holds are those of the samples in which they are listed. -/
lemma Holds.sumOf_samples (h : d.Holds m) (key : String × String) : sumOf key d.samples = sumOf key m :=
  (d.sumOf_samples key.1 key.2).trans (h.map_get? key.1 key.2)

/-- **All sums of a collector together are the sum of the samples that it holds.**

**Proof sketch.** Both sides are the sum, over the keys that the collector lists, of the sums of these keys: each
sample has a key of the list, and these keys have the same sums on both sides. -/
theorem Holds.sum_samples (h : c.Holds l) :
    (c.samples.map fun s => s.elapsed.nanoseconds).sum = (l.map fun s => s.elapsed.nanoseconds).sum := by
  have htotal : ∀ key, total key c.samples = total key l := fun key => by
    rw [← getD_sumOf, ← getD_sumOf, h.sumOf_samples]
  have hkeys : ∀ s ∈ l, s.key ∈ c.samples.map Sample.key := by
    intro s hs
    by_contra hnone
    rw [← sumOf_eq_none_iff, h.sumOf_samples, sumOf_eq_none_iff] at hnone
    exact hnone (List.mem_map_of_mem hs)
  rw [← sum_total c.nodup_keys_samples fun s hs => List.mem_map_of_mem hs]
  simp only [htotal]
  exact sum_total c.nodup_keys_samples hkeys

/-- A sum that is opened is the exact sum so far. -/
lemma Holds.nanoseconds_getD (h : c.Holds l) (group tag : String) :
    ((c.get? group tag).getD .zero).nanoseconds = total (group, tag) l := by
  rw [← getD_sumOf, ← h.map_get?]
  cases c.get? group tag <;> rfl

/-- Setting the sum of a key to what it is with one more sample. -/
lemma Holds.set (h : c.Holds l) {s : Sample} {sum : Duration}
    (hsum : sum.nanoseconds = total s.key l + s.elapsed.nanoseconds) :
    (c.set s.group s.tag sum).Holds (l ++ [s]) := by
  refine ⟨fun group tag => ?_, h.canonical.set _ _ _⟩
  rw [get?_set, sumOf_concat, ← hsum, Sample.key]
  split_ifs
  · rw [Option.map_some]
  · exact h.map_get? group tag

/-- **A sample is added to the sum of its key**, unless that gets too long. -/
theorem Holds.exists_add (h : c.Holds l) {s : Sample} (hbound : Bounded (l ++ [s])) :
    ∃ c', c.add s = .done c' ∧ c'.Holds (l ++ [s]) := by
  have hs : total s.key l + s.elapsed.nanoseconds < Duration.limit := by
    simpa [Sample.share] using hbound s.key
  have hopened : ((c.get? s.group s.tag).getD .zero).nanoseconds = total s.key l :=
    h.nanoseconds_getD s.group s.tag
  have hsum : ((c.get? s.group s.tag).getD .zero).add? s.elapsed =
      some ⟨total s.key l + s.elapsed.nanoseconds, hs⟩ := by
    rw [Duration.add?_eq_some_iff, hopened]
  exact ⟨c.set s.group s.tag ⟨_, hs⟩, by simp only [add, hsum], h.set rfl⟩

/-- **Samples are added one after the other**, unless a sum gets too long in the end.

**Proof sketch.** Induction on the samples. Sums only grow, so with the sums at the end none is too long after the next
sample. -/
theorem Holds.exists_run (h : c.Holds l) (hbound : Bounded (l ++ m)) :
    ∃ c', Outcome.run add c m = .done c' ∧ c'.Holds (l ++ m) := by
  induction m generalizing c l with
  | nil => exact ⟨c, rfl, by simpa using h⟩
  | cons s m ih =>
    rw [List.append_cons] at hbound ⊢
    obtain ⟨c₁, hadd, hholds⟩ := h.exists_add hbound.of_append_left
    obtain ⟨c₂, hrun, hholds'⟩ := ih hholds hbound
    exact ⟨c₂, by simp only [Outcome.run, hadd, hrun], hholds'⟩

/-- **Merging adds the sums of the other collector**, unless a sum gets too long.

**Proof sketch.** A merge adds the sums of the other collector as if they were samples, and these have the sums of the
samples that it holds. -/
theorem Holds.exists_merge (hc : c.Holds l) (hd : ∀ key, sumOf key d.samples = sumOf key m)
    (hbound : Bounded (l ++ m)) : ∃ c', c.merge d = .done c' ∧ c'.Holds (l ++ m) := by
  have hsums : ∀ key, sumOf key (l ++ d.samples) = sumOf key (l ++ m) := fun key => by
    rw [sumOf_append, sumOf_append, hd]
  have hbound' : Bounded (l ++ d.samples) := fun key => by
    rw [← getD_sumOf, hsums, getD_sumOf]
    exact hbound key
  obtain ⟨c', hrun, hholds⟩ := hc.exists_run hbound'
  exact ⟨c', hrun, hholds.congr hsums⟩

end Holds

end Collector

/-- **A collector is merged into an aggregator**, unless a sum gets too long. -/
theorem Aggregator.exists_collectFrom {a : Aggregator} {c : Collector} {l m : List Sample}
    (ha : a.collected.Holds l) (hc : ∀ key, sumOf key c.samples = sumOf key m) (hbound : Bounded (l ++ m)) :
    ∃ c', a.collectFrom c = .done ⟨c', a.poisoned⟩ ∧ c'.Holds (l ++ m) := by
  obtain ⟨c', hmerge, hholds⟩ := ha.exists_merge hc hbound
  exact ⟨c', collectFrom_of_done hmerge, hholds⟩

end Timing

end SparseDot
