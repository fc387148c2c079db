import SparseDot.Proofs.Text.ByteOrder
import SparseDot.Proofs.Timing.Sums

set_option autoImplicit false

/-!
# Sums that get too long

Adding a sample stops if the sum of its key gets too long, and then the collector is as it was before. A merge
adds the sums of the other collector one by one in the order of their keys, so that it stops at the first key
whose two sums are too long together: the keys before it have been merged, and all others are as they were.

## Main definitions

* `SparseDot.Timing.Collector.sum?` — the sum of a key, in nanoseconds.
* `SparseDot.Timing.Precedes` — the order of keys.
* `SparseDot.Timing.Collector.Overflows` — the keys whose sums are too long together.
* `SparseDot.Timing.Collector.HalfMerged` — what a merge that has stopped at a key leaves.

## Main results

* `SparseDot.Timing.Outcome.run_cases` — a run gets to its end, or it stops at one of its items.
* `SparseDot.Timing.Collector.add_cases` — what adding a sample does.
* `SparseDot.Timing.Collector.merge_cases` — what merging does.
-/

namespace SparseDot

/-- Setting a name to the value that it has changes nothing. -/
private lemma NameMap.insert_of_get? {β : Type} {m : NameMap β} {name : String} {value : β}
    (h : m.get? name = some value) : m.insert name value = m := by
  refine ext_get? fun other => ?_
  rw [get?_insert]
  split_ifs with hother
  · rw [hother, h]
  · rfl

namespace Timing

/-- **A run gets to its end, or it stops at one of its items**: the items before that one were taken.

**Proof sketch.** Induction on the items. If the first one is not taken the run has stopped at it; else it is put in
front of the items that were taken in the rest of the run. -/
theorem Outcome.run_cases {σ α : Type} (step : σ → α → Outcome σ) (s : σ) (l : List α) :
    (∃ s', run step s l = .done s') ∨
      ∃ before item rest s' f s'', l = before ++ item :: rest ∧ run step s before = .done s' ∧
        step s' item = .failed f s'' ∧ run step s l = .failed f s'' := by
  induction l generalizing s with
  | nil => exact .inl ⟨s, rfl⟩
  | cons item l ih =>
    cases hstep : step s item with
    | failed f s'' => exact .inr ⟨[], item, l, s, f, s'', rfl, rfl, hstep, by simp only [run, hstep]⟩
    | done next =>
      have hrun : ∀ items, run step s (item :: items) = run step next items := fun items => by
        simp only [run, hstep]
      rw [hrun]
      rcases ih next with hdone | ⟨before, stop, rest, s', f, s'', rfl, hbefore, hstop, hfailed⟩
      · exact .inl hdone
      · exact .inr ⟨item :: before, stop, rest, s', f, s'', rfl, by rwa [hrun], hstop, hfailed⟩

/-! ## The order of keys -/

/-- **The order of keys**: by the bytes of the group, and within a group by those of the tag. -/
def Precedes (key other : String × String) : Prop :=
  utf8Bytes key.1 < utf8Bytes other.1 ∨ key.1 = other.1 ∧ utf8Bytes key.2 < utf8Bytes other.2

/-- Of two keys at most one precedes the other. -/
private lemma Precedes.asymm {key other : String × String} (h : Precedes key other) : ¬Precedes other key := by
  simp only [Precedes, utf8Bytes_lt_iff] at h ⊢
  rintro (hgroup | ⟨hgroup, htag⟩)
  · rcases h with h | ⟨h, -⟩
    · exact String.lt_asymm h hgroup
    · exact String.lt_irrefl _ (h ▸ hgroup)
  · rcases h with h | ⟨-, h⟩
    · exact String.lt_irrefl _ (hgroup ▸ h)
    · exact String.lt_asymm h htag

namespace Collector

/-! ## Adding a sample -/

/-- **The sum of a key**, in nanoseconds. -/
def sum? (c : Collector) (key : String × String) : Option ℕ :=
  (c.get? key.1 key.2).map Duration.nanoseconds

section Add

variable {c c' : Collector} {s : Sample} {l : List Sample} {key : String × String}

/-- The sum of a key among the samples of a collector is its sum in the collector. -/
private lemma sumOf_samples_eq_sum? (c : Collector) (key : String × String) : sumOf key c.samples = c.sum? key :=
  c.sumOf_samples key.1 key.2

/-- Sums are equal if their nanoseconds are. -/
private lemma get?_eq_of_sum?_eq {c d : Collector} {group tag : String}
    (h : c.sum? (group, tag) = d.sum? (group, tag)) : c.get? group tag = d.get? group tag :=
  Option.map_injective Duration.nanoseconds_injective h

/-- A sum is never too long. -/
private lemma lt_limit_of_sum? {n : ℕ} (h : c.sum? key = some n) : n < Duration.limit := by
  obtain ⟨d, -, rfl⟩ := Option.map_eq_some_iff.mp h
  exact d.bounded

/-- Setting the sum that a key has changes nothing. -/
private lemma set_of_get? {group tag : String} {sum : Duration} (h : c.get? group tag = some sum) :
    c.set group tag sum = c := by
  obtain ⟨tags, hgroup, htag⟩ := Option.bind_eq_some_iff.mp h
  rw [set, hgroup, Option.getD_some, NameMap.insert_of_get? htag, NameMap.insert_of_get? hgroup]

/-- **What adding a sample does.** Either the sum of its key gets longer, or it would get too long, and then
the collector is as it was.

**Proof sketch.** A sum that is opened is the sum of the key, or zero. If adding to it fails then the key was there
before, since a time by itself is not too long, and setting a key to what it is changes nothing. -/
theorem add_cases (c : Collector) (s : Sample) :
    (∃ sum : Duration, sum.nanoseconds = (c.sum? s.key).getD 0 + s.elapsed.nanoseconds ∧
      c.add s = .done (c.set s.group s.tag sum)) ∨
    ∃ n, c.sum? s.key = some n ∧ Duration.limit ≤ n + s.elapsed.nanoseconds ∧
      c.add s = .failed .durationOverflow c := by
  have hopened : ((c.get? s.group s.tag).getD .zero).nanoseconds = (c.sum? s.key).getD 0 := by
    rw [sum?, Sample.key]
    cases c.get? s.group s.tag <;> rfl
  cases hsum : ((c.get? s.group s.tag).getD .zero).add? s.elapsed with
  | some sum =>
    refine .inl ⟨sum, ?_, by simp only [add, hsum]⟩
    rw [← hopened, Duration.add?_eq_some_iff.mp hsum]
  | none =>
    have hlong : Duration.limit ≤ (c.sum? s.key).getD 0 + s.elapsed.nanoseconds := by
      rw [← hopened]
      simpa [Duration.add?, Duration.ofNanoseconds?] using hsum
    -- a new entry opens at no time, to which every time can be added
    cases hget : c.get? s.group s.tag with
    | none =>
      have hzero : c.sum? s.key = none := by simp [sum?, Sample.key, hget]
      rw [hzero, Option.getD_none, Nat.zero_add] at hlong
      exact absurd s.elapsed.bounded (Nat.not_lt.mpr hlong)
    | some opened =>
      have hopen : c.sum? s.key = some opened.nanoseconds := by simp [sum?, Sample.key, hget]
      rw [hopen, Option.getD_some] at hlong
      refine .inr ⟨opened.nanoseconds, hopen, hlong, ?_⟩
      rw [hget, Option.getD_some] at hsum
      simp only [add, hget, Option.getD_some, hsum, set_of_get? hget]

/-- Setting a sum changes the sum of that key and of no other. -/
private lemma sum?_set (c : Collector) (s : Sample) (sum : Duration) (key : String × String) :
    (c.set s.group s.tag sum).sum? key = if key = s.key then some sum.nanoseconds else c.sum? key := by
  rw [sum?, get?_set, Sample.key]
  split_ifs <;> rfl

/-- The sum of a key for a single sample. -/
private lemma sumOf_singleton (key : String × String) (s : Sample) :
    sumOf key [s] = if key = s.key then some s.elapsed.nanoseconds else none := by
  have h := sumOf_concat key [] s
  rwa [List.nil_append, total_nil, Nat.zero_add, sumOf_nil] at h

/-- **Adding a sample adds it to the sum of its key**, and changes no other. -/
theorem sum?_of_add_done (h : c.add s = .done c') (key : String × String) :
    c'.sum? key = Option.merge (· + ·) (c.sum? key) (sumOf key [s]) := by
  rcases c.add_cases s with ⟨sum, hsum, hadd⟩ | ⟨_, -, -, hadd⟩
  · obtain rfl : c.set s.group s.tag sum = c' := by simpa [hadd] using h
    rw [sum?_set, sumOf_singleton]
    split_ifs with hkey
    · subst hkey
      rw [hsum]
      cases c.sum? s.key <;> simp
    · cases c.sum? key <;> rfl
  · simp [hadd] at h

/-- Adding a sample leaves no group without tags, also if it fails. -/
lemma Canonical.add (h : c.Canonical) (s : Sample) : (c.add s).state.Canonical := by
  rcases c.add_cases s with ⟨sum, -, hadd⟩ | ⟨_, -, -, hadd⟩
  · rw [hadd]
    exact h.set s.group s.tag sum
  · rw [hadd]
    exact h

/-- **Adding samples adds each to the sum of its key.**

**Proof sketch.** Induction on the samples, where adding up sums that are there or not is associative. -/
theorem sum?_of_run_done (h : Outcome.run Collector.add c l = .done c') (key : String × String) :
    c'.sum? key = Option.merge (· + ·) (c.sum? key) (sumOf key l) := by
  induction l generalizing c with
  | nil =>
    obtain rfl : c = c' := by simpa [Outcome.run] using h
    cases c.sum? key <;> rfl
  | cons s l ih =>
    rw [Outcome.run] at h
    cases hadd : c.add s with
    | failed f next => simp [hadd] at h
    | done next =>
      rw [hadd] at h
      have hcons : sumOf key (s :: l) = Option.merge (· + ·) (sumOf key [s]) (sumOf key l) :=
        sumOf_append key [s] l
      rw [ih h, sum?_of_add_done hadd key, hcons]
      exact Std.Associative.assoc _ _ _

/-- Adding samples leaves no group without tags, also if one of them fails. -/
lemma Canonical.run (h : c.Canonical) (l : List Sample) :
    (Outcome.run Collector.add c l).state.Canonical := by
  induction l generalizing c with
  | nil => exact h
  | cons s l ih =>
    have hadd := h.add s
    rw [Outcome.run]
    cases hnext : c.add s with
    | done next =>
      rw [hnext] at hadd
      exact ih hadd
    | failed f next =>
      rw [hnext] at hadd
      exact hadd

end Add

/-! ## Merging -/

/-- The sums are listed in the order of their keys. -/
private lemma pairwise_samples_precedes (c : Collector) :
    c.samples.Pairwise fun x y => Precedes x.key y.key := by
  refine c.pairwise_samples.imp fun h => ?_
  simpa only [Precedes, Sample.key, utf8Bytes_lt_iff] using h

/-- **A key overflows** if both collectors have a sum for it, and these are too long together. -/
def Overflows (a b : Collector) (key : String × String) : Prop :=
  ∃ m n, a.sum? key = some m ∧ b.sum? key = some n ∧ Duration.limit ≤ m + n

/-- **What a merge leaves that has stopped at a key**: the keys before it are merged, and all other keys are as
they were. -/
structure HalfMerged (key : String × String) (a b after : Collector) : Prop where
  /-- The merge has stopped at a key that overflows. -/
  overflows : Overflows a b key
  /-- No key before it does. -/
  first : ∀ other, Precedes other key → ¬Overflows a b other
  /-- The keys of the other collector before it have both sums. -/
  merged : ∀ other, Precedes other key → (b.sum? other).isSome →
    after.sum? other = Option.merge (· + ·) (a.sum? other) (b.sum? other)
  /-- All other keys have the sum that they had, or none. -/
  kept : ∀ group tag, ¬(Precedes (group, tag) key ∧ (b.get? group tag).isSome) →
    after.get? group tag = a.get? group tag
  /-- No group is without tags. -/
  canonical : a.Canonical → after.Canonical

section Merge

variable {a b after : Collector} {before rest : List Sample} {s : Sample}

/-- A key has a sum exactly if it is looked up. -/
private lemma isSome_sum?_iff {group tag : String} : (a.sum? (group, tag)).isSome ↔ (a.get? group tag).isSome := by
  simp [sum?]

/-- A key that has been merged does not overflow. -/
private lemma not_overflows_of_sum? {key : String × String}
    (h : after.sum? key = Option.merge (· + ·) (a.sum? key) (b.sum? key)) : ¬Overflows a b key := by
  rintro ⟨m, n, hm, hn, hlong⟩
  rw [hm, hn] at h
  exact absurd (lt_limit_of_sum? h) (Nat.not_lt.mpr hlong)

/-- A key of a collector is one of those that it lists. -/
private lemma isSome_sum?_iff_mem {key : String × String} :
    (b.sum? key).isSome ↔ key ∈ b.samples.map Sample.key := by
  rw [← sumOf_samples_eq_sum?, ← not_iff_not, Bool.not_eq_true, Option.isSome_eq_false_iff,
    Option.isNone_iff_eq_none, sumOf_eq_none_iff]

/-- The sum of a key that is listed in the first part of the sums. -/
private lemma sumOf_before {key : String × String} (hsamples : b.samples = before ++ rest)
    (hkey : key ∈ before.map Sample.key) : sumOf key before = b.sum? key := by
  have hnodup := b.nodup_keys_samples
  rw [hsamples, List.map_append] at hnodup
  have hrest : sumOf key rest = none :=
    sumOf_eq_none_iff.mpr fun h => (List.nodup_append.mp hnodup).2.2 key hkey key h rfl
  rw [← sumOf_samples_eq_sum?, hsamples, sumOf_append, hrest]
  cases sumOf key before <;> rfl

/-- The keys before a key of the list are those of the part before it.

**Proof sketch.** The samples are listed in the order of their keys, so every key in front of the one of `s` precedes
it, and that key and those behind it do not. -/
private lemma mem_before_iff (hsamples : b.samples = before ++ s :: rest) {key : String × String} :
    key ∈ before.map Sample.key ↔ Precedes key s.key ∧ (b.sum? key).isSome := by
  have hpairwise := b.pairwise_samples_precedes
  rw [hsamples, List.pairwise_append, List.pairwise_cons] at hpairwise
  obtain ⟨-, ⟨hrest, -⟩, hbefore⟩ := hpairwise
  rw [isSome_sum?_iff_mem, hsamples, List.map_append, List.map_cons, List.mem_append, List.mem_cons]
  constructor
  · intro hkey
    refine ⟨?_, .inl hkey⟩
    obtain ⟨x, hx, rfl⟩ := List.mem_map.mp hkey
    exact hbefore x hx s List.mem_cons_self
  · rintro ⟨hprecedes, hkey | rfl | hkey⟩
    · exact hkey
    · exact absurd hprecedes hprecedes.asymm
    · obtain ⟨x, hx, rfl⟩ := List.mem_map.mp hkey
      exact absurd hprecedes (hrest x hx).asymm

/-- **A merge that stops at a sum has merged the sums before it.**

**Proof sketch.** The keys of the samples before `s` are those of the collector that precede the key of `s`, each
listed once. So they have both sums, which are then not too long, and every other key has the sum that it had. -/
theorem halfMerged_of_run (hsamples : b.samples = before ++ s :: rest)
    (hrun : Outcome.run Collector.add a before = .done after)
    (hlong : ∃ n, after.sum? s.key = some n ∧ Duration.limit ≤ n + s.elapsed.nanoseconds) :
    HalfMerged s.key a b after := by
  have hafter := sum?_of_run_done hrun
  have hs : b.sum? s.key = some s.elapsed.nanoseconds := by
    have hmem : s ∈ b.samples := by simp [hsamples]
    exact congrArg (Option.map Duration.nanoseconds) (b.mem_samples_iff.mp hmem)
  have hmerged : ∀ other, Precedes other s.key → (b.sum? other).isSome →
      after.sum? other = Option.merge (· + ·) (a.sum? other) (b.sum? other) := by
    intro other hprecedes hother
    rw [hafter, sumOf_before hsamples ((mem_before_iff hsamples).mpr ⟨hprecedes, hother⟩)]
  have hkept : ∀ other, ¬(Precedes other s.key ∧ (b.sum? other).isSome) →
      after.sum? other = a.sum? other := by
    intro other hother
    rw [hafter, sumOf_eq_none_iff.mpr (mt (mem_before_iff hsamples).mp hother)]
    cases a.sum? other <;> rfl
  refine ⟨?_, fun other hprecedes hother => ?_, hmerged, fun group tag hother => ?_, fun hcanonical => ?_⟩
  · obtain ⟨n, hn, hlong⟩ := hlong
    rw [hkept s.key fun h => h.1.asymm h.1] at hn
    exact ⟨n, _, hn, hs, hlong⟩
  · refine not_overflows_of_sum? (hmerged other hprecedes ?_) hother
    obtain ⟨_, n, -, hn, -⟩ := hother
    rw [hn, Option.isSome_some]
  · rw [← isSome_sum?_iff] at hother
    exact get?_eq_of_sum?_eq (hkept (group, tag) hother)
  · have h := hcanonical.run before
    rwa [hrun] at h

/-- **What merging does.** Either no key overflows, and then all sums are added, or the merge stops at the
first key that does.

**Proof sketch.** A merge is a run over the samples of the other collector, which gets to its end or stops at one of
them. In the end every key has both sums, so none overflows. Where it stops, the sum of the key got too long. -/
theorem merge_cases (a b : Collector) :
    (∃ after, a.merge b = .done after ∧ (∀ key, ¬Overflows a b key) ∧
      (∀ key, after.sum? key = Option.merge (· + ·) (a.sum? key) (b.sum? key)) ∧
      (a.Canonical → after.Canonical)) ∨
    ∃ after key, a.merge b = .failed .durationOverflow after ∧ HalfMerged key a b after := by
  rcases Outcome.run_cases Collector.add a b.samples with
    ⟨after, hrun⟩ | ⟨before, s, rest, after, f, _, hsamples, hrun, hadd, hfailed⟩
  · have hsum : ∀ key, after.sum? key = Option.merge (· + ·) (a.sum? key) (b.sum? key) := fun key => by
      rw [sum?_of_run_done hrun, sumOf_samples_eq_sum?]
    refine .inl ⟨after, hrun, fun key => not_overflows_of_sum? (hsum key), hsum, fun hcanonical => ?_⟩
    have h := hcanonical.run b.samples
    rwa [hrun] at h
  · rcases after.add_cases s with ⟨_, -, hdone⟩ | ⟨n, hn, hlong, hstop⟩
    · rw [hdone] at hadd
      cases hadd
    · rw [hstop] at hadd
      cases hadd
      exact .inr ⟨after, s.key, hfailed, halfMerged_of_run hsamples hrun ⟨n, hn, hlong⟩⟩

/-- A merge that does not stop has no key that overflows, and one that stops leaves a collector that is half
merged. -/
lemma merge_fits_or_stops (a b : Collector) :
    ((a.merge b).fault? = none ∧ ∀ key, ¬Overflows a b key) ∨
      ((a.merge b).fault? ≠ none ∧ ∃ key, HalfMerged key a b (a.merge b).state) := by
  rcases merge_cases a b with ⟨after, hmerge, hfits, -⟩ | ⟨after, key, hmerge, hhalf⟩
  · rw [hmerge]
    exact .inl ⟨rfl, hfits⟩
  · rw [hmerge]
    exact .inr ⟨nofun, key, hhalf⟩

end Merge

end Collector

end Timing

end SparseDot
