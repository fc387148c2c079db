import Mathlib.Logic.Function.Basic
import SparseDot.Proofs.Timing.Overflow
import SparseDot.Timing.Reporter

set_option autoImplicit false

/-!
# Collectors as ledgers

A family of collectors is used by calls in any order: samples are added or reported, collectors are merged into
others, and they are cleared. A ledger for each of them notes what is contributed to it, forgets everything when
it is cleared, and does no sums. As long as no merge stops, a collector always has the exact sums of its ledger.
An addition may stop. It does so exactly if the sum would be too long, and then the collector is as it was and
nothing is noted.

## Main definitions

* `SparseDot.Timing.Ledger.Call` — the calls on a family of collectors.
* `SparseDot.Timing.Ledger.after` — the collectors after a sequence of calls.
* `SparseDot.Timing.Ledger.contributed` — what has been contributed to each collector since it was last cleared.
* `SparseDot.Timing.Ledger.NoMergeStops` — no merge of a sequence of calls stops.

## Main results

* `SparseDot.Timing.Ledger.holds_perform` — a call does to the collectors what it does to the ledgers.
* `SparseDot.Timing.Ledger.collectors_hold_exact_sums` — the collectors have the exact sums of the ledgers.
-/

namespace SparseDot.Timing

/-- The first number of nanoseconds that is too long is one more than the longest duration has. -/
private lemma Duration.limit_le_iff {n : ℕ} :
    Duration.limit ≤ n ↔ (2 ^ 64 - 1) * 1000000000 + 999999999 < n := by
  have hlimit : Duration.limit = 2 ^ 64 * 1000000000 := rfl
  omega

/-- A duration has its seconds and nanoseconds in range, and they make it up. -/
private lemma Duration.parts (d : Duration) :
    d.seconds * 1000000000 + d.subsecond = d.nanoseconds ∧ d.seconds < 2 ^ 64 ∧ d.subsecond < 1000000000 := by
  have hbounded : d.nanoseconds < 2 ^ 64 * 1000000000 := d.bounded
  unfold seconds subsecond nanosPerSecond
  omega

namespace Collector

variable {c d : Collector} {l m : List Sample}

/-- The sum of a key is that of the samples that the collector holds. -/
private lemma Holds.sum?_eq (h : c.Holds l) (key : String × String) : c.sum? key = sumOf key l :=
  h.map_get? key.1 key.2

/-- **Adding a sample to a collector that holds others.** It stops exactly if the sum is too long, and then it
changes nothing. -/
theorem Holds.add_cases (h : c.Holds l) (s : Sample) :
    (total s.key l + s.elapsed.nanoseconds < Duration.limit ∧
      ∃ c', c.add s = .done c' ∧ c'.Holds (l ++ [s])) ∨
    (Duration.limit ≤ total s.key l + s.elapsed.nanoseconds ∧ c.add s = .failed .durationOverflow c) := by
  have htotal : (c.sum? s.key).getD 0 = total s.key l := by rw [h.sum?_eq, getD_sumOf]
  rcases c.add_cases s with ⟨sum, hsum, hadd⟩ | ⟨n, hn, hlong, hadd⟩
  · rw [htotal] at hsum
    exact .inl ⟨hsum ▸ sum.bounded, _, hadd, h.set hsum⟩
  · rw [hn, Option.getD_some] at htotal
    exact .inr ⟨htotal ▸ hlong, hadd⟩

/-- **A merge that gets to its end** has added what the other collector holds. -/
theorem Holds.of_merge_done (hc : c.Holds l) (hd : d.Holds m) {c' : Collector} (h : c.merge d = .done c') :
    c'.Holds (l ++ m) := by
  rcases merge_cases c d with ⟨after, hmerge, -, hsum, hcanonical⟩ | ⟨_, _, hmerge, -⟩
  · obtain rfl : after = c' := by simpa [hmerge] using h
    refine ⟨fun group tag => ?_, hcanonical hc.canonical⟩
    exact (hsum (group, tag)).trans (by rw [hc.sum?_eq, hd.sum?_eq, sumOf_append])
  · rw [hmerge] at h
    cases h

end Collector

namespace Ledger

/-! ## Calls -/

/-- **A call on a family of collectors.** -/
inductive Call (ι : Type) where
  /-- Adds a sample to a collector. -/
  | add (target : ι) (sample : Sample)
  /-- Reports a sample to a collector. -/
  | report (target : ι) (sample : Sample)
  /-- Merges a collector into another. -/
  | merge (target source : ι)
  /-- Clears a collector. -/
  | clear (target : ι)

namespace Call

variable {ι : Type}

/-- The collector that a call changes. -/
def target : Call ι → ι
  | add target _ | report target _ | merge target _ | clear target => target

/-- The sample that a call adds or reports. -/
def sample? : Call ι → Option Sample
  | add _ sample | report _ sample => some sample
  | merge _ _ | clear _ => none

/-- Whether a call merges. -/
def isMerge : Call ι → Bool
  | merge _ _ => true
  | add _ _ | report _ _ | clear _ => false

/-- **What a call does to its collector.** -/
def outcome (cs : ι → Collector) : Call ι → Outcome Collector
  | add target sample => (cs target).add sample
  | report target sample => Reporter.report (cs target) sample
  | merge target source => (cs target).merge (cs source)
  | clear _ => .done .empty

variable [DecidableEq ι]

/-- **The collectors after a call**, also if it has stopped. -/
def perform (cs : ι → Collector) (call : Call ι) : ι → Collector :=
  Function.update cs call.target (call.outcome cs).state

/-- **The ledgers after a call.** A sample is noted unless it makes a sum too long, a merge contributes all that
has been contributed to the other collector, and a collector that is cleared has no contributions. -/
def note (ledgers : ι → List Sample) : Call ι → ι → List Sample
  | add target sample | report target sample =>
    if total sample.key (ledgers target) + sample.elapsed.nanoseconds < Duration.limit then
      Function.update ledgers target (ledgers target ++ [sample])
    else ledgers
  | merge target source => Function.update ledgers target (ledgers target ++ ledgers source)
  | clear target => Function.update ledgers target []

end Call

variable {ι : Type} [DecidableEq ι]

/-- **The collectors after a sequence of calls**, which are empty at first. A call that stops is followed by
the next. -/
def after (calls : List (Call ι)) : ι → Collector := calls.foldl Call.perform fun _ => .empty

/-- **What has been contributed to each collector** since it was last cleared, in a sequence of calls. -/
def contributed (calls : List (Call ι)) : ι → List Sample := calls.foldl Call.note fun _ => []

/-- **No merge stops** when the calls are made one after the other, beginning with these collectors. -/
def NoMergeStops (cs : ι → Collector) : List (Call ι) → Prop
  | [] => True
  | call :: rest =>
    (call.isMerge = true → (call.outcome cs).fault? = none) ∧ NoMergeStops (call.perform cs) rest

/-! ## One call -/

section Perform

variable {cs : ι → Collector} {ledgers : ι → List Sample} {i : ι}

/-- Collectors that are not the target of a call are as they were. -/
private lemma perform_of_ne (cs : ι → Collector) {call : Call ι} (h : i ≠ call.target) : call.perform cs i = cs i :=
  Function.update_of_ne h _ _

/-- A collector is changed, and its ledger with it. -/
private lemma holds_update (h : ∀ i, (cs i).Holds (ledgers i)) {target : ι} {c : Collector} {l : List Sample}
    (hc : c.Holds l) (i : ι) : (Function.update cs target c i).Holds (Function.update ledgers target l i) := by
  by_cases hi : i = target
  · subst hi
    simpa using hc
  · simpa [hi] using h i

/-- Adding a sample to a collector of a family. -/
private lemma holds_add (h : ∀ i, (cs i).Holds (ledgers i)) (target : ι) (sample : Sample) (i : ι) :
    (Call.perform cs (.add target sample) i).Holds (Call.note ledgers (.add target sample) i) := by
  rcases (h target).add_cases sample with ⟨hfits, c', hadd, hholds⟩ | ⟨hlong, hadd⟩
  · simp only [Call.perform, Call.note, Call.outcome, Call.target, hadd, Outcome.state, if_pos hfits]
    exact holds_update h hholds i
  · simp only [Call.perform, Call.note, Call.outcome, Call.target, hadd, Outcome.state,
      if_neg (Nat.not_lt.mpr hlong), Function.update_eq_self]
    exact h i

/-- **A call does to the collectors what it does to the ledgers**, unless it is a merge that stops.

**Proof sketch.** A case for each call. A sample that makes a sum too long is neither added nor noted, and a merge that
does not stop has added what the other collector holds. -/
theorem holds_perform (h : ∀ i, (cs i).Holds (ledgers i)) {call : Call ι}
    (hmerge : call.isMerge = true → (call.outcome cs).fault? = none) (i : ι) :
    (call.perform cs i).Holds (call.note ledgers i) := by
  cases call with
  | add target sample => exact holds_add h target sample i
  | report target sample => exact holds_add h target sample i
  | merge target source =>
    have hdone := hmerge rfl
    simp only [Call.perform, Call.note, Call.outcome, Call.target] at hdone ⊢
    cases hresult : (cs target).merge (cs source) with
    | done merged => exact holds_update h ((h target).of_merge_done (h source) hresult) i
    | failed f merged =>
      rw [hresult] at hdone
      cases hdone
  | clear target => exact holds_update h Collector.holds_empty i

end Perform

/-! ## Sequences of calls -/

/-- **Calls keep the collectors and the ledgers together**, as each of them does. -/
theorem holds_foldl {calls : List (Call ι)} {cs : ι → Collector} {ledgers : ι → List Sample}
    (h : ∀ i, (cs i).Holds (ledgers i)) (hmerges : NoMergeStops cs calls) (i : ι) :
    (calls.foldl Call.perform cs i).Holds (calls.foldl Call.note ledgers i) := by
  induction calls generalizing cs ledgers with
  | nil => exact h i
  | cons call rest ih =>
    obtain ⟨hmerge, hrest⟩ := hmerges
    exact ih (holds_perform h hmerge) hrest

/-- **The collectors hold what has been contributed to them.** -/
theorem holds_after {calls : List (Call ι)} (hmerges : NoMergeStops (fun _ => .empty) calls) (i : ι) :
    (after calls i).Holds (contributed calls i) :=
  holds_foldl (fun _ => Collector.holds_empty) hmerges i

/-- **Collectors have the exact sums of what has been contributed to them.** After any sequence of calls in
which no merge stops, a key has a sum in a collector exactly if something has been contributed to it since the
collector was last cleared. That is then the exact sum of all these contributions, in seconds and nanoseconds. A
further addition stops exactly if the sum would be longer than the longest duration, and then it leaves the
collector as it was. No call changes a collector other than its target.

**Proof sketch.** The collectors hold what the ledgers note, by induction on the calls. A further addition then has two
cases, whether the sum of the ledger is too long with it or not. -/
theorem collectors_hold_exact_sums {calls : List (Call ι)} (hmerges : NoMergeStops (fun _ => .empty) calls) :
    (∀ i group tag,
      ((after calls i).get? group tag = none ↔ (group, tag) ∉ (contributed calls i).map Sample.key) ∧
      ∀ sum, (after calls i).get? group tag = some sum →
        sum.seconds * 1000000000 + sum.subsecond = total (group, tag) (contributed calls i) ∧
          sum.seconds < 2 ^ 64 ∧ sum.subsecond < 1000000000) ∧
    (∀ (call : Call ι) sample, call.sample? = some sample →
      let sum := total sample.key (contributed calls call.target) + sample.elapsed.nanoseconds
      ((call.outcome (after calls)).fault? ≠ none ↔ (2 ^ 64 - 1) * 1000000000 + 999999999 < sum) ∧
        ((call.outcome (after calls)).fault? ≠ none →
          (call.outcome (after calls)).fault? = some .durationOverflow ∧
          call.perform (after calls) = after calls)) ∧
    ∀ (call : Call ι) i, i ≠ call.target → call.perform (after calls) i = after calls i := by
  refine ⟨fun i group tag => ?_, fun call sample hsample => ?_, fun call i hi => perform_of_ne _ hi⟩
  · have hget := (holds_after hmerges i).map_get? group tag
    refine ⟨by rw [← sumOf_eq_none_iff, ← hget, Option.map_eq_none_iff], fun sum hsum => ?_⟩
    obtain ⟨hparts, hseconds, hsubsecond⟩ := sum.parts
    refine ⟨?_, hseconds, hsubsecond⟩
    rw [hparts, ← getD_sumOf, ← hget, hsum]
    rfl
  · have houtcome : call.outcome (after calls) = (after calls call.target).add sample := by
      cases call <;> cases hsample <;> rfl
    simp only [← Duration.limit_le_iff, Call.perform, houtcome]
    rcases (holds_after hmerges call.target).add_cases sample with ⟨hfits, c', hadd, -⟩ | ⟨hlong, hadd⟩
    · rw [hadd]
      exact ⟨⟨fun h => absurd rfl h, fun h => absurd hfits (Nat.not_lt.mpr h)⟩, fun h => absurd rfl h⟩
    · rw [hadd]
      exact ⟨⟨fun _ => hlong, fun _ => nofun⟩, fun _ => ⟨rfl, Function.update_eq_self _ _⟩⟩

/-- Two collectors, of which the first has the longest sum there is. One more nanosecond stops and is not noted;
the merge that follows contributes the longest sum, and then the first collector is cleared. -/
theorem collectors_hold_exact_sums_at_the_limit :
    let longest : Sample := ⟨"g", "a", ⟨Duration.limit - 1, by decide⟩⟩
    let short : Sample := ⟨"g", "a", ⟨1, by decide⟩⟩
    let calls : List (Call Bool) := [.add true longest, .report true short, .merge false true, .clear true]
    NoMergeStops (fun _ => .empty) calls ∧ contributed calls false = [longest] ∧
      (after calls true).get? "g" "a" = none ∧
      ((Call.report false short).outcome (after calls)).fault? = some .durationOverflow ∧
      (Call.report false short).perform (after calls) = after calls := by
  intro longest short calls
  have hmerges : NoMergeStops (fun _ => .empty) calls :=
    ⟨nofun, nofun, fun _ => by decide +kernel, nofun, trivial⟩
  have hfalse : contributed calls false = [longest] := by decide +kernel
  have htrue : contributed calls true = [] := by decide +kernel
  obtain ⟨hget, hadd, -⟩ := collectors_hold_exact_sums hmerges
  obtain ⟨hstops, hkept⟩ := hadd (.report false short) short rfl
  have hstop := hkept (hstops.mpr (by
    show _ < total ("g", "a") (contributed calls false) + 1
    rw [hfalse]
    decide +kernel))
  refine ⟨hmerges, hfalse, (hget true "g" "a").1.mpr ?_, hstop.1, hstop.2⟩
  rw [htrue]
  exact List.not_mem_nil

end Ledger

end SparseDot.Timing
