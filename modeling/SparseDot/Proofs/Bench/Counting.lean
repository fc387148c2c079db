import Mathlib.Algebra.Order.Ring.Nat
import SparseDot.Proofs.Bench.Schedule
import SparseDot.Proofs.Timing.Shares

set_option autoImplicit false

/-!
# What the bench has counted

Each worker has recorded its own calls, and merges them once. So what has been gathered in the end are the
samples of all calls, in some order. A collector forgets the order: it holds one sum, the time of all calls
together.

## Main definitions

* `SparseDot.Bench.nanoseconds` — the time that calls took together.
* `SparseDot.Bench.Job.samples` — the samples of calls.

## Main results

* `SparseDot.Bench.Job.exists_run_record` — what a worker holds after its calls.
* `SparseDot.Bench.Job.exists_run_perform` — performing the tasks one by one gets each worker there.
* `SparseDot.Bench.Job.exists_gather` — what has been gathered are the samples of all calls.
* `SparseDot.Bench.Job.eq_set_of_holds` — a collector that holds the samples of timed calls has one sum.
* `SparseDot.Bench.Job.counts_every_call_once` — what has been gathered in the end.
-/

namespace SparseDot.Bench

open Timing

/-- **The time that calls were measured to take together**, in nanoseconds. -/
def nanoseconds (calls : List Call) : ℕ := (calls.map fun call => call.elapsed.nanoseconds).sum

namespace Job

variable (job : Job)

/-- The samples of calls, of which there are none if the calls are not timed. -/
def samples (calls : List Call) : List Sample := if job.timing then calls.map job.sample else []

/-! ## The samples of calls -/

section Samples

/-- The samples of calls, one part after the other. -/
private lemma samples_append (l m : List Call) : job.samples (l ++ m) = job.samples l ++ job.samples m := by
  unfold samples
  split_ifs
  · exact List.map_append
  · rfl

/-- The samples of calls in another order are the same samples in another order. -/
private lemma samples_perm {l m : List Call} (h : l.Perm m) : (job.samples l).Perm (job.samples m) := by
  unfold samples
  split_ifs
  · exact h.map _
  · exact .nil

/-- The samples of calls that are put together part by part. -/
private lemma samples_flatMap {α : Type} (l : List α) (f : α → List Call) :
    job.samples (l.flatMap f) = l.flatMap fun a => job.samples (f a) := by
  induction l with
  | nil => simp [samples]
  | cons a l ih => rw [List.flatMap_cons, List.flatMap_cons, samples_append, ih]

/-- The samples of a part of the calls have no sum that is too long if all calls together do not take too
long. -/
private lemma bounded_samples {part all : List Call} (hsub : part.Sublist all)
    (hall : nanoseconds all < Duration.limit) : Bounded (job.samples part) := by
  have hle : nanoseconds part ≤ nanoseconds all :=
    (hsub.map _).sum_le_sum fun _ _ => Nat.zero_le _
  refine bounded_of_sum_lt (lt_of_le_of_lt ?_ hall)
  unfold samples
  split_ifs
  · rw [List.map_map]
    exact hle
  · exact Nat.zero_le _

end Samples

/-! ## What workers hold -/

section Workers

variable {job} {worker : ThreadLocal} {l : List Sample}

/-- A call adds its samples to those of the worker. -/
private lemma exists_record (hidle : worker.readers = 0) (hholds : worker.collector.Holds l) {call : Call}
    (hbound : Bounded (l ++ job.samples [call])) :
    ∃ after, job.record worker call = .done after ∧ after.readers = 0 ∧
      after.collector.Holds (l ++ job.samples [call]) := by
  rw [record_eq]
  cases htiming : job.timing with
  | false => exact ⟨worker, rfl, hidle, by simpa [samples, htiming] using hholds⟩
  | true =>
    have hsamples : job.samples [call] = [job.sample call] := by rw [samples, htiming]; rfl
    rw [hsamples] at hbound ⊢
    obtain ⟨c, hadd, hc⟩ := hholds.exists_add hbound
    refine ⟨⟨c, 0⟩, ?_, rfl, hc⟩
    rw [if_pos rfl, ThreadLocal.record, ThreadLocal.change, if_pos hidle, hadd]
    rfl

/-- **The calls of a worker** add their samples one after the other.

**Proof sketch.** Induction on the calls. If no sum is too long in the end then none is after the first call. -/
theorem exists_run_record (hidle : worker.readers = 0) (hholds : worker.collector.Holds l)
    {calls : List Call} (hbound : Bounded (l ++ job.samples calls)) :
    ∃ after, Outcome.run job.record worker calls = .done after ∧
      after.collector.Holds (l ++ job.samples calls) := by
  induction calls generalizing worker l with
  | nil => exact ⟨worker, rfl, by simpa [samples] using hholds⟩
  | cons call calls ih =>
    have hsplit : l ++ job.samples (call :: calls) = (l ++ job.samples [call]) ++ job.samples calls := by
      rw [List.append_assoc, ← samples_append]
      rfl
    rw [hsplit] at hbound ⊢
    obtain ⟨next, hrecord, hidle', hholds'⟩ := exists_record hidle hholds hbound.of_append_left
    obtain ⟨after, hrun, hafter⟩ := ih hidle' hholds' hbound
    exact ⟨after, by simp only [Outcome.run, hrecord, hrun], hafter⟩

/-- **Performing the tasks one by one** gets each worker where its own calls lead.

**Proof sketch.** Induction on the tasks. The first one is done by its worker, who gets with it where the first of its
calls lead; for all other workers nothing has happened. -/
theorem exists_run_perform (workers : Array ThreadLocal) {tasks : List Task} {after : ℕ → ThreadLocal}
    (hworker : ∀ task ∈ tasks, task.worker < workers.size)
    (h : ∀ w < workers.size,
      Outcome.run job.record (workers.getD w .fresh) (callsBy w tasks) = .done (after w)) :
    ∃ performed, Outcome.run job.perform workers tasks = .done performed ∧
      ∀ w < workers.size, performed.getD w .fresh = after w := by
  induction tasks generalizing workers with
  | nil => exact ⟨workers, rfl, fun w hw => Outcome.done.inj (h w hw)⟩
  | cons task tasks ih =>
    have htask := hworker task List.mem_cons_self
    have hown := h task.worker htask
    rw [callsBy_cons, if_pos rfl] at hown
    obtain ⟨middle, hcalls, hrest⟩ := Outcome.exists_of_run_append hown
    have hperform : job.perform workers task = .done (workers.setIfInBounds task.worker middle) := by
      simp only [perform, hcalls, Outcome.map]
    have hsize : (workers.setIfInBounds task.worker middle).size = workers.size := Array.size_setIfInBounds
    obtain ⟨performed, hrun, hperformed⟩ := ih (workers.setIfInBounds task.worker middle)
      (by
        rw [hsize]
        exact fun t ht => hworker t (List.mem_cons_of_mem _ ht))
      (by
        intro w hw
        rw [hsize] at hw
        rw [Array.getD_eq_getD_getElem?, Array.getElem?_setIfInBounds]
        split_ifs with heq
        · subst heq
          exact hrest
        · have hw' := h w hw
          rwa [callsBy_cons, if_neg heq, Array.getD_eq_getD_getElem?] at hw')
    rw [hsize] at hperformed
    exact ⟨performed, by simp only [Outcome.run, hperform, hrun], hperformed⟩

end Workers

/-! ## Merging -/

/-- **Merging workers one after the other** adds what each of them holds.

**Proof sketch.** Induction on the merges, of which the first adds what the first worker holds. -/
theorem exists_run_collect {workers : ℕ → ThreadLocal} {held : ℕ → List Sample}
    (hholds : ∀ w, (workers w).collector.Holds (held w)) {a : Aggregator} {l : List Sample}
    (ha : a.collected.Holds l) {merges : List ℕ} (hbound : Bounded (l ++ merges.flatMap held)) :
    ∃ c, Outcome.run (fun (a : Aggregator) w => a.collect (workers w)) a merges = .done ⟨c, a.poisoned⟩ ∧
      c.Holds (l ++ merges.flatMap held) := by
  induction merges generalizing a l with
  | nil => exact ⟨a.collected, rfl, by simpa using ha⟩
  | cons w merges ih =>
    rw [List.flatMap_cons, ← List.append_assoc] at hbound ⊢
    obtain ⟨c, hcollect, hc⟩ := Aggregator.exists_collectFrom ha (hholds w).sumOf_samples hbound.of_append_left
    obtain ⟨c', hrun, hc'⟩ := ih (a := ⟨c, a.poisoned⟩) hc hbound
    have hfirst : a.collect (workers w) = .done ⟨c, a.poisoned⟩ := hcollect
    exact ⟨c', by simp only [Outcome.run, hfirst, hrun], hc'⟩

/-! ## One sum -/

/-- The samples of timed calls all count for the name of the kernel. -/
private lemma total_map_sample (calls : List Call) (key : String × String) :
    total key (calls.map job.sample) =
      if key = (group, job.options.kernel.name) then nanoseconds calls else 0 := by
  induction calls with
  | nil => simp [nanoseconds]
  | cons call calls ih =>
    have hkey : (job.sample call).key = (group, job.options.kernel.name) := rfl
    have helapsed : (job.sample call).elapsed = call.elapsed := rfl
    rw [List.map_cons, total_cons, ih, Sample.share, hkey, helapsed]
    by_cases h : key = (group, job.options.kernel.name)
    · simp [h, nanoseconds]
    · simp [h, Ne.symm h]

/-- Only the name of the kernel has a sum, which is the time of all calls. -/
private lemma sumOf_map_sample {calls : List Call} (hne : calls ≠ []) (key : String × String) :
    sumOf key (calls.map job.sample) =
      if key = (group, job.options.kernel.name) then some (nanoseconds calls) else none := by
  have hmem : key ∈ (calls.map job.sample).map Sample.key ↔ key = (group, job.options.kernel.name) := by
    have hkeys : (calls.map job.sample).map Sample.key =
        List.replicate calls.length (group, job.options.kernel.name) := by
      rw [List.map_map, List.eq_replicate_iff]
      simp [sample, Sample.key]
    rw [hkeys, List.mem_replicate]
    simp [hne]
  rw [sumOf, total_map_sample]
  by_cases h : key = (group, job.options.kernel.name)
  · rw [if_pos (hmem.mpr h), if_pos h, if_pos h]
  · rw [if_neg (mt hmem.mp h), if_neg h]

/-- **A collector that holds the samples of timed calls has one sum.** -/
theorem eq_set_of_holds {c : Collector} {calls : List Call} (hne : calls ≠ [])
    (hc : c.Holds (calls.map job.sample)) {sum : Duration} (hsum : sum.nanoseconds = nanoseconds calls) :
    c = Collector.empty.set group job.options.kernel.name sum := by
  have hset : (Collector.empty.set group job.options.kernel.name sum).Holds (calls.map job.sample) := by
    refine ⟨fun name tag => ?_, Collector.canonical_empty.set _ _ _⟩
    rw [Collector.get?_set, job.sumOf_map_sample hne, ← hsum]
    split_ifs <;> rfl
  exact hc.eq_of_perm hset .rfl

/-! ## The whole run -/

/-- Without timing there are no samples, and without iterations there are no calls. -/
private lemma samples_eq_nil {job : Job} {execution : Execution} (h : execution.Complete job)
    (hnone : job.timing = false ∨ job.options.iterations = 0) : job.samples execution.calls = [] := by
  rcases hnone with htiming | hiterations
  · rw [samples, htiming]
    rfl
  · have hcalls : execution.calls = [] := by
      rw [← List.length_eq_zero_iff, h.length_calls_eq, calls, hiterations, Nat.mul_zero]
    rw [hcalls, samples]
    exact ite_self _

/-- The calls of a worker are a part of all calls. -/
private lemma sublist_callsBy (worker : ℕ) (execution : Execution) :
    (callsBy worker execution.tasks).Sublist execution.calls :=
  List.filter_sublist.flatMap _

/-- **What has been gathered are the samples of all calls.** Each worker gets where its own calls lead, and
gathering merges these workers.

**Proof sketch.** Each worker holds the samples of its calls, which are not more than all calls. Every worker is merged
once, so the merges have the samples of all calls, in another order. What the workers are after the tasks is where
their own calls lead. -/
theorem exists_gather {job : Job} {execution : Execution} (hcomplete : execution.Complete job)
    (hbound : nanoseconds execution.calls < Duration.limit) :
    ∃ (workers : ℕ → ThreadLocal) (c : Collector),
      (∀ w, Outcome.run job.record .fresh (callsBy w execution.tasks) = .done (workers w)) ∧
      Outcome.run (fun (a : Aggregator) w => a.collect (workers w)) .fresh execution.merges = .done ⟨c, false⟩ ∧
      job.gather execution = .done ⟨c, false⟩ ∧ c.Holds (job.samples execution.calls) := by
  have hworkers : ∀ w, ∃ after, Outcome.run job.record .fresh (callsBy w execution.tasks) = .done after ∧
      after.collector.Holds (job.samples (callsBy w execution.tasks)) := by
    intro w
    have hown := job.bounded_samples (sublist_callsBy w execution) hbound
    exact exists_run_record (l := []) rfl Collector.holds_empty hown
  choose workers hrecord hholds using hworkers
  have hperm : (execution.merges.flatMap fun w => job.samples (callsBy w execution.tasks)).Perm
      (job.samples execution.calls) := by
    rw [← samples_flatMap]
    exact job.samples_perm ((hcomplete.merges_perm.flatMap_right _).trans
      (perm_flatMap_callsBy hcomplete.worker_lt))
  obtain ⟨c, hmerge, hc⟩ := exists_run_collect hholds (a := .fresh) (l := []) Collector.holds_empty
    ((job.bounded_samples (List.Sublist.refl _) hbound).perm hperm.symm)
  have hfresh : ∀ w < (Array.replicate execution.workers ThreadLocal.fresh).size,
      Outcome.run job.record ((Array.replicate execution.workers ThreadLocal.fresh).getD w .fresh)
        (callsBy w execution.tasks) = .done (workers w) := by
    intro w hw
    rw [Array.getD_eq_getD_getElem?, Array.getElem?_eq_getElem hw, Array.getElem_replicate, Option.getD_some]
    exact hrecord w
  obtain ⟨performed, hperform, hperformed⟩ :=
    exists_run_perform _ (by simpa using hcomplete.worker_lt) hfresh
  refine ⟨workers, c, hrecord, hmerge, ?_, hc.perm hperm⟩
  rw [gather, hperform]
  refine Eq.trans (Outcome.run_congr fun w hw a => ?_) hmerge
  have hlt : w < execution.workers := List.mem_range.mp (hcomplete.merges_perm.mem_iff.mp hw)
  rw [hperformed w (by simpa using hlt)]

/-- **Every timed call is counted once, whatever the schedule.** Let a pool do the tasks of a run, each on one
of its workers, and let each worker merge its times once in the end, in any order. If all calls together do not
take longer than any duration, then the run does not break off, whether the tasks are done one by one or the
moves of the workers are interleaved, and in both cases the same has been gathered. With timing on and at least
one iteration that is one group with one tag, the name of the kernel; its time is that of all calls together,
and it has the whole of the group unless that time is zero. Otherwise it is nothing.

**Proof sketch.** With timing and at least one iteration there is a call, and a collector that holds the samples of all
calls has their time under the only key. Otherwise it holds no samples, so it is the empty one. -/
theorem counts_every_call_once (job : Job) (execution : Execution) (hcomplete : execution.Complete job)
    (hbound : nanoseconds execution.calls < Duration.limit) (moves : List (ℕ × Move))
    (hmoves : job.Schedule execution.tasks moves) :
    ∃ timers aggregator,
      Outcome.run (Outcome.turn job.move) (fun _ => .begin group job.timing .fresh) moves = .done timers ∧
      Outcome.run (fun (a : Aggregator) w => a.collect (timers w).reporter) .fresh execution.merges =
        .done aggregator ∧
      job.gather execution = .done aggregator ∧
      execution.calls.length = job.calls ∧
      (job.timing = true → 1 ≤ job.options.iterations → ∃ (sum : Duration) (tags : NameMap Duration),
        sum.nanoseconds = nanoseconds execution.calls ∧
        aggregator.snapshot.groups.entries = [(group, tags)] ∧
        tags.entries = [(job.options.kernel.name, sum)] ∧
        aggregator.summary.groups = [⟨group, Binary.sum [sum.millis], [⟨job.options.kernel.name, sum.millis,
          if 0 < sum.nanoseconds then Binary.ofNat 100 else Binary.zero false⟩]⟩]) ∧
      (job.timing = false ∨ job.options.iterations = 0 →
        aggregator.snapshot.isEmpty ∧ aggregator.summary.groups = []) := by
  obtain ⟨workers, c, hrecord, hmerge, hgather, hc⟩ := exists_gather hcomplete hbound
  refine ⟨_, ⟨c, false⟩, hmoves.run_eq hrecord, hmerge, hgather, hcomplete.length_calls_eq, ?_, ?_⟩
  · intro htiming hiterations
    have hne : execution.calls ≠ [] := by
      rw [← List.length_pos_iff, hcomplete.length_calls_eq]
      exact Nat.mul_pos (lt_of_lt_of_le Nat.one_pos (le_max_right _ _)) hiterations
    rw [samples, if_pos htiming] at hc
    let sum : Duration := ⟨nanoseconds execution.calls, hbound⟩
    have hsum : sum.nanoseconds = nanoseconds execution.calls := rfl
    obtain rfl := job.eq_set_of_holds hne hc hsum
    refine ⟨sum, _, hsum, rfl, rfl, ?_⟩
    rw [← percentOf_only_tag]
    rfl
  · intro hnone
    rw [samples_eq_nil hcomplete hnone] at hc
    obtain rfl := hc.eq_of_perm Collector.holds_empty .rfl
    exact ⟨rfl, rfl⟩

/-- Three tasks of two calls by three workers: one worker does two of them, and one does none. The first calls
of the two busy workers overlap, and their timers are dropped in the opposite order. -/
theorem counts_every_call_once_overlapping :
    let clock (n : Fin 31) : Instant := ⟨⟨n.val, n.isLt.trans (by decide)⟩⟩
    let call (started stopped : Fin 31) : Call := ⟨Binary.zero false, clock started, clock stopped⟩
    let job : Job := ⟨{ kernel := .int8, iterations := 2, threads := 3 }, ⟨#[], #[], #[], #[], #[]⟩, true, .avx2⟩
    let execution : Execution :=
      ⟨3, [⟨2, [call 1 4, call 8 9]⟩, ⟨0, [call 2 5, call 8 12]⟩, ⟨0, [call 20 21, call 22 30]⟩],
        .leftToRight 3, [2, 0, 1]⟩
    ∃ aggregator, job.gather execution = .done aggregator ∧
      (aggregator.snapshot.samples.map fun s => (s.group, s.tag, s.elapsed.nanoseconds)) =
        [("dp-bench", "int8", 20)] := by
  intro clock call job execution
  let moves : List (ℕ × Move) :=
    [(0, .begin), (2, .begin), (2, .step (.mark "int8" (clock 1))), (0, .step (.mark "int8" (clock 2))),
      (2, .step (.finish (clock 4))), (0, .step (.finish (clock 5))), (0, .step (.finish (clock 6))),
      (2, .step (.finish (clock 7)))] ++
    (job.moves (call 8 9) (clock 9)).map (2, ·) ++ (job.moves (call 8 12) (clock 12)).map (0, ·) ++
    (job.moves (call 20 21) (clock 21)).map (0, ·) ++ (job.moves (call 22 30) (clock 30)).map (0, ·)
  have hmoves : job.Schedule execution.tasks moves
    | 0 => ⟨[(call 2 5, clock 6), (call 8 12, clock 12), (call 20 21, clock 21), (call 22 30, clock 30)],
        rfl, rfl⟩
    | 1 => ⟨[], rfl, rfl⟩
    | 2 => ⟨[(call 1 4, clock 7), (call 8 9, clock 9)], rfl, rfl⟩
    | _ + 3 => ⟨[], rfl, rfl⟩
  have hcomplete : execution.Complete job := ⟨rfl, by simp [execution, job], by simp [execution], by decide⟩
  obtain ⟨-, aggregator, -, -, hgather, -, hcounted, -⟩ :=
    counts_every_call_once job execution hcomplete (by decide) moves hmoves
  obtain ⟨sum, tags, hsum, hgroups, htags, -⟩ := hcounted rfl (by decide)
  refine ⟨aggregator, hgather, ?_⟩
  simp only [Collector.samples, hgroups, List.flatMap_singleton, htags, List.map_cons, List.map_nil, hsum]
  rfl

end Job

end SparseDot.Bench
