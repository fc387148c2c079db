import Mathlib.Algebra.Order.Ring.Nat
import SparseDot.Bench.Run
import SparseDot.Proofs.Timing.Course

set_option autoImplicit false

/-!
# What workers do

The pool decides which worker takes a task, how the calls of different workers are interleaved, and in which
order the workers merge their times in the end. A worker makes a timer for every call, which reports one sample
when it is finished and nothing more when it is dropped. As workers record into collectors of their own, each of
them gets where its own moves lead, whatever the others do in between.

## Main definitions

* `SparseDot.Timing.Outcome.turn` — a step of one of several parties.
* `SparseDot.Bench.Execution.Complete` — what the pool guarantees.
* `SparseDot.Bench.Move`, `SparseDot.Bench.Job.moves` — what a worker does for a call, step by step.
* `SparseDot.Bench.Job.Schedule` — the moves of all workers in some order.

## Main results

* `SparseDot.Timing.Outcome.run_turn` — each party gets where its own moves lead.
* `SparseDot.Bench.Job.record_eq` — a timed call is one sample.
* `SparseDot.Bench.Job.run_flatMap_moves` — the moves of a worker record each of its calls once.
* `SparseDot.Bench.Job.Schedule.run_eq` — each worker gets where its own calls lead.
-/

namespace SparseDot

namespace Timing.Outcome

/-! ## Runs of several parties -/

section Append

variable {σ α : Type} (step : σ → α → Outcome σ) {s t : σ}

/-- A run over two lists runs over the first one, and from where that gets over the second one. -/
private lemma run_append (s : σ) (l m : List α) : run step s (l ++ m) =
    match run step s l with
    | .done middle => run step middle m
    | .failed f stopped => .failed f stopped := by
  induction l generalizing s with
  | nil => rfl
  | cons item l ih =>
    simp only [List.cons_append, run]
    cases step s item with
    | done next => exact ih next
    | failed f stopped => rfl

variable {step}

/-- A run that gets to the end of two lists gets to the end of the first one. -/
lemma exists_of_run_append {l m : List α} (h : run step s (l ++ m) = .done t) :
    ∃ middle, run step s l = .done middle ∧ run step middle m = .done t := by
  rw [run_append] at h
  cases hrun : run step s l with
  | done middle =>
    rw [hrun] at h
    exact ⟨middle, rfl, h⟩
  | failed f stopped =>
    rw [hrun] at h
    cases h

end Append

/-- Steps that do the same with every item have the same runs. -/
lemma run_congr {σ α : Type} {step step' : σ → α → Outcome σ} {s : σ} {l : List α}
    (h : ∀ a ∈ l, ∀ s, step s a = step' s a) : run step s l = run step' s l := by
  induction l generalizing s with
  | nil => rfl
  | cons a l ih =>
    obtain ⟨ha, hl⟩ := List.forall_mem_cons.mp h
    simp only [run, ha]
    cases step' s a with
    | done next => exact ih hl
    | failed f stopped => rfl

section Turns

variable {σ α ι : Type} [DecidableEq ι]

/-- **A step of one of several parties**, which leaves the others alone. -/
def turn (step : σ → α → Outcome σ) (states : ι → σ) (move : ι × α) : Outcome (ι → σ) :=
  (step (states move.1) move.2).map (Function.update states move.1)

/-- The moves of one party, in their order. -/
def movesOf (i : ι) (moves : List (ι × α)) : List α := (moves.filter fun move => move.1 = i).map Prod.snd

/-- **Each party gets where its own moves lead**, however they are interleaved with those of the others.

**Proof sketch.** Induction on the moves. A move is the first one of its own party, which it takes one step on, and
none of the others. -/
theorem run_turn {step : σ → α → Outcome σ} {states final : ι → σ} {moves : List (ι × α)}
    (h : ∀ i, run step (states i) (movesOf i moves) = .done (final i)) :
    run (turn step) states moves = .done final := by
  induction moves generalizing states with
  | nil => exact congrArg done (funext fun i => done.inj (h i))
  | cons move moves ih =>
    obtain ⟨i, a⟩ := move
    have hown : movesOf i ((i, a) :: moves) = a :: movesOf i moves := by simp [movesOf]
    have hfirst := h i
    rw [hown] at hfirst
    cases hstep : step (states i) a with
    | failed f s =>
      simp only [run, hstep] at hfirst
      cases hfirst
    | done s =>
      simp only [run, hstep] at hfirst
      have hturn : turn step states (i, a) = .done (Function.update states i s) := by
        simp only [turn, hstep, map]
      simp only [run, hturn]
      refine ih fun j => ?_
      rcases eq_or_ne j i with rfl | hne
      · rwa [Function.update_self]
      · have hother : movesOf j ((i, a) :: moves) = movesOf j moves := by simp [movesOf, hne.symm]
        rw [Function.update_of_ne hne, ← hother]
        exact h j

end Turns

end Timing.Outcome

namespace Bench

open Timing

/-! ## Complete executions -/

/-- The time that a call was measured to take. -/
def Call.elapsed (call : Call) : Duration := call.stopped.since call.started

/-- The calls by one worker, in their order. -/
def callsBy (worker : ℕ) (tasks : List Task) : List Call :=
  (tasks.filter fun task => task.worker = worker).flatMap Task.calls

/-- All calls. -/
def Execution.calls (execution : Execution) : List Call := execution.tasks.flatMap Task.calls

/-- **What the pool guarantees**: there is a task for every thread, each was done by one of the workers, and in
the end each worker has merged its times once. -/
structure Execution.Complete (job : Job) (execution : Execution) : Prop where
  /-- There is a task for every thread. -/
  length_tasks : execution.tasks.length = job.threads
  /-- A task makes a call for every iteration. -/
  length_calls : ∀ task ∈ execution.tasks, task.calls.length = job.options.iterations
  /-- Every task was done by one of the workers. -/
  worker_lt : ∀ task ∈ execution.tasks, task.worker < execution.workers
  /-- Every worker has merged its times once, in any order. -/
  merges_perm : execution.merges.Perm (List.range execution.workers)

/-- There are as many calls as are counted. -/
lemma Execution.Complete.length_calls_eq {job : Job} {execution : Execution} (h : execution.Complete job) :
    execution.calls.length = job.calls := by
  have hlengths : (execution.tasks.map fun task => task.calls.length) =
      List.replicate job.threads job.options.iterations := by
    rw [← h.length_tasks, List.eq_replicate_iff]
    exact ⟨List.length_map _, by simpa using h.length_calls⟩
  rw [Execution.calls, List.length_flatMap, hlengths, List.sum_replicate_nat, Job.calls]

/-- The calls of a task are calls of the worker that has done it, and of no other. -/
lemma callsBy_cons (worker : ℕ) (task : Task) (tasks : List Task) :
    callsBy worker (task :: tasks) =
      if task.worker = worker then task.calls ++ callsBy worker tasks else callsBy worker tasks := by
  unfold callsBy
  split_ifs with h <;> simp [h]

/-- The tasks of the first workers.

**Proof sketch.** Induction on the number of workers. The tasks of workers below `n + 1` are those of workers below `n`
and those of worker `n`. -/
private lemma perm_flatMap_filter (tasks : List Task) (n : ℕ) :
    ((List.range n).flatMap fun worker => tasks.filter fun task => task.worker = worker).Perm
      (tasks.filter fun task => task.worker < n) := by
  induction n with
  | zero => simp
  | succ n ih =>
    have hsplit := List.filter_append_perm (fun task : Task => task.worker < n)
      (tasks.filter fun task => task.worker < n + 1)
    have hbelow : (fun task : Task => decide (task.worker < n) && decide (task.worker < n + 1)) =
        fun task => decide (task.worker < n) := by
      funext task
      grind
    have hlast : (fun task : Task => !decide (task.worker < n) && decide (task.worker < n + 1)) =
        fun task => decide (task.worker = n) := by
      funext task
      grind
    rw [List.filter_filter, List.filter_filter, hbelow, hlast] at hsplit
    rw [List.range_succ, List.flatMap_append, List.flatMap_singleton]
    exact (ih.append_right _).trans hsplit

/-- The calls of all workers are all calls. -/
lemma perm_flatMap_callsBy {n : ℕ} {tasks : List Task} (h : ∀ task ∈ tasks, task.worker < n) :
    ((List.range n).flatMap fun worker => callsBy worker tasks).Perm (tasks.flatMap Task.calls) := by
  have hall : (tasks.filter fun task => task.worker < n) = tasks := by
    rw [List.filter_eq_self]
    simpa using h
  have hcalls := (perm_flatMap_filter tasks n).flatMap_right Task.calls
  rwa [hall, List.flatMap_assoc] at hcalls

/-! ## The moves of a worker -/

/-- **A move of a worker.** -/
inductive Move where
  /-- The timer of the next call is made, which reports to the collector of the worker. -/
  | begin
  /-- The timer is marked or finished. -/
  | step (s : StopTimer.Step)

namespace Job

variable (job : Job)

/-- **Makes a move**, with the timer of the latest call and, as its reporter, the collector of the worker. -/
def move (timer : StopTimer ThreadLocal) : Move → Outcome (StopTimer ThreadLocal)
  | .begin => .done (.begin group job.timing timer.reporter)
  | .step s => timer.step s

/-- **The moves of a call**: its timer is marked before the call and finished after it, and once more when the
timer is dropped. -/
def moves (call : Call) (dropped : Instant) : List Move :=
  [.begin, .step (.mark job.options.kernel.name call.started), .step (.finish call.stopped),
    .step (.finish dropped)]

/-- **The moves of all workers in some order**: each worker makes those of its calls, one call after the
other. -/
def Schedule (tasks : List Task) (all : List (ℕ × Move)) : Prop :=
  ∀ worker, ∃ timed : List (Call × Instant), timed.map Prod.fst = callsBy worker tasks ∧
    Outcome.movesOf worker all = timed.flatMap fun (call, dropped) => job.moves call dropped

/-! ## Calls and their samples -/

/-- The sample of a timed call. -/
def sample (call : Call) : Sample := ⟨group, job.options.kernel.name, call.elapsed⟩

/-- A timer that is on reports the time between its mark and its end. -/
private lemma finish_mark (worker : ThreadLocal) (tag : String) (started stopped : Instant) :
    ((StopTimer.begin group true worker).mark tag started).finish stopped =
      match worker.record ⟨group, tag, stopped.since started⟩ with
      | .done after => .done (.begin group true after)
      | .failed f after => .failed f ⟨group, true, [⟨started, tag⟩, ⟨stopped, StopTimer.endTag⟩], after⟩ := by
  have hmark : (StopTimer.begin group true worker).mark tag started =
    ⟨group, true, [⟨started, tag⟩], worker⟩ := rfl
  have hintervals : intervals group [⟨started, tag⟩, ⟨stopped, StopTimer.endTag⟩] =
    [⟨group, tag, stopped.since started⟩] := rfl
  have hreport : Reporter.report worker ⟨group, tag, stopped.since started⟩ =
    worker.record ⟨group, tag, stopped.since started⟩ := rfl
  rw [hmark, StopTimer.finish_of_enabled rfl]
  simp only [List.singleton_append, hintervals, Outcome.run, hreport]
  cases worker.record ⟨group, tag, stopped.since started⟩ <;> rfl

section Record

variable {job} {worker after : ThreadLocal} {call : Call}

/-- **A timed call is one sample** for the collector of the worker. -/
theorem record_eq (job : Job) (worker : ThreadLocal) (call : Call) :
    job.record worker call = if job.timing then worker.record (job.sample call) else .done worker := by
  unfold record
  cases job.timing with
  | false => rfl
  | true =>
    dsimp only
    rw [finish_mark, if_pos rfl, sample, Call.elapsed]
    cases worker.record _ <;> rfl

/-- The timer of a call has nothing open once it has been finished. -/
private lemma finish_of_record (h : job.record worker call = .done after) :
    ((StopTimer.begin group job.timing worker).mark job.options.kernel.name call.started).finish call.stopped =
      .done (.begin group job.timing after) := by
  rw [record_eq] at h
  cases htiming : job.timing with
  | false =>
    rw [htiming] at h
    obtain rfl := Outcome.done.inj h
    rfl
  | true =>
    have hrecord : worker.record ⟨group, job.options.kernel.name, call.stopped.since call.started⟩ =
      .done after := by rwa [htiming] at h
    rw [finish_mark, hrecord]

/-- **The moves of a call record it once**: dropping the timer reports nothing more.

**Proof sketch.** Finishing the timer records the call and leaves nothing open, so that there is nothing to report when
the timer is dropped. -/
theorem run_moves (h : job.record worker call = .done after) (dropped : Instant) :
    Outcome.run job.move (.begin group job.timing worker) (job.moves call dropped) =
      .done (.begin group job.timing after) := by
  have hfinish := finish_of_record h
  have hdrop : (StopTimer.begin group job.timing after).finish dropped =
    .done (.begin group job.timing after) := StopTimer.finish_of_pending_eq_zero rfl dropped
  have hreporter : (StopTimer.begin group job.timing worker).reporter = worker := rfl
  simp only [moves, Outcome.run, move, StopTimer.step, hreporter, hfinish, hdrop]

/-- **The moves of calls that follow each other** record each of them once.

**Proof sketch.** Induction on the calls. The timer of the next call has the collector that the call before it has
left. -/
theorem run_flatMap_moves {timed : List (Call × Instant)}
    (h : Outcome.run job.record worker (timed.map Prod.fst) = .done after) :
    Outcome.run job.move (.begin group job.timing worker)
      (timed.flatMap fun (call, dropped) => job.moves call dropped) =
        .done (.begin group job.timing after) := by
  induction timed generalizing worker with
  | nil =>
    obtain rfl := Outcome.done.inj h
    rfl
  | cons first timed ih =>
    simp only [List.map_cons, Outcome.run] at h
    cases hrecord : job.record worker first.1 with
    | done next =>
      simp only [hrecord] at h
      rw [List.flatMap_cons, Outcome.run_append, run_moves hrecord]
      exact ih h
    | failed f stopped => simp only [hrecord, reduceCtorEq] at h

/-- **Each worker gets where its own calls lead**, however the moves of the workers are interleaved. -/
theorem Schedule.run_eq {tasks : List Task} {all : List (ℕ × Move)} (hall : job.Schedule tasks all)
    {workers : ℕ → ThreadLocal}
    (h : ∀ w, Outcome.run job.record .fresh (callsBy w tasks) = .done (workers w)) :
    Outcome.run (Outcome.turn job.move) (fun _ => .begin group job.timing .fresh) all =
      .done fun w => .begin group job.timing (workers w) := by
  refine Outcome.run_turn fun w => ?_
  obtain ⟨timed, hcalls, hown⟩ := hall w
  rw [hown]
  exact run_flatMap_moves (hcalls ▸ h w)

end Record

end Job

end Bench

end SparseDot
