import Mathlib.Data.List.Induction
import Mathlib.Logic.Function.Basic
import Mathlib.Tactic.SplitIfs
import SparseDot.Timing.Aggregator

set_option autoImplicit false

/-!
# Threads that share an aggregator

Threads run programs of calls side by side. A thread's own collector is its own, and the aggregator is behind
a lock: who needs the lock while another thread has it waits. A merge takes the lock, then adds one sum after
the other, and then gives the lock back, and all the while other threads go on with what does not need the
lock. A scheduler that may do anything chooses which thread makes the next move.

Whatever it chooses, the threads come to the same memory, and see the same, as if every call was done at once
at the moment when it began, or took the lock if it needs it. This is so for merges that stop with a fault as
well.

## Main definitions

* `SparseDot.Timing.Threads.Action` — what a thread can call.
* `SparseDot.Timing.Threads.Memory.perform` — a call that is done at once.
* `SparseDot.Timing.Threads.System`, `SparseDot.Timing.Threads.System.turn` — threads that run side by side,
  and a move of one of them.
* `SparseDot.Timing.Threads.run` — the moves that a scheduler chooses.
* `SparseDot.Timing.Threads.replay` — a history of calls, each done at once.

## Main results

* `SparseDot.Timing.Threads.linear_run` — running side by side is like doing one call after the other.
-/

namespace SparseDot.Timing

/-! ## Merging sum by sum -/

/-- **Sums are added to what an aggregator has merged**, one by one, up to the first fault. -/
def Aggregator.mergeSamples (a : Aggregator) (l : List Sample) : Outcome Aggregator :=
  match Outcome.run Collector.add a.lock l with
  | .done merged => .done ⟨merged, a.poisoned⟩
  | .failed f merged => .failed f ⟨merged, true⟩

/-- The first sum is added before the others. -/
private lemma Aggregator.mergeSamples_cons (a : Aggregator) (s : Sample) (l : List Sample) :
    a.mergeSamples (s :: l) =
      match a.lock.add s with
      | .done merged => Aggregator.mergeSamples ⟨merged, a.poisoned⟩ l
      | .failed f merged => .failed f ⟨merged, true⟩ := by
  simp only [mergeSamples, lock_eq, Outcome.run]
  cases a.collected.add s <;> rfl

namespace Threads

/-! ## Calls that are done at once -/

/-- **What a thread can call.** -/
inductive Action where
  /-- Adds a sample to the thread's own collector. -/
  | record (sample : Sample)
  /-- Forgets the sums of the thread's own collector. -/
  | resetOwn
  /-- Looks at the thread's own collector. -/
  | own
  /-- Merges the thread's own collector into the aggregator. -/
  | collect
  /-- Merges some collector into the aggregator. -/
  | collectFrom (source : Collector)
  /-- Looks at what the aggregator has merged. -/
  | snapshot
  /-- Forgets what the aggregator has merged. -/
  | reset

namespace Action

/-- Whether a call needs the lock of the aggregator. -/
def locks : Action → Bool
  | record _ | resetOwn | own => false
  | collect | collectFrom _ | snapshot | reset => true

/-- The collector that a call merges, if it is one that merges. -/
def source? (l : ThreadLocal) : Action → Option Collector
  | collect => some l.collector
  | collectFrom source => some source
  | record _ | resetOwn | own | snapshot | reset => none

/-- A call that merges needs the lock. -/
private lemma locks_of_source {l : ThreadLocal} {action : Action} {source : Collector}
    (h : action.source? l = some source) : action.locks = true := by
  cases action <;> first | rfl | cases h

end Action

/-- **The memory of the threads** `ι`. -/
structure Memory (ι : Type) where
  /-- The collectors of the threads. -/
  own : ι → ThreadLocal
  /-- The faults at which threads have stopped. -/
  stopped : ι → Option Fault
  /-- The aggregator that they share. -/
  aggregator : Aggregator

variable {ι : Type} [DecidableEq ι]

namespace Memory

/-- The memory at the start. -/
def fresh : Memory ι := ⟨fun _ => .fresh, fun _ => none, .fresh⟩

variable (m : Memory ι) (i : ι)

/-- A thread changes its own collector. -/
def changeOwn (f : ThreadLocal → Outcome ThreadLocal) : Memory ι :=
  { m with
    own := Function.update m.own i (f (m.own i)).state
    stopped := Function.update m.stopped i (f (m.own i)).fault? }

/-- A thread changes the aggregator. -/
def changeAggregator (f : Aggregator → Outcome Aggregator) : Memory ι :=
  { m with
    stopped := Function.update m.stopped i (f m.aggregator).fault?
    aggregator := (f m.aggregator).state }

/-- **A call that is done at once.** -/
def perform : Action → Memory ι
  | .record sample => m.changeOwn i fun l => l.record sample
  | .resetOwn => m.changeOwn i fun l => l.reset
  | .own => m
  | .collect => m.changeAggregator i fun a => a.collect (m.own i)
  | .collectFrom source => m.changeAggregator i fun a => a.collectFrom source
  | .snapshot => m
  | .reset => m.changeAggregator i fun a => .done a.reset

/-- The collector that a call reads: the thread's own, or the aggregator's. -/
def shown : Action → Option Collector
  | .own | .collect => some (m.own i).collector
  | .snapshot => some m.aggregator.snapshot
  | .record _ | .resetOwn | .collectFrom _ | .reset => none

end Memory

/-! ## Calls side by side -/

/-- **A call of a thread**, with the collector that it has read if it reads one. -/
structure Event (ι : Type) where
  thread : ι
  action : Action
  seen : Option Collector

/-- **The thread that has the lock for a merge**, with the sums that it has not added yet. -/
structure Holder (ι : Type) where
  thread : ι
  rest : List Sample

/-- **Threads that run side by side.** -/
structure System (ι : Type) where
  /-- The collectors of the threads and the aggregator. -/
  memory : Memory ι
  /-- The calls that the threads have not begun. -/
  todo : ι → List Action
  /-- Who has the lock, between two moves. -/
  holder : Option (Holder ι)
  /-- The calls that were begun, in the order in which they were, or in which they took the lock. The latest
  one is the first. -/
  history : List (Event ι)

/-- The calls of a thread in a history. -/
def actionsOf (i : ι) (history : List (Event ι)) : List Action :=
  (history.filter fun e => e.thread = i).map Event.action

namespace System

/-- **Threads at the start of their programs.** -/
def start (programs : ι → List Action) : System ι := ⟨.fresh, programs, none, []⟩

variable (s : System ι)

/-- A thread begins a call. A merge takes the lock for its further moves, all other calls are over. -/
def begin (i : ι) (action : Action) (rest : List Action) : System ι :=
  let event : Event ι := ⟨i, action, s.memory.shown i action⟩
  match action.source? (s.memory.own i) with
  | some source =>
    { s with
      todo := Function.update s.todo i rest
      holder := some ⟨i, source.samples⟩
      history := event :: s.history }
  | none =>
    { s with
      memory := s.memory.perform i action
      todo := Function.update s.todo i rest
      history := event :: s.history }

/-- The next call of a thread, which it does not begin while it would have to wait for the lock. -/
def next (i : ι) : System ι :=
  match s.todo i with
  | [] => s
  | action :: rest => if action.locks && s.holder.isSome then s else s.begin i action rest

/-- The thread that has the lock adds one more sum, or gives the lock back after the last one. If the sum
gets too long then the thread stops, and its lock is given back poisoned. -/
def proceed (h : Holder ι) : System ι :=
  match h.rest with
  | [] => { s with holder := none }
  | sample :: rest =>
    match s.memory.aggregator.lock.add sample with
    | .done merged =>
      { s with
        memory := { s.memory with aggregator := ⟨merged, s.memory.aggregator.poisoned⟩ }
        holder := some ⟨h.thread, rest⟩ }
    | .failed fault merged =>
      { s with
        memory := ⟨s.memory.own, Function.update s.memory.stopped h.thread (some fault), ⟨merged, true⟩⟩
        holder := none }

/-- **A move of a thread.** It goes on with its merge if it has the lock, and with its next call otherwise,
unless it has stopped. -/
def turn (i : ι) : System ι :=
  match s.memory.stopped i, s.holder with
  | some _, _ => s
  | none, none => s.next i
  | none, some h => if h.thread = i then s.proceed h else s.next i

/-- All threads are at the end of their programs. -/
def Finished : Prop := s.holder = none ∧ ∀ i, s.todo i = []

end System

/-- **The threads run side by side**, the next move being always that of the next thread in the schedule. -/
def run (programs : ι → List Action) (schedule : List ι) : System ι :=
  schedule.foldl System.turn (.start programs)

/-! ## One call after the other -/

/-- **The memory after a history of calls**, each of them done at once. The latest one is the first. -/
def replay : List (Event ι) → Memory ι
  | [] => .fresh
  | e :: earlier => (replay earlier).perform e.thread e.action

/-- The collectors that were read are those that are read when each call is done at once. -/
def Faithful : List (Event ι) → Prop
  | [] => True
  | e :: earlier => e.seen = (replay earlier).shown e.thread e.action ∧ Faithful earlier

/-- A merging call adds the sums of its source. -/
private lemma Memory.perform_of_source {m : Memory ι} {i : ι} {action : Action} {source : Collector}
    (h : action.source? (m.own i) = some source) :
    m.perform i action = m.changeAggregator i fun a => a.mergeSamples source.samples := by
  cases action <;> cases h <;> rfl

/-- A call without the lock does not mind a merge of another thread that is under way. -/
private lemma Memory.perform_changeAggregator (m : Memory ι) {i j : ι} (hne : i ≠ j) {action : Action}
    (hlocks : action.locks = false) (f : Aggregator → Outcome Aggregator) :
    (m.changeAggregator j f).perform i action = (m.perform i action).changeAggregator j f := by
  cases action with
  | record sample =>
    simp only [perform, changeOwn, changeAggregator, Function.update_comm hne]
  | resetOwn =>
    simp only [perform, changeOwn, changeAggregator, Function.update_comm hne]
  | own => rfl
  | collect | collectFrom | snapshot | reset => cases hlocks

/-- A call without the lock reads the same while a merge of another thread is under way. -/
private lemma Memory.shown_changeAggregator (m : Memory ι) (i j : ι) {action : Action}
    (hlocks : action.locks = false) (f : Aggregator → Outcome Aggregator) :
    (m.changeAggregator j f).shown i action = m.shown i action := by
  cases action with
  | record | resetOwn | own => rfl
  | collect | collectFrom | snapshot | reset => cases hlocks

/-- A call that does not merge lets threads go on that have not stopped, unless it is their own. -/
private lemma Memory.stopped_perform (m : Memory ι) {i j : ι} (hne : j ≠ i) (action : Action) :
    (m.perform i action).stopped j = m.stopped j := by
  cases action <;> simp [perform, changeOwn, changeAggregator, hne]

/-- A call is one more call of its own thread, and of no other. -/
lemma actionsOf_cons (i : ι) (e : Event ι) (history : List (Event ι)) :
    actionsOf i (e :: history) =
      if e.thread = i then e.action :: actionsOf i history else actionsOf i history := by
  unfold actionsOf
  split_ifs with h <;> simp [h]

/-- **The memory once the merge that is under way is over.** -/
def System.settled (s : System ι) : Memory ι :=
  match s.holder with
  | none => s.memory
  | some h => s.memory.changeAggregator h.thread fun a => a.mergeSamples h.rest

/-- **Threads that run side by side have done one call after the other.** -/
structure Linear (programs : ι → List Action) (s : System ι) : Prop where
  /-- Once the merge that is under way is over, the memory is that after the history. -/
  settled_eq : s.settled = replay s.history
  /-- The threads have read what they read when they do one call after the other. -/
  faithful : Faithful s.history
  /-- Every thread has begun the first calls of its program. -/
  program : ∀ i, (actionsOf i s.history).reverse ++ s.todo i = programs i
  /-- A thread that has stopped does not have the lock. -/
  runs : ∀ h, s.holder = some h → s.memory.stopped h.thread = none

section Linear

variable {programs : ι → List Action} {s : System ι} {i : ι}

/-- Threads at the start have made no calls. -/
private lemma linear_start (programs : ι → List Action) : Linear programs (.start programs) :=
  ⟨rfl, trivial, fun _ => rfl, fun _ h => nomatch h⟩

/-- While nobody has the lock, the memory is that after the history. -/
lemma Linear.memory_eq (h : Linear programs s) (hfree : s.holder = none) : s.memory = replay s.history := by
  have hsettled := h.settled_eq
  rwa [System.settled, hfree] at hsettled

/-- A thread that begins its next call has begun the first calls of its program. -/
private lemma Linear.program_begin (h : Linear programs s) {action : Action} {rest : List Action}
    (htodo : s.todo i = action :: rest) (seen : Option Collector) (j : ι) :
    (actionsOf j (⟨i, action, seen⟩ :: s.history)).reverse ++ Function.update s.todo i rest j = programs j := by
  rw [← h.program j, actionsOf_cons]
  by_cases hj : i = j
  · subst hj
    simp [htodo]
  · simp [hj, Ne.symm hj]

/-- One more call is begun, which waits for no lock.

**Proof sketch.** If nobody has the lock then the memory is settled, and the call does to it what it does to the memory
after the history; a merge is what is under way from now on. If another thread has the lock then the call needs none,
and it does not mind whether that merge is already over. -/
lemma Linear.begin (h : Linear programs s) {action : Action} {rest : List Action}
    (htodo : s.todo i = action :: rest) (hruns : s.memory.stopped i = none)
    (hlock : ∀ holder, s.holder = some holder → i ≠ holder.thread ∧ action.locks = false) :
    Linear programs (s.begin i action rest) := by
  have hshown : s.memory.shown i action = (replay s.history).shown i action := by
    rw [← h.settled_eq]
    unfold System.settled
    cases hholder : s.holder with
    | none => rfl
    | some holder => exact (s.memory.shown_changeAggregator i holder.thread (hlock holder hholder).2 _).symm
  have hprogram := h.program_begin htodo (s.memory.shown i action)
  unfold System.begin
  cases hsource : action.source? (s.memory.own i) with
  | some source =>
    -- a merge takes the lock, so nobody has it
    have hfree : s.holder = none := by
      cases hholder : s.holder with
      | none => rfl
      | some holder =>
        have hlocks := (hlock holder hholder).2
        rw [Action.locks_of_source hsource] at hlocks
        cases hlocks
    refine ⟨?_, ⟨hshown, h.faithful⟩, hprogram, ?_⟩
    · rw [replay, ← h.memory_eq hfree, Memory.perform_of_source hsource]
      rfl
    · rintro holder ⟨⟩
      exact hruns
  | none =>
    refine ⟨?_, ⟨hshown, h.faithful⟩, hprogram, ?_⟩
    · rw [replay, ← h.settled_eq]
      unfold System.settled
      cases hholder : s.holder with
      | none => rfl
      | some holder =>
        obtain ⟨hne, hlocks⟩ := hlock holder hholder
        exact (s.memory.perform_changeAggregator hne hlocks _).symm
    · intro holder hholder
      rw [s.memory.stopped_perform (hlock holder hholder).1.symm]
      exact h.runs holder hholder

/-- One more sum is added, or the lock is given back.

**Proof sketch.** What is still to come of a merge begins with the next sum, so that the memory once the merge is over
is the same before and after it is added. -/
private lemma Linear.proceed (h : Linear programs s) {holder : Holder ι} (hholder : s.holder = some holder) :
    Linear programs (s.proceed holder) := by
  have hruns := h.runs holder hholder
  have hsettled := h.settled_eq
  rw [System.settled, hholder] at hsettled
  unfold System.proceed
  cases hrest : holder.rest with
  | nil =>
    refine ⟨hsettled ▸ ?_, h.faithful, h.program, fun _ h => nomatch h⟩
    simp [System.settled, Memory.changeAggregator, Aggregator.mergeSamples, Outcome.run, hrest,
      Outcome.state, Outcome.fault?, ← hruns]
  | cons sample rest =>
    simp only [hrest, Memory.changeAggregator, Aggregator.mergeSamples_cons] at hsettled
    cases hadd : s.memory.aggregator.lock.add sample with
    | done merged =>
      simp only [hadd] at hsettled ⊢
      refine ⟨hsettled, h.faithful, h.program, ?_⟩
      rintro _ ⟨⟩
      exact hruns
    | failed fault merged =>
      simp only [hadd] at hsettled ⊢
      exact ⟨hsettled, h.faithful, h.program, fun _ h => nomatch h⟩

/-- **A move of a thread.**

**Proof sketch.** A thread that has the lock goes on with its merge. Any other thread begins its next call, and if
somebody has the lock then only a call that needs none. -/
theorem Linear.turn (h : Linear programs s) (i : ι) : Linear programs (s.turn i) := by
  unfold System.turn
  cases hstopped : s.memory.stopped i with
  | some fault => exact h
  | none =>
    -- the next call of a thread that does not have the lock
    have hnext : (∀ holder, s.holder = some holder → i ≠ holder.thread) → Linear programs (s.next i) := by
      intro hne
      unfold System.next
      cases htodo : s.todo i with
      | nil => exact h
      | cons action rest =>
        simp only
        split_ifs with hwait
        · exact h
        · refine h.begin htodo hstopped fun holder hholder => ⟨hne holder hholder, ?_⟩
          simpa [hholder] using hwait
    cases hholder : s.holder with
    | none => exact hnext fun holder h => nomatch hholder.symm.trans h
    | some holder =>
      simp only
      split_ifs with hthread
      · exact h.proceed hholder
      · refine hnext fun other h => ?_
        obtain rfl := Option.some.inj (hholder.symm.trans h)
        exact Ne.symm hthread

/-- **Running side by side is like doing one call after the other**, whatever the schedule is: the threads
have done the first calls of their programs in the order of the history, with the same faults and the same
memory, up to a merge that is under way, and have read the same.

**Proof sketch.** Induction on the schedule, from its end: a move keeps to the invariant. -/
theorem linear_run (programs : ι → List Action) (schedule : List ι) :
    Linear programs (run programs schedule) := by
  unfold run
  -- the latest move is the last one of the schedule
  induction schedule using List.reverseRec with
  | nil => exact linear_start programs
  | append_singleton schedule i ih =>
    rw [List.foldl_append]
    exact ih.turn i

/-- No thread has stopped if none has when it does one call after the other. -/
lemma Linear.stopped_eq_none (h : Linear programs s) (hreplay : ∀ j, (replay s.history).stopped j = none)
    (i : ι) : s.memory.stopped i = none := by
  have hi := hreplay i
  rw [← h.settled_eq, System.settled] at hi
  cases hholder : s.holder with
  | none => simpa [hholder] using hi
  | some holder =>
    by_cases hthread : i = holder.thread
    · exact hthread ▸ h.runs holder hholder
    · simpa [hholder, Memory.changeAggregator, hthread] using hi

end Linear

end Threads

end SparseDot.Timing
