import SparseDot.Timing.Report
import SparseDot.Timing.ThreadLocal

set_option autoImplicit false

/-!
# Aggregators

An aggregator is a collector behind a lock, into which threads merge their own. A thread that stops with
the lock in its hands poisons it. Taking a poisoned lock gives an error that has the collector in it, and the
aggregator goes on working with that.

## Main definitions

* `SparseDot.Timing.Aggregator` — the collector and the state of its lock.
* `SparseDot.Timing.Aggregator.acquire`, `SparseDot.Timing.Aggregator.lock` — taking the lock, and going on
  when it is poisoned.
* `SparseDot.Timing.Aggregator.collectFrom`, `SparseDot.Timing.Aggregator.collect` — merging a collector,
  and a thread's own.
* `SparseDot.Timing.Aggregator.snapshot`, `SparseDot.Timing.Aggregator.summary` — what has been merged.
-/

namespace SparseDot.Timing

/-- **A collector behind a lock.** -/
structure Aggregator where
  /-- What has been merged. -/
  collected : Collector
  /-- Whether a thread has stopped while it held the lock. -/
  poisoned : Bool
  deriving DecidableEq

/-- **The error of taking a poisoned lock.** -/
structure PoisonError where
  /-- What is behind the lock, as the thread that stopped has left it. -/
  inner : Collector
  deriving DecidableEq

namespace Aggregator

/-- A new aggregator. -/
def fresh : Aggregator := ⟨.empty, false⟩

instance : Inhabited Aggregator := ⟨fresh⟩

variable (a : Aggregator)

/-- Takes the lock, which is an error if it is poisoned. -/
def acquire : Except PoisonError Collector := if a.poisoned then .error ⟨a.collected⟩ else .ok a.collected

/-- **The collector behind the lock.** If the lock is poisoned, it is the one in the error. -/
def lock : Collector :=
  match a.acquire with
  | .ok collected => collected
  | .error poison => poison.inner

/-- A poisoned lock hands out the same collector as another one. -/
@[simp] theorem lock_eq : a.lock = a.collected := by
  obtain ⟨collected, poisoned⟩ := a
  cases poisoned <;> rfl

/-- **Merges a collector.** A merge that stops leaves what it has merged, and poisons the lock. -/
def collectFrom (c : Collector) : Outcome Aggregator :=
  match a.lock.merge c with
  | .done merged => .done ⟨merged, a.poisoned⟩
  | .failed f merged => .failed f ⟨merged, true⟩

section CollectFrom

variable {a} {c merged : Collector}

/-- A merge that gets to its end leaves the lock as it was. -/
theorem collectFrom_of_done (h : a.collected.merge c = .done merged) :
    a.collectFrom c = .done ⟨merged, a.poisoned⟩ := by
  rw [collectFrom, lock_eq, h]

/-- A merge that stops leaves the lock poisoned. -/
theorem collectFrom_of_failed {f : Fault} (h : a.collected.merge c = .failed f merged) :
    a.collectFrom c = .failed f ⟨merged, true⟩ := by
  rw [collectFrom, lock_eq, h]

/-- Merging into an aggregator leaves what merging into its collector leaves. -/
theorem collected_state_collectFrom (a : Aggregator) (c : Collector) :
    (a.collectFrom c).state.collected = (a.collected.merge c).state := by
  rw [collectFrom, lock_eq]
  cases a.collected.merge c <;> rfl

/-- Merging into an aggregator stops where merging into its collector does. -/
theorem fault?_collectFrom (a : Aggregator) (c : Collector) :
    (a.collectFrom c).fault? = (a.collected.merge c).fault? := by
  rw [collectFrom, lock_eq]
  cases a.collected.merge c <;> rfl

end CollectFrom

/-- **Merges the collector of a thread**, which keeps its sums. -/
def collect (l : ThreadLocal) : Outcome Aggregator := a.collectFrom l.collector

/-- What has been merged. -/
def snapshot : Collector := a.lock

/-- What has been merged is the collector, in whatever state its lock is. -/
theorem snapshot_eq : a.snapshot = a.collected := a.lock_eq

/-- Forgets what has been merged. -/
def reset : Aggregator := ⟨.empty, a.poisoned⟩

/-- **The report of what has been merged.** -/
def summary : TimingReport := a.snapshot.report

end Aggregator

end SparseDot.Timing
