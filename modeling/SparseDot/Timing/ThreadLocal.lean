import SparseDot.Timing.Collector

set_option autoImplicit false

/-!
# The collector of a thread

Every thread has a collector of its own, which it can change only while it is not reading it.

## Main definitions

* `SparseDot.Timing.ThreadLocal` — a collector with the number of its readers.
* `SparseDot.Timing.ThreadLocal.record`, `SparseDot.Timing.ThreadLocal.reset` — changing it.
* `SparseDot.Timing.ThreadLocal.reading` — doing something while reading it.
-/

namespace SparseDot.Timing

/-- **A thread's own collector.** -/
structure ThreadLocal where
  /-- The sums of the thread. -/
  collector : Collector
  /-- How many readers hold it at the moment. -/
  readers : Nat
  deriving DecidableEq

namespace ThreadLocal

/-- The collector of a new thread. -/
def fresh : ThreadLocal := ⟨.empty, 0⟩

instance : Inhabited ThreadLocal := ⟨fresh⟩

variable (l : ThreadLocal)

/-- Changes the collector, which is a fault while somebody reads it. -/
def change (f : Collector → Outcome Collector) : Outcome ThreadLocal :=
  if l.readers = 0 then (f l.collector).map fun c => ⟨c, 0⟩ else .failed .beingRead l

/-- **Adds a sample to the thread's sums.** -/
def record (s : Sample) : Outcome ThreadLocal := l.change fun c => c.add s

/-- Forgets the thread's sums. -/
def reset : Outcome ThreadLocal := l.change fun _ => .done .empty

/-- **Does something while reading the collector.** The reader is gone afterwards, also if that stopped. -/
def reading (body : ThreadLocal → Outcome ThreadLocal) : Outcome ThreadLocal :=
  (body ⟨l.collector, l.readers + 1⟩).map fun after => ⟨after.collector, after.readers - 1⟩

end ThreadLocal

end SparseDot.Timing
