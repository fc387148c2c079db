import SparseDot.Numeric.Binary.Arithmetic

set_option autoImplicit false

/-!
# Durations and instants

A duration is a whole number of nanoseconds, so long that its seconds fit into 64 bits. An instant is the
time that has passed since the origin of a clock. Only when they are shown do durations become floating
point numbers, of milliseconds.

## Main definitions

* `SparseDot.Timing.Duration` — durations.
* `SparseDot.Timing.Duration.add?` — the sum, if it is not too long.
* `SparseDot.Timing.Duration.millis` — milliseconds in double precision.
* `SparseDot.Timing.Instant`, `SparseDot.Timing.Instant.since` — instants, and the time between two.
-/

namespace SparseDot.Timing

/-- The number of nanoseconds in a second. -/
def nanosPerSecond : Nat := 1000000000

/-- The first number of nanoseconds that is too long for a duration. -/
def Duration.limit : Nat := UInt64.size * nanosPerSecond

/-- **A duration**, in nanoseconds. -/
structure Duration where
  /-- The number of nanoseconds. -/
  nanoseconds : Nat
  /-- The seconds fit into 64 bits. -/
  bounded : nanoseconds < Duration.limit
  deriving DecidableEq

namespace Duration

/-- No time. -/
def zero : Duration := ⟨0, by decide⟩

instance : Inhabited Duration := ⟨zero⟩

/-- The duration of that many nanoseconds, if there is one. -/
def ofNanoseconds? (n : Nat) : Option Duration :=
  if bounded : n < limit then some ⟨n, bounded⟩ else none

/-- The duration of seconds and further nanoseconds, if there is one. -/
def ofParts? (seconds nanos : Nat) : Option Duration := ofNanoseconds? (seconds * nanosPerSecond + nanos)

/-- The whole seconds. -/
def seconds (d : Duration) : Nat := d.nanoseconds / nanosPerSecond

/-- The nanoseconds behind the whole seconds. -/
def subsecond (d : Duration) : Nat := d.nanoseconds % nanosPerSecond

/-- Whether no time passes. -/
def isZero (d : Duration) : Bool := d.nanoseconds == 0

/-- **The sum of two durations**, if it is not too long for one. -/
def add? (d e : Duration) : Option Duration := ofNanoseconds? (d.nanoseconds + e.nanoseconds)

/-- What is left of a duration after another; nothing if that is the longer one. -/
def sub (d e : Duration) : Duration :=
  ⟨d.nanoseconds - e.nanoseconds, Nat.lt_of_le_of_lt (Nat.sub_le ..) d.bounded⟩

/-- Seconds in double precision: the whole seconds, and the rest as a fraction, each rounded. -/
def inSeconds (d : Duration) : Binary64 :=
  Binary.ofNat d.seconds + Binary.ofNat d.subsecond / Binary.ofNat nanosPerSecond

/-- **Milliseconds in double precision.** -/
def millis (d : Duration) : Binary64 := d.inSeconds * Binary.ofNat 1000

/-- A sum is a duration exactly if it stays below the limit, and then it is exact. -/
theorem add?_eq_some_iff {d e sum : Duration} :
    d.add? e = some sum ↔ d.nanoseconds + e.nanoseconds = sum.nanoseconds := by
  obtain ⟨n, hn⟩ := sum
  unfold add? ofNanoseconds?
  split
  · simp
  · simp only [reduceCtorEq, false_iff]
    omega

end Duration

/-- **A point in time**, as the time since the origin of the clock. -/
structure Instant where
  /-- The time since the origin. -/
  sinceOrigin : Duration
  deriving DecidableEq

/-- The origin of the clock. -/
def Instant.origin : Instant := ⟨.zero⟩

/-- **The time from one instant to a later one**; none if the other is not later. -/
def Instant.since (later earlier : Instant) : Duration := later.sinceOrigin.sub earlier.sinceOrigin

end SparseDot.Timing
