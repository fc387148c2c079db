import SparseDot.Timing.Log

set_option autoImplicit false

/-!
# Timers and deadlines

A timer measures one scope and logs the time when the scope ends. It is inert unless timing is on: it takes
no instant and logs nothing. A deadline is always active.

## Main definitions

* `SparseDot.Timing.Timer` — a timer.
* `SparseDot.Timing.Deadline` — a time budget.
-/

namespace SparseDot.Timing

/-- **A timer of one scope.** -/
structure Timer where
  /-- What is timed. -/
  tag : String
  /-- The number of units of work in the scope; with none, no average is logged. -/
  count : Nat
  /-- When the scope began; none if timing is off. -/
  start : Option Instant

namespace Timer

/-- The timer of a scope that begins now. -/
def begin (tag : String) (count : Nat) (enabled : Bool) (now : Instant) : Timer :=
  ⟨tag, count, if enabled then some now else none⟩

variable (t : Timer)

/-- Whether the timer measures anything. -/
def isEnabled : Bool := t.start.isSome

/-- The time since the scope began; none if timing is off. -/
def elapsed (now : Instant) : Duration :=
  match t.start with
  | some start => now.since start
  | none => .zero

/-- The time since the scope began, in milliseconds. -/
def elapsedMillis (now : Instant) : Binary64 := (t.elapsed now).millis

/-- **The line that is logged when the scope ends**, if timing is on. -/
def finish (now : Instant) : Option LogLine :=
  if t.isEnabled then some ⟨.info, timingLine t.tag (t.elapsedMillis now) t.count⟩ else none

end Timer

/-- **A time budget.** A budget of no time never runs out. -/
structure Deadline where
  start : Instant
  budget : Duration

namespace Deadline

variable (d : Deadline)

/-- Whether the budget has run out. -/
def isTimeUp (now : Instant) : Bool :=
  !d.budget.isZero && decide (d.budget.nanoseconds ≤ (now.since d.start).nanoseconds)

/-- What is left of the budget, if it can run out at all. -/
def remaining (now : Instant) : Option Duration :=
  if d.budget.isZero then none else some (d.budget.sub (now.since d.start))

end Deadline

end SparseDot.Timing
