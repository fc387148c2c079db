import SparseDot.Timing.Reporter

set_option autoImplicit false

/-!
# Stop timers

A stop timer measures the segments of a longer course. Every mark opens an interval under its tag, which runs
until the next mark; finishing the course closes the last one and reports them all.

## Main definitions

* `SparseDot.Timing.Stop` — an instant with the tag of the interval that it opens.
* `SparseDot.Timing.StopTimer` — the marks so far, and the reporter.
* `SparseDot.Timing.StopTimer.mark`, `SparseDot.Timing.StopTimer.finish` — one more mark, and the end of
  the course.
* `SparseDot.Timing.intervals` — the intervals between stops.
-/

namespace SparseDot.Timing

/-- **The beginning of an interval.** -/
structure Stop where
  time : Instant
  tag : String
  deriving DecidableEq

/-- **The intervals between stops that follow each other**, each under the tag that opens it. -/
def intervals (group : String) (stops : List Stop) : List Sample :=
  (stops.zip stops.tail).map fun (opening, closing) =>
    ⟨group, opening.tag, closing.time.since opening.time⟩

/-- **A timer of segments** that reports to a `σ`. -/
structure StopTimer (σ : Type) where
  /-- The group of all its samples. -/
  group : String
  /-- Whether timing is on. -/
  enabled : Bool
  /-- The marks that have not been reported. -/
  stops : List Stop
  /-- Where finished intervals go. -/
  reporter : σ

namespace StopTimer

variable {σ : Type}

/-- The group of a timer that is given none. -/
def defaultGroup : String := "default group"

/-- The tag of the stop that closes the last interval. Nothing is reported under it. -/
def endTag : String := "end"

/-- A timer without marks. -/
def begin (group : String) (enabled : Bool) (reporter : σ) : StopTimer σ := ⟨group, enabled, [], reporter⟩

variable (t : StopTimer σ)

/-- The number of marks that have not been reported. -/
def pending : Nat := t.stops.length

/-- **Opens an interval.** -/
def mark (tag : String) (now : Instant) : StopTimer σ :=
  if t.enabled then { t with stops := t.stops ++ [⟨now, tag⟩] } else t

/-- **Closes the last interval, reports all of them and forgets the marks.** If the reporter stops at one,
the marks stay, with the one that closed the last interval. -/
def finish [Reporter σ] (now : Instant) : Outcome (StopTimer σ) :=
  if t.enabled && !t.stops.isEmpty then
    let stops := t.stops ++ [⟨now, endTag⟩]
    match Outcome.run Reporter.report t.reporter (intervals t.group stops) with
    | .done reporter => .done { t with stops := [], reporter := reporter }
    | .failed f reporter => .failed f { t with stops := stops, reporter := reporter }
  else .done t

end StopTimer

end SparseDot.Timing
