import SparseDot.Timing.Log
import SparseDot.Timing.ThreadLocal

set_option autoImplicit false

/-!
# Reporters

A reporter is where a finished interval goes: into a collector, into the collector of the thread, or into
the log.

## Main definitions

* `SparseDot.Timing.Reporter` — types that take samples.
* `SparseDot.Timing.Log` — the log as a reporter.
-/

namespace SparseDot.Timing

/-- **Types that take the samples of finished intervals.** -/
class Reporter (σ : Type) where
  /-- Takes a sample. -/
  report : σ → Sample → Outcome σ

/-- A collector adds the sample to its sums. -/
instance : Reporter Collector where
  report c s := c.add s

/-- The collector of a thread adds the sample to the sums of the thread. -/
instance : Reporter ThreadLocal where
  report l s := l.record s

/-- The log, with its lines in the order in which they were written. -/
structure Log where
  lines : List LogLine
  deriving DecidableEq, Repr

/-- The log with one more line. -/
def Log.write (log : Log) (line : LogLine) : Log := ⟨log.lines ++ [line]⟩

/-- The line of a sample: its group and tag, and the time. -/
def Sample.line (s : Sample) : LogLine :=
  ⟨.info, timingLine (s.group ++ "/" ++ s.tag) s.elapsed.millis 0⟩

/-- The log writes a line for every sample. -/
instance : Reporter Log where
  report log s := .done (log.write s.line)

end SparseDot.Timing
