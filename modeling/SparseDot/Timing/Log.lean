import SparseDot.Numeric.Decimal.Fixed
import SparseDot.Timing.Duration

set_option autoImplicit false

/-!
# Log lines

What is timed can be told to a log, a line for every measured time. A line gives milliseconds with a fixed
number of places, so that the lines of a log can be compared.

## Main definitions

* `SparseDot.Timing.LogLine` — a line with its level.
* `SparseDot.Timing.timingLine` — the line that tells a measured time.
-/

namespace SparseDot.Timing

/-- The level of a log line. -/
inductive Level where
  | debug
  | info
  deriving DecidableEq, Repr

/-- The name of a level. -/
def Level.name : Level → String
  | .debug => "DEBUG"
  | .info => "INFO"

/-- **A line of the log.** -/
structure LogLine where
  level : Level
  text : String
  deriving DecidableEq, Repr

/-- **The line that tells a measured time**, in milliseconds to three places. For a positive number of units
of work it gives the average of a unit as well, to six places. -/
def timingLine (tag : String) (millis : Binary64) (count : Nat) : String :=
  let total := tag ++ " time: " ++ Decimal.fixed 3 millis ++ " ms"
  if 0 < count then
    total ++ ", average time: " ++ Decimal.fixed 6 (millis / Binary.ofNat count) ++ " ms"
  else total

end SparseDot.Timing
