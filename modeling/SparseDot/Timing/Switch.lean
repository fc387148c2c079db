import SparseDot.Timing.Log

set_option autoImplicit false

/-!
# The switch for timing

Timing is off unless an environment variable turns it on. The variable is read once; the answer holds for
the rest of the process.

## Main definitions

* `SparseDot.Timing.parseFlag` — the value that turns timing on.
* `SparseDot.Timing.Switch`, `SparseDot.Timing.Switch.read` — what has been read, and reading it.
-/

namespace SparseDot.Timing

/-- The environment variable that turns timing on. -/
def switchVariable : String := "TIMER_DEBUG"

/-- **Whether a value of the variable turns timing on.** Only the text `1` does. -/
def parseFlag (value : Option String) : Bool := value == some "1"

/-- **The answer that has been read**, if the variable has been read already. -/
structure Switch where
  answer : Option Bool
  deriving DecidableEq

/-- The switch of a new process. -/
def Switch.unread : Switch := ⟨none⟩

/-- **Whether timing is on**, with the switch after that and the lines it logs. The value of the variable
counts, and is logged, the first time only. -/
def Switch.read (switch : Switch) (value : Option String) : Bool × Switch × List LogLine :=
  match switch.answer with
  | some answer => (answer, switch, [])
  | none =>
    let answer := parseFlag value
    let told := if answer then "1 (timing on)" else "0 (timing off)"
    (answer, ⟨some answer⟩, [⟨.debug, switchVariable ++ "=" ++ told⟩])

end SparseDot.Timing
