import SparseDot.Bench.Run

set_option autoImplicit false

/-!
# The bench as a program

The outer layer of the bench: it reads the clock, starts the workers and prints.
-/

namespace SparseDot.Bench

/-- The instant of the clock. -/
def readClock : IO Timing.Instant := do
  let nanoseconds ← IO.monoNanosNow
  return ⟨(Timing.Duration.ofNanoseconds? nanoseconds).getD .zero⟩

/-- The level of the processor. Lanes are computed one by one here, so that every processor has them. -/
def level : Kernel.LaneLevel := .avx2

/-- Measures one call. Without timing no instant is taken. -/
def measureCall (job : Job) : IO Call := do
  let started ← if job.timing then readClock else pure .origin
  let result ← IO.lazyPure fun _ => runOnce job.level job.options.kernel job.inputs
  match result with
  | .error fault => throw (IO.userError fault.message)
  | .ok value =>
    let stopped ← if job.timing then readClock else pure .origin
    return ⟨value, started, stopped⟩

/-- Measures the task of a worker. -/
def measureTask (job : Job) (worker : Nat) : IO Task := do
  let mut calls : Array Call := #[]
  for _ in [0:job.options.iterations] do
    calls := calls.push (← measureCall job)
  return ⟨worker, calls.toList⟩

/-- Runs the tasks at once, a worker for each. -/
def measure (job : Job) (timer : Timing.Timer) : IO Console := do
  let workers ← (List.range job.threads).mapM fun worker =>
    IO.asTask (measureTask job worker) Task.Priority.dedicated
  let tasks ← workers.mapM fun worker => do
    match ← IO.wait worker with
    | .ok task => pure task
    | .error e => throw e
  let ended ← if job.timing then readClock else pure .origin
  let colours ← (← IO.getStdout).isTty
  return job.finish timer (.inOrder tasks) ended colours

/-- Prints what a console shows, and gives its exit code. -/
def Console.print (console : Console) : IO UInt32 := do
  for line in console.log do
    IO.eprintln s!"[{line.level.name} dp_bench] {line.text}"
  IO.print console.output
  return UInt32.ofNat console.exit

end SparseDot.Bench

open SparseDot.Bench in
/-- The bench program. -/
def main (arguments : List String) : IO UInt32 := do
  match prepare arguments (← IO.getEnv SparseDot.Timing.switchVariable) level with
  | .error console =>
    match parse arguments with
    | .error ending => if console.exit ≠ 0 then IO.eprintln ("error: " ++ ending.message)
    | .ok _ => pure ()
    console.print
  | .ok job =>
    match job.totalTimer? (← readClock) with
    | none => job.breakOff.print
    | some timer => (← measure job timer).print
