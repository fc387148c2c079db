import SparseDot.Bench.CommandLine
import SparseDot.Bench.Inputs
import SparseDot.Text.Json.Printer
import SparseDot.Timing.Aggregator
import SparseDot.Timing.StopTimer
import SparseDot.Timing.Switch
import SparseDot.Timing.Timer
import SparseDot.Timing.Tree

set_option autoImplicit false

/-!
# A run of the bench

A run is prepared from the command line, then its tasks are measured, and then it is finished: the times
that the workers recorded are gathered, and the run tells its checksum and its times. Measuring needs a clock
and is left to the caller.

## Main definitions

* `SparseDot.Bench.Job` — a prepared run, and `SparseDot.Bench.prepare`.
* `SparseDot.Bench.Call`, `SparseDot.Bench.Task` — calls of the kernel, and tasks made of them.
* `SparseDot.Bench.Reduction` — how the sums of the tasks are added up.
* `SparseDot.Bench.Execution` — what the workers have done.
* `SparseDot.Bench.Job.gather` — the times of all workers.
* `SparseDot.Bench.Job.finish` — what the program prints, and how it exits.

## Design

The pool of workers decides which worker takes a task and when, how the sums of the tasks are added up, and
in which order the workers merge their times. All of that is part of an execution.
-/

namespace SparseDot.Bench

/-- **What the program prints, and how it exits.** -/
structure Console where
  /-- The exit code. -/
  exit : Nat
  /-- The output. -/
  output : String
  /-- The lines of the log. -/
  log : List Timing.LogLine

/-- The exit code of a run that was stopped by an error. -/
def errorExit : Nat := 1

/-- The exit code after a command line that could not be read. -/
def usageExit : Nat := 2

/-- The exit code of a run that broke off. -/
def faultExit : Nat := 101

/-! ## Preparing -/

/-- **A prepared run.** -/
structure Job where
  options : Options
  inputs : Inputs
  /-- Whether the calls are timed. -/
  timing : Bool
  /-- What the processor can do with lanes. -/
  level : Kernel.LaneLevel

namespace Job

variable (job : Job)

/-- The number of workers, of which there is at least one. -/
def threads : Nat := max job.options.threads 1

/-- The number of calls of the kernel by all workers. -/
def calls : Nat := job.threads * job.options.iterations

/-- The line that tells what is run. -/
def header : Timing.LogLine :=
  ⟨.info, "kernel=" ++ job.options.kernel.name ++ " simd_level=" ++ job.level.name ++ " threads=" ++
    toString job.threads ++ " iters=" ++ toString job.options.iterations⟩

/-- The timer of the whole run. The number of calls is counted in 64 bits; one that does not fit is none. -/
def totalTimer? (now : Timing.Instant) : Option Timing.Timer :=
  if job.calls < UInt64.size then some (.begin "dp-bench total" job.calls job.timing now) else none

end Job

/-- What the program prints and how it exits when it does not come to a run. -/
def Ending.console : Ending → Console
  | .help => ⟨0, helpText, []⟩
  | .version => ⟨0, versionText, []⟩
  | _ => ⟨usageExit, "", []⟩

/-- **Prepares a run** from the command line, as `read` understands it, the value of the switch for timing and
the level of the processor. -/
def prepareWith (read : List String → Except Ending Options) (arguments : List String)
    (switchValue : Option String) (level : Kernel.LaneLevel) : Except Console Job :=
  match read arguments with
  | .error ending => .error ending.console
  | .ok options =>
    match Inputs.ofOptions options with
    | .error _ => .error ⟨errorExit, "", []⟩
    | .ok inputs => .ok ⟨options, inputs, options.timing || (Timing.Switch.unread.read switchValue).1, level⟩

/-- Prepares a run from the command line of the bench. -/
def prepare : List String → Option String → Kernel.LaneLevel → Except Console Job := prepareWith parse

/-! ## What has been measured -/

/-- **A call of the kernel**: its result, and the instants around it. -/
structure Call where
  value : Binary64
  started : Timing.Instant
  stopped : Timing.Instant

/-- **A task**: calls, one after the other, by one worker. -/
structure Task where
  worker : Nat
  calls : List Call

/-- The sum of the results of a task. -/
def Task.sum (task : Task) : Binary64 :=
  task.calls.foldl (fun sum call => sum + call.value) (Binary.zero false)

/-- **How the sums of the tasks are added up**: pairwise in some order, with zeros in between. -/
inductive Reduction where
  /-- A sum of no tasks. -/
  | zero (negative : Bool)
  /-- The sum of one task. -/
  | task (index : Nat)
  /-- Two sums added. -/
  | join (left right : Reduction)

namespace Reduction

/-- The value of a reduction for the sums of the tasks. -/
def value (sums : Array Binary64) : Reduction → Binary64
  | .zero negative => Binary.zero negative
  | .task index => sums.getD index (Binary.zero false)
  | .join left right => left.value sums + right.value sums

/-- One task after the other, from the first one on. -/
def leftToRight : Nat → Reduction
  | 0 => .zero false
  | n + 1 => .join (leftToRight n) (.task n)

end Reduction

/-- **What the workers have done.** -/
structure Execution where
  /-- The number of workers. -/
  workers : Nat
  /-- The tasks, in the order in which they were done. -/
  tasks : List Task
  /-- How the sums of the tasks were added up. -/
  reduction : Reduction
  /-- The workers, in the order in which they merged their times. -/
  merges : List Nat

/-- The sum of the results of all calls. -/
def Execution.checksum (execution : Execution) : Binary64 :=
  execution.reduction.value (execution.tasks.map Task.sum).toArray

/-- The execution with a worker for every task, and everything done in the order of workers. -/
def Execution.inOrder (tasks : List Task) : Execution :=
  ⟨tasks.length, tasks, .leftToRight tasks.length, List.range tasks.length⟩

/-! ## Gathering -/

/-- The group of all times of the bench. -/
def group : String := "dp-bench"

namespace Job

variable (job : Job)

/-- The collector of a worker after a call, which a stop timer reports to it. -/
def record (worker : Timing.ThreadLocal) (call : Call) : Timing.Outcome Timing.ThreadLocal :=
  let timer := (Timing.StopTimer.begin group job.timing worker).mark job.options.kernel.name call.started
  (timer.finish call.stopped).map Timing.StopTimer.reporter

/-- The collectors of all workers after a task. -/
def perform (workers : Array Timing.ThreadLocal) (task : Task) :
    Timing.Outcome (Array Timing.ThreadLocal) :=
  let worker := workers.getD task.worker .fresh
  (Timing.Outcome.run job.record worker task.calls).map fun after =>
    workers.setIfInBounds task.worker after

/-- **The times of all workers**: each records its tasks, and afterwards each merges what it has recorded. -/
def gather (execution : Execution) : Timing.Outcome Timing.Aggregator :=
  match Timing.Outcome.run job.perform (Array.replicate execution.workers .fresh) execution.tasks with
  | .failed f _ => .failed f .fresh
  | .done workers =>
    let merge (aggregator : Timing.Aggregator) (worker : Nat) : Timing.Outcome Timing.Aggregator :=
      aggregator.collect (workers.getD worker .fresh)
    Timing.Outcome.run merge .fresh execution.merges

/-! ## Finishing -/

/-- The text of the times. -/
def timesText (colours : Bool) (times : Timing.TimingReport) : String :=
  if job.options.json then times.toJson.pretty ++ "\n" else times.render (terminal colours)

/-- **Finishes a run**: what the program prints and how it exits, after the workers are done. -/
def finish (timer : Timing.Timer) (execution : Execution) (ended : Timing.Instant) (colours : Bool) :
    Console :=
  let checksum : Timing.LogLine := ⟨.info, "checksum=" ++ Decimal.fixed 4 execution.checksum⟩
  let log := job.header :: (timer.finish ended).toList ++ [checksum]
  match job.gather execution with
  | .done aggregator => ⟨0, job.timesText colours aggregator.summary, log⟩
  | .failed _ _ => ⟨faultExit, "", log⟩

/-- What is left of a run that breaks off before its tasks. -/
def breakOff : Console := ⟨faultExit, "", [job.header]⟩

end Job

end SparseDot.Bench
