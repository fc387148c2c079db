import SparseDot.Text.Json.Printer
import SparseDot.Timing.Aggregator
import SparseDot.Timing.Tree

set_option autoImplicit false

/-!
# Sessions

A session is what a thread does with collectors and aggregators: it has collectors at hand, shares
aggregators with other threads, and has its own collector. A thread can start others, one whose end it
waits for right away, or several at once.

## Main definitions

* `SparseDot.Timing.Command`, `SparseDot.Timing.Reply` — the steps of a session, and what they answer.
* `SparseDot.Timing.Session` — the state of a thread.
* `SparseDot.Timing.Session.step`, `SparseDot.Timing.Session.runAll` — one step, and several.

## Design

A step that stops with a fault answers with the fault, keeps what it has done, and the next step follows.
Threads that are started at once answer nothing. They are run one after the other here: they share only the
aggregators, and the sums of an aggregator do not depend on the order in which collectors are merged.
-/

namespace SparseDot.Timing

/-- **The steps of a session** with `c` collectors and `a` aggregators. -/
inductive Command (c a : Nat) where
  /-- Adds a sample to a collector. -/
  | add (target : Fin c) (sample : Sample)
  /-- Merges a copy of a collector into another. -/
  | merge (target source : Fin c)
  /-- Looks up a sum. -/
  | look (target : Fin c) (group tag : String)
  /-- Shows a collector. -/
  | dump (target : Fin c)
  /-- Empties a collector. -/
  | clear (target : Fin c)
  /-- Whether a collector is empty. -/
  | isEmpty (target : Fin c)
  /-- Whether two collectors are equal. -/
  | equal (left right : Fin c)
  /-- Adds a sample to the thread's own collector. -/
  | record (sample : Sample)
  /-- Shows the thread's own collector. -/
  | own
  /-- Empties the thread's own collector. -/
  | resetOwn
  /-- Makes a collector a copy of the thread's own. -/
  | keepOwn (target : Fin c)
  /-- Adds a sample to the thread's own collector while reading that. -/
  | recordWhileReading (sample : Sample)
  /-- Merges the thread's own collector into an aggregator. -/
  | collect (target : Fin a)
  /-- Merges a collector into an aggregator. -/
  | collectFrom (target : Fin a) (source : Fin c)
  /-- Shows an aggregator. -/
  | snapshot (target : Fin a)
  /-- Makes a collector a copy of what an aggregator has merged. -/
  | keepSnapshot (target : Fin c) (source : Fin a)
  /-- Empties an aggregator. -/
  | reset (target : Fin a)
  /-- The report of an aggregator. -/
  | summary (target : Fin a)
  /-- The report as a tree, with colours switched on or off. -/
  | tree (target : Fin a) (style : ReportStyle) (colours : Bool)
  /-- The report as JSON text, on one line or indented. -/
  | json (target : Fin a) (indented : Bool)
  /-- Whether the report is read back from its JSON value. -/
  | readsBack (target : Fin a)
  /-- Runs steps on a new thread. -/
  | thread (steps : List (Command c a))
  /-- Runs lists of steps at once, each on a new thread with new collectors. -/
  | parallel (threads : List (List (Command c a)))

/-- **What a step answers.** -/
inductive Reply where
  | sums (collector : Collector)
  | sum (total : Option Duration)
  | truth (value : Bool)
  | report (report : TimingReport)
  | text (text : String)
  | fault (fault : Fault)
  | replies (replies : List Reply)
  | joined
  deriving Inhabited

/-- **The state of a thread.** -/
structure Session (c a : Nat) where
  /-- The collectors at hand. -/
  collectors : Vector Collector c
  /-- The aggregators, which all threads share. -/
  aggregators : Vector Aggregator a
  /-- The thread's own collector. -/
  own : ThreadLocal

namespace Session

variable {c a : Nat}

/-- The state of the first thread. -/
def fresh : Session c a := ⟨.replicate c .empty, .replicate a .fresh, .fresh⟩

variable (s : Session c a)

/-- The state with a collector set, and its sums. -/
def setCollector (target : Fin c) (collector : Collector) : Reply × Session c a :=
  (.sums collector, { s with collectors := s.collectors.set target collector target.isLt })

/-- The state after a step on a collector: its sums, or the fault. -/
def leaveCollector (target : Fin c) (outcome : Outcome Collector) : Reply × Session c a :=
  let (reply, after) := s.setCollector target outcome.state
  ((outcome.fault?.map Reply.fault).getD reply, after)

/-- The state after a step on an aggregator: its sums, or the fault. -/
def leaveAggregator (target : Fin a) (outcome : Outcome Aggregator) : Reply × Session c a :=
  ((outcome.fault?.map Reply.fault).getD (.sums outcome.state.snapshot),
    { s with aggregators := s.aggregators.set target outcome.state target.isLt })

/-- The state after a step on the thread's own collector: its sums, or the fault. -/
def leaveOwn (outcome : Outcome ThreadLocal) : Reply × Session c a :=
  ((outcome.fault?.map Reply.fault).getD (.sums outcome.state.collector), { s with own := outcome.state })

mutual

/-- **One step of a session.** -/
def step (s : Session c a) : Command c a → Reply × Session c a
  | .add target sample => s.leaveCollector target (s.collectors[target].add sample)
  | .merge target source => s.leaveCollector target (s.collectors[target].merge s.collectors[source])
  | .look target group tag => (.sum (s.collectors[target].get? group tag), s)
  | .dump target => (.sums s.collectors[target], s)
  | .clear target => s.setCollector target .empty
  | .isEmpty target => (.truth s.collectors[target].isEmpty, s)
  | .equal left right => (.truth (decide (s.collectors[left] = s.collectors[right])), s)
  | .record sample => s.leaveOwn (s.own.record sample)
  | .own => (.sums s.own.collector, s)
  | .resetOwn => s.leaveOwn s.own.reset
  | .keepOwn target => s.setCollector target s.own.collector
  | .recordWhileReading sample => s.leaveOwn (s.own.reading fun own => own.record sample)
  | .collect target => s.leaveAggregator target (s.aggregators[target].collect s.own)
  | .collectFrom target source =>
    s.leaveAggregator target (s.aggregators[target].collectFrom s.collectors[source])
  | .snapshot target => (.sums s.aggregators[target].snapshot, s)
  | .keepSnapshot target source => s.setCollector target s.aggregators[source].snapshot
  | .reset target => s.leaveAggregator target (.done s.aggregators[target].reset)
  | .summary target => (.report s.aggregators[target].summary, s)
  | .tree target style colours => (.text (s.aggregators[target].render style (terminal colours)), s)
  | .json target indented =>
    let value := s.aggregators[target].summary.toJson
    (.text (if indented then value.pretty else value.compact), s)
  | .readsBack target =>
    let report := s.aggregators[target].summary
    (.truth (decide (TimingReport.ofJson? report.toJson = some report)), s)
  | .thread steps =>
    let (replies, after) := runAll { s with own := .fresh } steps
    (.replies replies, { after with own := s.own })
  | .parallel threads => (.joined, { s with aggregators := runThreads s.aggregators threads })

/-- **The steps of a list, one after the other.** -/
def runAll (s : Session c a) : List (Command c a) → List Reply × Session c a
  | [] => ([], s)
  | command :: rest =>
    let (reply, after) := step s command
    let (replies, last) := runAll after rest
    (reply :: replies, last)

/-- The aggregators after threads that share nothing else. -/
def runThreads (aggregators : Vector Aggregator a) : List (List (Command c a)) → Vector Aggregator a
  | [] => aggregators
  | steps :: rest =>
    let (_, after) := runAll ⟨.replicate c .empty, aggregators, .fresh⟩ steps
    runThreads after.aggregators rest

end

end Session

end SparseDot.Timing
