set_option autoImplicit false

/-!
# Outcomes of steps that may stop half way

A step on a state either runs to its end or stops with a fault. A fault does not undo what the step has
done before it, so a stopped step leaves a state behind as well.

## Main definitions

* `SparseDot.Timing.Fault` — why a step stopped.
* `SparseDot.Timing.Outcome` — the state after a step, and its fault if it stopped.
* `SparseDot.Timing.Outcome.run` — a step for every item of a list, up to the first fault.
-/

namespace SparseDot.Timing

/-- **The reason why a step stopped.** -/
inductive Fault where
  /-- A sum of durations is longer than any duration. -/
  | durationOverflow
  /-- A thread's collector was to be changed while it was being read. -/
  | beingRead
  deriving DecidableEq, Repr

/-- The text of a fault. -/
def Fault.message : Fault → String
  | .durationOverflow => "overflow when adding durations"
  | .beingRead => "RefCell already borrowed"

/-- **What a step has come to**: the state that it leaves, and the fault if it stopped. -/
inductive Outcome (σ : Type) where
  /-- The step ran to its end. -/
  | done (state : σ)
  /-- The step stopped. -/
  | failed (fault : Fault) (state : σ)
  deriving DecidableEq

namespace Outcome

variable {σ τ α : Type}

/-- The state that the step leaves. -/
def state : Outcome σ → σ
  | .done s => s
  | .failed _ s => s

/-- The fault, if the step stopped. -/
def fault? : Outcome σ → Option Fault
  | .done _ => none
  | .failed f _ => some f

/-- The outcome seen as one of a larger state. -/
def map (f : σ → τ) : Outcome σ → Outcome τ
  | .done s => .done (f s)
  | .failed e s => .failed e (f s)

/-- **A step for every item of a list**, up to the first fault. -/
def run (step : σ → α → Outcome σ) (s : σ) : List α → Outcome σ
  | [] => .done s
  | item :: rest =>
    match step s item with
    | .done s => run step s rest
    | .failed f s => .failed f s

/-- The state is looked at through the view. -/
@[simp] theorem state_map (f : σ → τ) (o : Outcome σ) : (o.map f).state = f o.state := by
  cases o <;> rfl

/-- A view does not change whether, and at which fault, a step has stopped. -/
@[simp] theorem fault?_map (f : σ → τ) (o : Outcome σ) : (o.map f).fault? = o.fault? := by
  cases o <;> rfl

end Outcome

end SparseDot.Timing
