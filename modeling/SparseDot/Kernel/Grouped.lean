import SparseDot.Kernel.Scalar

set_option autoImplicit false

/-!
# The grouped kernels

In single precision the product can be taken eight positions at a time. The dense values of a group are
gathered into a buffer of eight lanes, and each lane adds its product to a sum of its own with a fused
multiply-add. A group takes part only if all eight of its tokens are in range; the first other group, and
everything after it, is left to the scalar walk, which continues from the sum of the lanes.

There are two such kernels. One reads the weights lane by lane, each read with its check. The other loads
the eight weights of a group at once and unchecked, and therefore counts the weights before the first group.
It needs a processor with instructions for that, and the scalar kernel takes its place on any other one.

## Main definitions

* `SparseDot.Kernel.gather` — fills the buffer with the dense values of a group.
* `SparseDot.Kernel.accumulate`, `SparseDot.Kernel.accumulateAtOnce` — the lanes with the products of a
  group added to them, for the two ways to read the weights.
* `SparseDot.Kernel.takeGroups` — the loop over the groups.
* `SparseDot.Kernel.dotGrouped`, `SparseDot.Kernel.dotVectorised` — the two kernels.
* `SparseDot.Kernel.LaneLevel`, `SparseDot.Kernel.dotAt` — what a processor can do, and the product on it.

## Design

All groups share one buffer, which is never cleared. A gathering that stops half-way leaves it with values
of two groups; that is harmless only because such a group ends the loop.
-/

namespace SparseDot.Kernel

/-- The number of lanes. -/
abbrev laneCount : Nat := 8

/-- Eight values side by side. -/
abbrev Lanes := Vector Binary32 laneCount

/-- The position where the whole groups of a sparse vector end. -/
def groupLimit (size : Nat) : Nat := size - size % laneCount

/-- **What a processor can do with lanes.** -/
inductive LaneLevel where
  /-- Eight lanes at once, with a fused multiply-add. -/
  | avx2
  /-- No more than one value at a time. -/
  | scalar
  deriving DecidableEq, Repr

/-- The name of a level. -/
def LaneLevel.name : LaneLevel → String
  | .avx2 => "Avx2"
  | .scalar => "Scalar"

section Groups

variable (tokens : Array Int16) (weights dense : Array Binary32)

/-- Writes the dense values of the group at position `i` into these lanes of the buffer, one after the
other. The first token out of range stops it; then the answer is `false`, and only the lanes before are
overwritten. -/
def gatherLanes (i : Nat) : List (Fin laneCount) → Lanes → Except Fault (Bool × Lanes)
  | [], buffer => return (true, buffer)
  | lane :: rest, buffer => do
    let token ← fetch tokens (i + lane)
    match slot token dense.size with
    | none => return (false, buffer)
    | some t =>
      let value ← fetch dense t
      gatherLanes i rest (buffer.set lane value)

/-- **Fills the buffer with the dense values of the group at position `i`**, and tells whether all its
tokens are in range. -/
def gather (i : Nat) (buffer : Lanes) : Except Fault (Bool × Lanes) :=
  gatherLanes tokens dense i (List.finRange laneCount) buffer

/-- **The lanes with the products of the group at position `i` added to them**, one after the other. -/
def accumulate (i : Nat) (gathered lanes : Lanes) : Except Fault Lanes :=
  (List.finRange laneCount).foldlM (fun (lanes : Lanes) (lane : Fin laneCount) => do
    let weight ← fetch weights (i + lane)
    return lanes.set lane (Binary.fma weight gathered[lane] lanes[lane])) lanes

/-- The eight weights from position `i` on. -/
def loadWeights (i : Nat) : Except Fault Lanes :=
  if h : i + laneCount ≤ weights.size then .ok (Vector.ofFn fun lane => weights[i + lane])
  else .error (.indexOutOfBounds weights.size (i + laneCount - 1))

/-- **The lanes with the products of the group at position `i` added to them**, all at once. -/
def accumulateAtOnce (i : Nat) (gathered lanes : Lanes) : Except Fault Lanes := do
  let group ← loadWeights weights i
  return Vector.ofFn fun lane => Binary.fma group[lane] gathered[lane] lanes[lane]

/-- Takes groups from position `i` on, as long as that is below the limit and they are in range, and adds
their products with `add`. Gives the position where the groups end, and the lanes. -/
def takeGroups (add : Nat → Lanes → Lanes → Except Fault Lanes) (limit i : Nat) (buffer lanes : Lanes) :
    Except Fault (Nat × Lanes) :=
  if i < limit then do
    let (inRange, buffer) ← gather tokens dense i buffer
    if inRange then
      let lanes ← add i buffer lanes
      takeGroups add limit (i + laneCount) buffer lanes
    else return (i, lanes)
  else return (i, lanes)
termination_by limit - i
decreasing_by
  simp only [laneCount]
  omega

/-- The product by groups. The sum of the lanes, in order, is where the scalar walk goes on. -/
def dotByGroups (add : Nat → Lanes → Lanes → Except Fault Lanes) : Except Fault Binary32 := do
  let zeros := Vector.replicate laneCount (Binary.zero false)
  let (i, lanes) ← takeGroups tokens dense add (groupLimit tokens.size) 0 zeros zeros
  dotFrom tokens weights dense i (Binary.sum lanes.toList)

/-- **The product by groups**, with the weights read lane by lane. -/
def dotGrouped : Except Fault Binary32 :=
  if tokens.isEmpty || dense.isEmpty then .ok (Binary.zero false)
  else dotByGroups tokens weights dense (accumulate weights)

/-- **The product by groups**, with the weights counted first and loaded eight at a time. -/
def dotVectorised : Except Fault Binary32 :=
  if tokens.isEmpty || dense.isEmpty then .ok (Binary.zero false)
  else if weights.size < tokens.size then .error (.shortWeights weights.size tokens.size)
  else dotByGroups tokens weights dense (accumulateAtOnce weights)

/-- **The product with the lanes of a processor** at some level: by groups where the processor has the
instructions for it, and otherwise position by position. -/
def dotAt (level : LaneLevel) : Except Fault Binary32 :=
  match level with
  | .avx2 => dotVectorised tokens weights dense
  | .scalar => dotSingle tokens weights dense

end Groups

end SparseDot.Kernel
