import SparseDot.Kernel.Fault
import SparseDot.Kernel.Element
import SparseDot.Kernel.Slot

set_option autoImplicit false

/-!
# The scalar kernel

The product of a sparse with a dense vector: walk the tokens in order, add `weights[i] · dense[tokens[i]]`,
and stop for good at the first token outside of the dense vector. Producers emit tokens in non-decreasing
order, so that nothing after such a token would be in range; the kernel neither checks nor needs that.

The walk takes four positions at a time, each with a check of its own, and what is left one by one.

## Main definitions

* `SparseDot.Kernel.dotFrom` — continue a running sum from a position.
* `SparseDot.Kernel.dot` — the whole product.
* `SparseDot.Kernel.dotSingle`, `SparseDot.Kernel.dotInt8` — the product for the two element types.

## Design

One position either adds its product to the running sum or stops the walk, and a stop carries its reason:
the end of the range, where the sum so far is the answer, or a fault. Steps are chained by the monad of
`Except`, so a stop in any lane of a block leaves the block and both loops at once.
-/

namespace SparseDot.Kernel

/-- **Why the walk over the tokens stops early.** -/
inductive Stop (β : Type) where
  /-- A token is out of range; the sum up to there is the answer. -/
  | outOfRange (acc : β)
  /-- Something was read that is not there. -/
  | fault (f : Fault)
  deriving Repr

/-- The answer of a walk: the sum at its end or at its early stop. -/
def settle {β : Type} : Except (Stop β) β → Except Fault β
  | .ok acc => .ok acc
  | .error (.outOfRange acc) => .ok acc
  | .error (.fault f) => .error f

/-- How many positions are taken at a time. -/
def unroll : Nat := 4

/-- The position where the whole blocks of a walk from `start` end. -/
def blockLimit (start size : Nat) : Nat := size - (size - min start size) % unroll

section Walk

variable {α β : Type} [Element α β] (tokens : Array Int16) (weights dense : Array α)

/-- Reads one element; a missing one stops the walk. -/
def read {γ : Type} (xs : Array γ) (i : Nat) : Except (Stop β) γ :=
  (fetch xs i).mapError .fault

/-- The running sum with position `i` added to it. -/
def advance (i : Nat) (acc : β) : Except (Stop β) β := do
  let token ← read tokens i
  match slot token dense.size with
  | none => .error (.outOfRange acc)
  | some t =>
    let weight ← read weights i
    let value ← read dense t
    return Element.mulAdd acc weight value

/-- The running sum with the four positions from `i` on added to it, one after the other. -/
def advanceFour (i : Nat) (acc : β) : Except (Stop β) β := do
  let acc ← advance tokens weights dense i acc
  let acc ← advance tokens weights dense (i + 1) acc
  let acc ← advance tokens weights dense (i + 2) acc
  advance tokens weights dense (i + 3) acc

/-- The running sum with the positions from `i` on added to it, one by one, up to the end of the tokens. -/
def advanceRest (i : Nat) (acc : β) : Except (Stop β) β :=
  if i < tokens.size then do
    let acc ← advance tokens weights dense i acc
    advanceRest (i + 1) acc
  else .ok acc
termination_by tokens.size - i
decreasing_by omega

/-- The running sum with blocks of four positions from `i` on added to it, as long as the position is below
the limit, and after them the single positions that are left. -/
def advanceBlocks (limit i : Nat) (acc : β) : Except (Stop β) β :=
  if i < limit then do
    let acc ← advanceFour tokens weights dense i acc
    advanceBlocks limit (i + unroll) acc
  else advanceRest tokens weights dense i acc
termination_by limit - i
decreasing_by
  simp only [unroll]
  omega

/-- **Continues a running sum from position `start`.** A start past the end adds nothing. With an empty
sparse or dense vector the sum is returned as it is; otherwise there has to be a weight for every token,
whether the walk would come to it or not. -/
def dotFrom (start : Nat) (acc : β) : Except Fault β :=
  if tokens.isEmpty || dense.isEmpty then .ok acc
  else if weights.size < tokens.size then .error (.shortWeights weights.size tokens.size)
  else
    settle (advanceBlocks tokens weights dense (blockLimit start tokens.size) (min start tokens.size) acc)

/-- **The product of a sparse with a dense vector.** -/
def dot : Except Fault β := dotFrom tokens weights dense 0 (Element.zero α)

end Walk

/-- The product in single precision. -/
def dotSingle (tokens : Array Int16) (weights dense : Array Binary32) : Except Fault Binary32 :=
  dot tokens weights dense

/-- The product of signed bytes, summed in 32 bits. -/
def dotInt8 (tokens : Array Int16) (weights dense : Array Int8) : Except Fault Int32 :=
  dot tokens weights dense

end SparseDot.Kernel
