set_option autoImplicit false

/-!
# Faults of the kernels

A kernel asks of its caller that there is a weight for every token. When that is not so it stops with a
fault and gives no result.

## Main definitions

* `SparseDot.Kernel.Fault` — why a kernel stopped.
* `SparseDot.Kernel.fetch` — reading an array with its bounds checked.
-/

namespace SparseDot.Kernel

/-- **The reason why a kernel gives no result.** -/
inductive Fault where
  /-- There are fewer weights than tokens. -/
  | shortWeights (weights tokens : Nat)
  /-- A position past the end of an array was read. -/
  | indexOutOfBounds (size index : Nat)
  deriving DecidableEq, Repr

/-- The text of a fault. -/
def Fault.message : Fault → String
  | .shortWeights weights tokens => s!"weights shorter than tokens: {weights} < {tokens}"
  | .indexOutOfBounds size index => s!"index out of bounds: the len is {size} but the index is {index}"

/-- The element at a position, or the fault of reading past the end. -/
def fetch {α : Type} (xs : Array α) (i : Nat) : Except Fault α :=
  if h : i < xs.size then .ok xs[i] else .error (.indexOutOfBounds xs.size i)

/-- An item within the bounds is fetched. -/
theorem fetch_of_lt {α : Type} {xs : Array α} {i : Nat} (h : i < xs.size) :
    fetch xs i = .ok xs[i] := by
  simp [fetch, h]

end SparseDot.Kernel
