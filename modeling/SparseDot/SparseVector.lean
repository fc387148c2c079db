import SparseDot.Kernel.Grouped

set_option autoImplicit false

/-!
# Sparse vectors

A sparse vector owns its tokens and weights, as many of the one as of the other, so that no kernel can
run out of weights on it. One that is built from pairs is sorted by token; as long as no token is negative,
stopping at the first token out of range then loses nothing.

## Main definitions

* `SparseDot.SparseVector` — tokens and weights of one length.
* `SparseDot.SparseVector.make`, `SparseDot.SparseVector.ofPairs` — the two ways to build one.
* `SparseDot.SparseVector.dot`, `SparseDot.SparseVector.dotAt` — the product with a dense vector.
-/

namespace SparseDot

/-- **A sparse vector**: a weight for every token. -/
structure SparseVector (α : Type) where
  /-- The addressed positions. -/
  tokens : Array Int16
  /-- The weights at these positions. -/
  weights : Array α
  /-- There is a weight for every token. -/
  size_eq : tokens.size = weights.size

/-- Tokens and weights of different lengths. -/
structure LengthMismatch where
  tokens : Nat
  weights : Nat
  deriving DecidableEq, Repr

/-- The text of the error. -/
def LengthMismatch.message (e : LengthMismatch) : String :=
  s!"sparse vector has {e.tokens} tokens but {e.weights} weights"

namespace SparseVector

variable {α β : Type}

/-- **The sparse vector with these tokens and weights**, if there are as many of the one as of the
other. -/
def make (tokens : Array Int16) (weights : Array α) : Except LengthMismatch (SparseVector α) :=
  if h : tokens.size = weights.size then .ok ⟨tokens, weights, h⟩
  else .error ⟨tokens.size, weights.size⟩

/-- **The sparse vector of these pairs**, sorted by token. Pairs with the same token keep their order. -/
def ofPairs (pairs : List (Int16 × α)) : SparseVector α :=
  let sorted := pairs.mergeSort fun a b => decide (a.1 ≤ b.1)
  ⟨(sorted.map (·.1)).toArray, (sorted.map (·.2)).toArray, by simp⟩

variable (v : SparseVector α)

/-- The number of entries. -/
def size : Nat := v.tokens.size

/-- Whether there are no entries. -/
def isEmpty : Bool := v.tokens.isEmpty

/-- **Whether no token is smaller than the one before it.** -/
def isOrdered : Bool :=
  let tokens := v.tokens.toList
  (tokens.zip tokens.tail).all fun (a, b) => decide (a ≤ b)

/-- Whether two vectors have the same tokens, and the same weights as `same` sees it. -/
def agrees (same : α → α → Bool) (w : SparseVector α) : Bool :=
  v.tokens == w.tokens && v.weights.size == w.weights.size
    && (v.weights.zip w.weights).all fun (a, b) => same a b

/-- The product with a dense vector. -/
def dot [Kernel.Element α β] (dense : Array α) : Except Kernel.Fault β :=
  Kernel.dot v.tokens v.weights dense

/-- The product with a dense vector in single precision, with the lanes of a processor at some level. -/
def dotAt (v : SparseVector Binary32) (level : Kernel.LaneLevel) (dense : Array Binary32) :
    Except Kernel.Fault Binary32 :=
  Kernel.dotAt v.tokens v.weights dense level

end SparseVector

end SparseDot
