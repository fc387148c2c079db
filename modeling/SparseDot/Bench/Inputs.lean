import SparseDot.Bench.Generator
import SparseDot.Bench.Options
import SparseDot.Kernel.Grouped
import SparseDot.Kernel.Quantize

set_option autoImplicit false

/-!
# Inputs of the bench

Kernels are timed on random vectors whose lengths are options. All tokens are in range and sorted, so that
every kernel reads the whole sparse vector, and the codes belong to the same vectors as the values.

## Main definitions

* `SparseDot.Bench.Inputs` — a sparse and a dense vector, each also in codes.
* `SparseDot.Bench.Inputs.make` — vectors drawn from a source of random numbers.
* `SparseDot.Bench.runOnce` — the product by a kernel.
-/

namespace SparseDot.Bench

/-- **The vectors that kernels are timed on.** -/
structure Inputs where
  tokens : Array Int16
  weights : Array Binary32
  dense : Array Binary32
  /-- The weights as codes. -/
  weightCodes : Array Int8
  /-- The dense vector as codes. -/
  denseCodes : Array Int8

/-- A token was drawn that is too large for one. -/
structure TokenTooLarge where
  token : Nat
  deriving DecidableEq, Repr

/-- The text of the error. -/
def TokenTooLarge.message (_ : TokenTooLarge) : String := "token does not fit in i16"

/-- The number of different tokens that are not negative. -/
def tokenCount : Nat := 1 <<< 15

/-- A number as a token. -/
def toToken (n : Nat) : Except TokenTooLarge Int16 :=
  if n < tokenCount then .ok (Int16.ofNat n) else .error ⟨n⟩

/-- The ceiling of drawn weights. -/
def weightCeiling : Binary32 := Binary.ofNat 4

/-- The ceiling of drawn dense values. -/
def denseCeiling : Binary32 := Binary.ofNat 1

/-- The length of the dense vector for an asked length: at least one, and not more than tokens can
address. -/
def denseLengthFor (asked : Nat) : Nat := max 1 (min asked tokenCount)

/-- **Vectors drawn from a source of random numbers**: the dense values, then the tokens, which are sorted,
then the weights. -/
def Inputs.make {γ : Type} (sampler : Sampler γ) (state : γ) (options : Options) :
    Except TokenTooLarge Inputs := do
  let zero : Binary32 := Binary.zero false
  let denseLength := denseLengthFor options.denseLength
  let (dense, state) := drawMany (sampler.single zero denseCeiling) denseLength #[] state
  let (numbers, state) := drawMany (sampler.below denseLength) options.sparseLength #[] state
  let tokens ← numbers.toList.mapM toToken
  let (weights, _) := drawMany (sampler.single zero weightCeiling) options.sparseLength #[] state
  return {
    tokens := (tokens.mergeSort fun a b => decide (a ≤ b)).toArray
    weights := weights
    dense := dense
    weightCodes := Kernel.quantizeAll weights weightCeiling
    denseCodes := Kernel.quantizeAll dense denseCeiling }

/-- The vectors of a seed. -/
def Inputs.ofOptions (options : Options) : Except TokenTooLarge Inputs :=
  Inputs.make Generator.sampler (Generator.ofSeed options.seed) options

/-- **The product by a kernel**, in double precision, on a processor with lanes of some level. -/
def runOnce (level : Kernel.LaneLevel) (kernel : Kernel.Kind) (inputs : Inputs) : Except Kernel.Fault Binary64 :=
  match kernel with
  | .scalar => (Kernel.dotSingle inputs.tokens inputs.weights inputs.dense).map Binary.convert
  | .int8 =>
    (Kernel.dotInt8 inputs.tokens inputs.weightCodes inputs.denseCodes).map fun raw => Binary.ofInt raw.toInt
  | .simd => (Kernel.dotAt inputs.tokens inputs.weights inputs.dense level).map Binary.convert

end SparseDot.Bench
