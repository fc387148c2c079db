import SparseDot.Kernel.Scalar

set_option autoImplicit false

/-!
# Quantization

A non-negative weight becomes a code from `0` to `127`, its share of a ceiling. The codes of two vectors
give a product in integers, and the two ceilings turn that back into an estimate of the real product.

## Main definitions

* `SparseDot.Kernel.quantize` — the code of a value.
* `SparseDot.Kernel.dequantize` — the estimate that belongs to a product of codes.
-/

namespace SparseDot.Kernel

/-- The largest code. -/
def maxCode : Nat := 127

/-- **The code of a value under a ceiling.** The value is first brought into the range from zero to the
ceiling, a NaN going to zero; then its share of the ceiling is counted in codes, halves going up. A ceiling
that is not positive gives the code zero. -/
def quantize (value ceiling : Binary32) : Int8 :=
  if ceiling.isNaN || ceiling.le (Binary.zero false) then 0
  else
    let inRange := (value.max (Binary.zero false)).min ceiling
    Int8.ofInt ((inRange / ceiling * Binary.ofNat maxCode).saturate (-128) 127)

/-- The codes of many values under one ceiling. -/
def quantizeAll (values : Array Binary32) (ceiling : Binary32) : Array Int8 :=
  values.map fun value => quantize value ceiling

/-- **The estimate of a product from the product of codes**, given the ceilings of the two vectors. -/
def dequantize (raw : Int32) (ceiling₁ ceiling₂ : Binary32) : Binary32 :=
  let scale := Binary.ofNat maxCode
  Binary.ofInt raw.toInt * (ceiling₁ / scale) * (ceiling₂ / scale)

end SparseDot.Kernel
