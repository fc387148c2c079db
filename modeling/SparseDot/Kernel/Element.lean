import SparseDot.Numeric.Binary.Arithmetic

set_option autoImplicit false

/-!
# Elements of vectors

The scalar kernel works on any element type that says how a product is added to a running sum. Two such
types are in use: single precision values, summed in single precision with a rounding after the product
and another after the sum, and signed bytes, summed in 32 bits with wrap-around.

## Main definitions

* `SparseDot.Kernel.Element` — element types with their running sums.
-/

namespace SparseDot.Kernel

/-- **Element types of a dot product.** Products of two elements of `α` are added up in `β`. -/
class Element (α : Type) (β : outParam Type) where
  /-- The sum of no products. -/
  zero : β
  /-- The running sum with the product of two elements added to it. -/
  mulAdd : β → α → α → β

/-- Single precision: the product is rounded, and then the sum is. -/
instance : Element Binary32 Binary32 where
  zero := Binary.zero false
  mulAdd acc a b := acc + a * b

/-- Signed bytes: the product is exact in 32 bits, and the sum wraps. -/
instance : Element Int8 Int32 where
  zero := 0
  mulAdd acc a b := acc + a.toInt32 * b.toInt32

end SparseDot.Kernel
