import SparseDot.Numeric.Rounding
import SparseDot.Numeric.Exact
import SparseDot.Numeric.Binary.Basic

set_option autoImplicit false

/-!
# Correctly rounded arithmetic

Every operation computes its exact result and rounds it once, to the nearest value of the format and to
the one with the even rank if two are equally near. What would be rounded past the largest finite number
becomes infinite, and what is rounded to zero keeps its sign.

## Main definitions

* `SparseDot.Format.nearestRank` — the rank nearest to `num / den · 2 ^ exponent`.
* `SparseDot.Binary.round` — the value nearest to an exact result.
* `SparseDot.Binary.add`, `mul`, `div`, `fma`, `ofInt`, `convert` — the operations.
* `SparseDot.Binary.nearestInt?` — the nearest integer, halves away from zero.
-/

namespace SparseDot

/-- The exponent `e` with `2 ^ e ≤ num / den < 2 ^ (e + 1)`, for positive `num` and `den`. -/
def floorLog2 (num den : Nat) : Int :=
  let e : Int := num.log2 - den.log2
  if den <<< e.toNat ≤ num <<< (-e).toNat then e else e - 1

namespace Format

variable (fmt : Format)

/-- **The rank of the number nearest to `num / den · 2 ^ exponent`**, the even one of two.

The quotient is counted in the unit of its own binade, or in the subnormal unit if that is larger, and
the count is rounded to an integer. A count that is rounded up to the next power of two has the rank of
the first number of the next binade, because the leading bit carries into the step. -/
def nearestRank (num den : Nat) (exponent : Int) : Nat :=
  if num = 0 then 0
  else
    let above := exponent - fmt.minExponent
    let step := (floorLog2 num den + above + 1 - fmt.precision).toNat
    let shift := above - step
    step <<< (fmt.precision - 1) + roundDiv .toEven (num <<< shift.toNat) (den <<< (-shift).toNat)

end Format

namespace Binary

variable {fmt : Format}

/-! ## Rounding -/

/-- The number as an exact one. -/
def exact : Binary fmt → Exact
  | .finite s r _ => .finite s (fmt.coefficient r) (fmt.exponent r)
  | .infinity s => .infinity s
  | .nan => .nan

/-- The value nearest to `± num / den · 2 ^ exponent`. -/
def nearest (negative : Bool) (num den : Nat) (exponent : Int) : Binary fmt :=
  ofRank negative (fmt.nearestRank num den exponent)

/-- **The value nearest to an exact result.** -/
def round : Exact → Binary fmt
  | .finite s c e => nearest s c 1 e
  | .infinity s => .infinity s
  | .nan => .nan

/-! ## Operations -/

/-- The rounded sum. -/
def add (x y : Binary fmt) : Binary fmt := round (x.exact.add y.exact)

/-- The rounded difference. -/
def sub (x y : Binary fmt) : Binary fmt := x.add y.neg

/-- The rounded product. -/
def mul (x y : Binary fmt) : Binary fmt := round (x.exact.mul y.exact)

/-- The fused product and sum `x · y + z`, rounded once. -/
def fma (x y z : Binary fmt) : Binary fmt := round ((x.exact.mul y.exact).add z.exact)

/-- The rounded quotient. A non-zero number divided by zero is infinite; zero by zero and infinity by
infinity are NaN. -/
def div : Binary fmt → Binary fmt → Binary fmt
  | .nan, _ | _, .nan => .nan
  | .infinity _, .infinity _ => .nan
  | .infinity s, .finite t _ _ => .infinity (s != t)
  | .finite s _ _, .infinity t => zero (s != t)
  | .finite s a _, .finite t b _ =>
    if b = 0 then
      if a = 0 then .nan else .infinity (s != t)
    else
      nearest (s != t) (fmt.coefficient a) (fmt.coefficient b) (fmt.exponent a - fmt.exponent b)

/-- The value nearest to an integer. -/
def ofInt (n : Int) : Binary fmt := round (Exact.ofInt n)

/-- The value nearest to a natural number. -/
def ofNat (n : Nat) : Binary fmt := ofInt n

/-- The same number in another format, rounded if that has no such number. -/
def convert {target : Format} (x : Binary fmt) : Binary target := round x.exact

/-- **The sum of a list from left to right.** It starts from the negative zero, the one value that every
first term leaves as it is. -/
def sum (terms : List (Binary fmt)) : Binary fmt := terms.foldl add (zero true)

instance : Add (Binary fmt) := ⟨add⟩
instance : Sub (Binary fmt) := ⟨sub⟩
instance : Mul (Binary fmt) := ⟨mul⟩
instance : Div (Binary fmt) := ⟨div⟩
instance : Neg (Binary fmt) := ⟨neg⟩

/-! ## Integers -/

/-- The integer nearest to a finite value, a half going away from zero. -/
def nearestInt? : Binary fmt → Option Int
  | .finite s r _ =>
    let e := fmt.exponent r
    let magnitude := roundDiv .away (fmt.coefficient r <<< e.toNat) (1 <<< (-e).toNat)
    some (if s then -(magnitude : Int) else magnitude)
  | _ => none

/-- The integer nearest to the value, halves away from zero, kept between `low` and `high`. NaN counts as
zero. -/
def saturate (low high : Int) : Binary fmt → Int
  | .finite s r h => Max.max low (Min.min high ((nearestInt? (.finite s r h)).getD 0))
  | .infinity s => if s then low else high
  | .nan => 0

end Binary

end SparseDot
