set_option autoImplicit false

/-!
# Exact results before rounding

Sums and products of binary numbers are again integers times a power of two, so they can be written down
exactly. `Exact` is the type of such results, together with the infinities and NaN and with the sign that
a zero has to carry. An operation on binary values is the exact operation followed by one rounding; a
fused operation leaves out the rounding in the middle.

## Main definitions

* `SparseDot.Exact` — a signed dyadic number, an infinity, or NaN.
* `SparseDot.Exact.add`, `SparseDot.Exact.mul` — the exact sum and product.
-/

namespace SparseDot

/-- **An exact result**: a sign with `coefficient · 2 ^ exponent`, an infinity, or NaN. The sign of a zero
is part of it. -/
inductive Exact where
  /-- The number `± coefficient · 2 ^ exponent`. -/
  | finite (negative : Bool) (coefficient : Nat) (exponent : Int)
  /-- An infinity. -/
  | infinity (negative : Bool)
  /-- Not a number. -/
  | nan
  deriving DecidableEq, Repr

namespace Exact

/-- An integer, with a positive zero. -/
def ofInt (n : Int) : Exact := .finite (n < 0) n.natAbs 0

/-- The coefficient in units of `2 ^ unit`, with its sign; exact when `unit` is at most the exponent. -/
def scaled (negative : Bool) (coefficient : Nat) (exponent unit : Int) : Int :=
  let magnitude := coefficient <<< (exponent - unit).toNat
  if negative then -(magnitude : Int) else magnitude

/-- **The exact sum.** Opposite infinities have none. A zero sum is negative only if both terms are: two
numbers that cancel give the positive zero. -/
def add : Exact → Exact → Exact
  | .nan, _ | _, .nan => .nan
  | .infinity s, .infinity t => if s = t then .infinity s else .nan
  | .infinity s, .finite .. => .infinity s
  | .finite .., .infinity t => .infinity t
  | .finite s a d, .finite t b e =>
    let unit := min d e
    let sum := scaled s a d unit + scaled t b e unit
    if sum = 0 then .finite (s && t) 0 unit else .finite (sum < 0) sum.natAbs unit

/-- **The exact product.** Zero times infinity has none. The sign is the product of the signs, for zeros
and infinities too. -/
def mul : Exact → Exact → Exact
  | .nan, _ | _, .nan => .nan
  | .infinity s, .infinity t => .infinity (s != t)
  | .infinity s, .finite t b _ => if b = 0 then .nan else .infinity (s != t)
  | .finite s a _, .infinity t => if a = 0 then .nan else .infinity (s != t)
  | .finite s a d, .finite t b e => .finite (s != t) (a * b) (d + e)

end Exact

end SparseDot
