import SparseDot.Numeric.Binary.Arithmetic

set_option autoImplicit false

/-!
# Decimals with a fixed number of places

A binary number has an exact finite decimal expansion. Printing it with a fixed number of places rounds
that expansion at the last place, and a value exactly half way goes to the even digit.

## Main definitions

* `SparseDot.Decimal.count` — the number of units of the last place nearest to a magnitude.
* `SparseDot.Decimal.fixed` — the text.
-/

namespace SparseDot.Decimal

/-- The magnitude `coefficient · 2 ^ exponent` counted in units of `10 ^ -places`, a half going to the even
count. -/
def count (places coefficient : Nat) (exponent : Int) : Nat :=
  roundDiv .toEven ((coefficient * Nat.pow 10 places) <<< exponent.toNat) (1 <<< (-exponent).toNat)

/-- The digits of a number, with zeros in front up to a width. -/
def paddedDigits (width n : Nat) : String :=
  let digits := toString n
  String.ofList (List.replicate (width - digits.length) '0') ++ digits

/-- A count of units of the last place as a decimal with a point. -/
def ofCount (places n : Nat) : String :=
  let unit := Nat.pow 10 places
  toString (n / unit) ++ "." ++ paddedDigits places (n % unit)

/-- **The decimal text of a value with a fixed number of places.** A negative sign stays even when only
zeros are left after it. -/
def fixed {fmt : Format} (places : Nat) : Binary fmt → String
  | .finite s r _ =>
    (if s then "-" else "") ++ ofCount places (count places (fmt.coefficient r) (fmt.exponent r))
  | .infinity s => if s then "-inf" else "inf"
  | .nan => "NaN"

end SparseDot.Decimal
