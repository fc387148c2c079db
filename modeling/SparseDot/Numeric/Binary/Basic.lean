set_option autoImplicit false

/-!
# Binary floating point values

A binary format has finitely many non-negative numbers. Listed in increasing order they get the ranks
`0, 1, 2, …`: zero has rank `0`, the smallest subnormal number rank `1`, and infinity comes right after
the largest finite number. A value is a sign with such a rank, or one of the special values; the interchange
encoding of a value is its rank with the sign bit in front.

## Main definitions

* `SparseDot.Format` — a format, given by its precision and the width of its exponent field.
* `SparseDot.Binary` — the values of a format.
* `SparseDot.Format.coefficient`, `SparseDot.Format.step` — the number with a given rank is
  `coefficient · 2 ^ (minExponent + step)`.
* `SparseDot.Binary32`, `SparseDot.Binary64` — the two formats in use.

## Design

Ranks make the order of values the order of natural numbers, and make rounding into the next binade a
carry of ordinary addition: the rank of coefficient `2 ^ precision` at one step is the rank of
`2 ^ (precision - 1)` at the next.
-/

namespace SparseDot

/-- **A binary interchange format.** All its other constants follow from the precision (the number of
bits of a coefficient, leading bit included) and the width of the exponent field. -/
structure Format where
  /-- The number of bits of a coefficient. -/
  precision : Nat
  /-- The number of bits of the exponent field. -/
  exponentWidth : Nat
  deriving DecidableEq, Repr

namespace Format

/-- Single precision. -/
def single : Format := ⟨24, 8⟩

/-- Double precision. -/
def double : Format := ⟨53, 11⟩

variable (fmt : Format)

/-- The smallest coefficient of a normal number. -/
def leading : Nat := 1 <<< (fmt.precision - 1)

/-- The exponent of the unit in which subnormal numbers are counted. -/
def minExponent : Int := 3 - (1 <<< (fmt.exponentWidth - 1) : Nat) - fmt.precision

/-- The rank of infinity, one past the rank of the largest finite number. -/
def infinityRank : Nat := ((1 <<< fmt.exponentWidth) - 1) <<< (fmt.precision - 1)

/-- The weight of the sign bit in the encoding. -/
def signWeight : Nat := 1 <<< (fmt.exponentWidth + fmt.precision - 1)

/-- How many binades above the subnormal unit the number with this rank is counted. -/
def step (rank : Nat) : Nat := (rank >>> (fmt.precision - 1)) - 1

/-- The coefficient of the number with this rank, counted in units of its step. -/
def coefficient (rank : Nat) : Nat := rank - fmt.step rank <<< (fmt.precision - 1)

/-- The exponent of the unit in which the number with this rank is counted. -/
def exponent (rank : Nat) : Int := fmt.minExponent + fmt.step rank

end Format

/-- **A value of a binary format.** All NaNs are one value; the two zeros are different values that
compare equal. -/
inductive Binary (fmt : Format) where
  /-- The number with this sign and rank. -/
  | finite (negative : Bool) (rank : Nat) (below : rank < fmt.infinityRank)
  /-- An infinity. -/
  | infinity (negative : Bool)
  /-- Not a number. -/
  | nan
  deriving DecidableEq

/-- A single precision value. -/
abbrev Binary32 := Binary Format.single

/-- A double precision value. -/
abbrev Binary64 := Binary Format.double

namespace Binary

variable {fmt : Format}

/-- The value with this sign and rank; from the rank of infinity on it is infinite. -/
def ofRank (negative : Bool) (rank : Nat) : Binary fmt :=
  if below : rank < fmt.infinityRank then .finite negative rank below else .infinity negative

/-- A zero with the given sign. -/
def zero (negative : Bool) : Binary fmt := ofRank negative 0

/-- Whether the value is a NaN. -/
def isNaN : Binary fmt → Bool
  | .nan => true
  | _ => false

/-- Whether the value is a number, neither infinite nor NaN. -/
def isFinite : Binary fmt → Bool
  | .finite .. => true
  | _ => false

/-- The value with the opposite sign. -/
def neg : Binary fmt → Binary fmt
  | .finite s r h => .finite (!s) r h
  | .infinity s => .infinity (!s)
  | .nan => .nan

/-! ## Comparison -/

/-- A signed rank: both zeros are at `0`, and larger values are at larger places. A NaN has no place. -/
def place? : Binary fmt → Option Int
  | .finite s r _ => some (if s then -r else r)
  | .infinity s => some (if s then -fmt.infinityRank else fmt.infinityRank)
  | .nan => none

/-- Numeric `x < y`, which is false as soon as one of the two is a NaN. -/
def lt (x y : Binary fmt) : Bool :=
  match x.place?, y.place? with
  | some a, some b => a < b
  | _, _ => false

/-- Numeric `x ≤ y`, which is false as soon as one of the two is a NaN. -/
def le (x y : Binary fmt) : Bool :=
  match x.place?, y.place? with
  | some a, some b => a ≤ b
  | _, _ => false

/-- Numeric equality: the two zeros are equal, and a NaN is equal to nothing. -/
def eqv (x y : Binary fmt) : Bool :=
  match x.place?, y.place? with
  | some a, some b => a == b
  | _, _ => false

/-- The larger of two values; a NaN gives way to the other one. -/
def max (x y : Binary fmt) : Binary fmt :=
  if x.isNaN then y else if x.lt y then y else x

/-- The smaller of two values; a NaN gives way to the other one. -/
def min (x y : Binary fmt) : Binary fmt :=
  if x.isNaN then y else if y.lt x then y else x

/-! ## Encoding -/

/-- The value encoded by a word of the format. -/
def ofBits (fmt : Format) (word : Nat) : Binary fmt :=
  let negative := fmt.signWeight ≤ word
  let rank := if negative then word - fmt.signWeight else word
  if fmt.infinityRank < rank then .nan else ofRank negative rank

/-- The word that encodes the value; `none` for a NaN, which has many. -/
def toBits? : Binary fmt → Option Nat
  | .finite s r _ => some (if s then fmt.signWeight + r else r)
  | .infinity s => some (if s then fmt.signWeight + fmt.infinityRank else fmt.infinityRank)
  | .nan => none

end Binary

end SparseDot
