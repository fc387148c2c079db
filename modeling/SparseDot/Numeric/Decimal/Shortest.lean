import SparseDot.Numeric.Binary.Arithmetic

set_option autoImplicit false

/-!
# Shortest decimals

The shortest decimal of a double is the one with the fewest digits that is read back as the same double,
and the nearest to it of those. It lies on the coarsest decimal grid with a point in the interval of reals
that round to the double. The bounds of that interval are half way to the neighbouring doubles, and belong
to it exactly if the rank of the double is even.

## Main definitions

* `SparseDot.Decimal.gridPoint?` — the point of the grid `10 ^ k` that stands for a double, if it has one.
* `SparseDot.Decimal.shortest` — digits and exponent of the shortest decimal.
* `SparseDot.Decimal.NumberStyle`, `SparseDot.Decimal.render` — how digits and exponent become a text.
-/

namespace SparseDot.Decimal

/-- The double with this rank, counted in subnormal units. -/
def unitsOf (rank : Nat) : Nat := Format.double.coefficient rank <<< Format.double.step rank

/-- **The multiple of `10 ^ k` that stands for the double with this positive rank**: the one nearest to it,
if that rounds to the double. It is given by its factor. -/
def gridPoint? (rank : Nat) (k : Int) : Option Nat :=
  -- Twice the double and twice its bounds, in subnormal units, so that all three are whole.
  let middle := 2 * unitsOf rank
  let low := unitsOf (rank - 1) + unitsOf rank
  let high := unitsOf rank + unitsOf (rank + 1)
  -- A point `c` of the grid lies at `c * den` if the three above are multiplied by `num`.
  let num := Nat.pow 10 (-k).toNat
  let den := Nat.pow 10 k.toNat <<< (1 - Format.double.minExponent).toNat
  let inside (c : Nat) : Bool :=
    if rank % 2 = 0 then low * num ≤ c * den && c * den ≤ high * num
    else low * num < c * den && c * den < high * num
  let below := middle * num / den
  let nearest := roundDiv .toEven (middle * num) den
  if inside nearest then some nearest
  else if inside below then some below
  else if inside (below + 1) then some (below + 1)
  else none

/-- **The shortest decimal of the double with this positive rank**, as digits `m` and exponent `k` of
`m · 10 ^ k`. The grids are tried from the coarsest on: every double is below `10 ^ 309`, and no two are
nearer to each other than a unit of the grid `10 ^ -324`. -/
def shortest (rank : Nat) : Nat × Int :=
  let found := (List.range 634).findSome? fun (i : Nat) =>
    let k : Int := 309 - i
    (gridPoint? rank k).map fun m => (m, k)
  found.getD (0, 0)

/-- **Where a number is written with an exponent.** With the number as `d.ddd · 10 ^ e`, it is written out
in full for `e` from `lowest` to `highest`. -/
structure NumberStyle where
  /-- The smallest `e` that is written out. -/
  lowest : Int
  /-- The largest `e` that is written out. -/
  highest : Int

/-- The digits `m`, scaled by `10 ^ k`, as a text. A number that is written out has at least one digit
after the point; an exponent has always a sign. -/
def place (style : NumberStyle) (m : Nat) (k : Int) : String :=
  let digits := (toString m).toList
  let e := k + digits.length - 1
  if style.lowest ≤ e ∧ e ≤ style.highest then
    if 0 ≤ k then
      String.ofList (digits ++ List.replicate k.toNat '0') ++ ".0"
    else if 0 ≤ e then
      let whole := e.toNat + 1
      String.ofList (digits.take whole) ++ "." ++ String.ofList (digits.drop whole)
    else
      "0." ++ String.ofList (List.replicate (-e - 1).toNat '0' ++ digits)
  else
    let mantissa :=
      match digits with
      | d :: d' :: rest => String.ofList (d :: '.' :: d' :: rest)
      | _ => String.ofList digits
    mantissa ++ "e" ++ (if e < 0 then "-" else "+") ++ toString e.natAbs

/-- The shortest text of a number with this rank and sign. -/
def render (style : NumberStyle) (negative : Bool) (rank : Nat) : String :=
  let magnitude :=
    if rank = 0 then "0.0"
    else
      let (m, k) := shortest rank
      place style m k
  if negative then "-" ++ magnitude else magnitude

end SparseDot.Decimal
