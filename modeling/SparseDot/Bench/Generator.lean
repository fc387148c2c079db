import SparseDot.Numeric.Binary.Arithmetic

set_option autoImplicit false

/-!
# Random numbers

Test vectors are drawn from a small generator with 256 bits of state, so that a seed determines them. Numbers
in a range are drawn by multiplication, and drawn again where that would favour some of them. There is no bound on
that, but the generator has as many states as it has, and one that comes again leads nowhere new.

## Main definitions

* `SparseDot.Bench.Sampler` — what the making of vectors asks of a source of random numbers.
* `SparseDot.Bench.Generator` — the generator, with its seeding and its steps.
* `SparseDot.Bench.Generator.retry` — drawing again.
* `SparseDot.Bench.Generator.sampler` — numbers in a range.
-/

namespace SparseDot.Bench

/-- **A source of random numbers** with states in `γ`. -/
structure Sampler (γ : Type) where
  /-- A value that is at least `low` and below `high`, for `low` below `high`. -/
  single (low high : Binary32) (state : γ) : Binary32 × γ
  /-- A number below a positive bound. -/
  below (bound : Nat) (state : γ) : Nat × γ

/-- Several values, one after the other, behind the ones drawn so far. -/
def drawMany {α γ : Type} (draw : γ → α × γ) : Nat → Array α → γ → Array α × γ
  | 0, drawn, state => (drawn, state)
  | n + 1, drawn, state =>
    let (value, state) := draw state
    drawMany draw n (drawn.push value) state

/-- **The state of the generator**: four words. -/
structure Generator where
  s0 : UInt64
  s1 : UInt64
  s2 : UInt64
  s3 : UInt64
  deriving DecidableEq, Repr

namespace Generator

/-- The word turned to the left by a number of bits between zero and its width. -/
def rotateLeft (x k : UInt64) : UInt64 := (x <<< k) ||| (x >>> (64 - k))

/-! ## Seeding -/

/-- One step of the linear sequence that seeds are spread by. -/
def spread (state : UInt64) : UInt64 := state * 6364136223846793005 + 11634580027462260723

/-- The half word that a state of that sequence gives: some of its bits, turned by its highest ones. -/
def halfWord (state : UInt64) : UInt32 :=
  let x := (((state >>> 18) ^^^ state) >>> 27).toUInt32
  let turn := (state >>> 59).toUInt32
  (x >>> turn) ||| (x <<< ((32 - turn) % 32))

/-- The word made of the next two half words, the lower one first, and the state after them. -/
def seedWord (state : UInt64) : UInt64 × UInt64 :=
  let first := spread state
  let second := spread first
  ((halfWord first).toUInt64 ||| ((halfWord second).toUInt64 <<< 32), second)

/-- **The generator with a seed.** -/
def ofSeed (seed : UInt64) : Generator :=
  let (s0, state) := seedWord seed
  let (s1, state) := seedWord state
  let (s2, state) := seedWord state
  let (s3, _) := seedWord state
  ⟨s0, s1, s2, s3⟩

/-! ## Drawing -/

/-- **The next word.** -/
def next (g : Generator) : UInt64 × Generator :=
  let word := rotateLeft (g.s0 + g.s3) 23 + g.s0
  let s2 := g.s2 ^^^ g.s0
  let s3 := g.s3 ^^^ g.s1
  (word, ⟨g.s0 ^^^ s3, g.s1 ^^^ s2, s2 ^^^ (g.s1 <<< 17), rotateLeft s3 45⟩)

/-- The next value from one up to two, of which 23 bits are random. -/
def fromOneToTwo (g : Generator) : Binary32 × Generator :=
  let (word, g) := g.next
  (Binary.ofBits Format.single (0x3f800000 + (word >>> 41).toNat), g)

/-- Tries to draw a value in a range: rounding may take it to the upper end, and then it is none. -/
def trySingle (low high : Binary32) (g : Generator) : Option Binary32 × Generator :=
  let (value, g) := g.fromOneToTwo
  let scaled := (value - Binary.ofNat 1) * (high - low) + low
  (if scaled.lt high then some scaled else none, g)

/-- Tries to draw a number below a bound. The upper half of the product of a word with the bound is the number;
the lower half tells whether it is one of those that would come too often, and then it is none. -/
def tryBelow (bound : Nat) (g : Generator) : Option Nat × Generator :=
  let zone := (bound <<< (63 - bound.log2)) - 1
  let (word, g) := g.next
  let product := word.toNat * bound
  (if product % UInt64.size ≤ zone then some (product / UInt64.size) else none, g)

/-- Tries again until there is something, up to a number of times. -/
def retry {α : Type} (attempt : Generator → Option α × Generator) (default : α) : Nat → Generator → α × Generator
  | 0, g => (default, g)
  | attempts + 1, g =>
    match attempt g with
    | (some value, g) => (value, g)
    | (none, g) => retry attempt default attempts g

/-- How many states there are. After so many attempts a state has come twice, so that trying again can only go
round in circles. -/
def stateCount : Nat := 1 <<< 256

/-- **Numbers in a range**, from the words of the generator. -/
def sampler : Sampler Generator where
  single low high := retry (trySingle low high) low stateCount
  below bound := retry (tryBelow bound) 0 stateCount

end Generator

end SparseDot.Bench
