import SparseDot.Text.Json.Basic

set_option autoImplicit false

/-!
# Reading JSON

A text is read as a JSON value, or not at all if it is none. What is read of a number is at most a significand
of 64 bits, which is then scaled by a power of ten in double precision.

## Main definitions

* `SparseDot.Json.Numeral` — the characters of a number, taken apart.
* `SparseDot.Json.parse?` — the value of a text, if it is JSON.

## Design

The readers work on lists of characters and give what they read with the rest of the list. A value
holds other values, so the readers of values have a bound on their depth. One more than the number of
characters is enough: every call takes a character and hands on a bound that is smaller by one, so that
the bound stays above the number of characters that are left.
-/

namespace SparseDot.Json

/-- The text without the blanks in front. -/
def skipBlank : List Char → List Char
  | [] => []
  | c :: rest => if c = ' ' ∨ c = '\n' ∨ c = '\r' ∨ c = '\t' then skipBlank rest else c :: rest

/-! ## Numbers -/

/-- The value of a decimal digit. -/
def digit? (c : Char) : Option Nat :=
  if '0' ≤ c ∧ c ≤ '9' then some (c.toNat - '0'.toNat) else none

/-- **Takes digits into a significand while it fits 64 bits.** Gives the significand, how many digits it
took, and the rest. -/
def takeDigits (significand taken : Nat) : List Char → Nat × Nat × List Char
  | [] => (significand, taken, [])
  | c :: rest =>
    match digit? c with
    | some d =>
      if 10 * significand + d < UInt64.size then takeDigits (10 * significand + d) (taken + 1) rest
      else (significand, taken, c :: rest)
    | none => (significand, taken, c :: rest)

/-- Leaves out digits. Gives how many there were, and the rest. -/
def dropDigits (dropped : Nat) : List Char → Nat × List Char
  | [] => (dropped, [])
  | c :: rest => if (digit? c).isSome then dropDigits (dropped + 1) rest else (dropped, c :: rest)

/-- Reads the digits of an exponent, of which there has to be one. -/
def exponentDigits? (text : List Char) : Option (Nat × List Char) :=
  match text with
  | c :: _ =>
    if (digit? c).isSome then
      let digits := text.takeWhile fun c => (digit? c).isSome
      some (digits.foldl (fun n c => 10 * n + (digit? c).getD 0) 0, text.drop digits.length)
    else none
  | [] => none

/-- **A number taken apart**: `± significand · 10 ^ exponent`, and whether it was written as an integer. -/
structure Numeral where
  negative : Bool
  significand : Nat
  exponent : Int
  whole : Bool

/-- Reads the exponent of a numeral, if it has one. -/
def exponentOf? (numeral : Numeral) (text : List Char) : Option (Numeral × List Char) :=
  match text with
  | c :: rest =>
    if c = 'e' ∨ c = 'E' then
      let (negative, rest) :=
        match rest with
        | '-' :: rest => (true, rest)
        | '+' :: rest => (false, rest)
        | rest => (false, rest)
      (exponentDigits? rest).map fun (e, rest) =>
        let e : Int := if negative then -e else e
        (⟨numeral.negative, numeral.significand, numeral.exponent + e, false⟩, rest)
    else some (numeral, text)
  | [] => some (numeral, [])

/-- **Reads a numeral.** Digits that do not fit the significand are left out; those in front of the point
count in the exponent. -/
def numeral? (text : List Char) : Option (Numeral × List Char) :=
  let (negative, text) :=
    match text with
    | '-' :: rest => (true, rest)
    | text => (false, text)
  let integer : Option (Nat × Nat × List Char) :=
    match text with
    | '0' :: c :: rest => if (digit? c).isSome then none else some (0, 0, c :: rest)
    | _ =>
      let (significand, taken, rest) := takeDigits 0 0 text
      if taken = 0 then none
      else
        let (dropped, rest) := dropDigits 0 rest
        some (significand, dropped, rest)
  match integer with
  | none => none
  | some (significand, dropped, '.' :: rest) =>
    let (significand', taken, after) := takeDigits significand 0 rest
    let (alsoDropped, after) := dropDigits 0 after
    if taken + alsoDropped = 0 then none
    else exponentOf? ⟨negative, significand', dropped - (taken : Int), false⟩ after
  | some (significand, dropped, rest) => exponentOf? ⟨negative, significand, dropped, dropped = 0⟩ rest

/-- The double nearest to a power of ten. -/
def powerOfTen (n : Nat) : Binary64 := Binary.nearest false (Nat.pow 10 n) 1 0

/-- **A double times a power of ten.** It takes one multiplication or division for every factor up to
`10 ^ 308`. A result above all doubles is none. -/
def scale? (x : Binary64) (e : Int) : Option Binary64 :=
  if e.natAbs ≤ 308 then
    if 0 ≤ e then
      let y := x * powerOfTen e.natAbs
      if y.isFinite then some y else none
    else some (x / powerOfTen e.natAbs)
  else if x.eqv (Binary.zero false) then some x
  else if 0 ≤ e then none
  else scale? (x / powerOfTen 308) (e + 308)
termination_by e.natAbs
decreasing_by omega

/-- **The value of a numeral.** Integers stay integers if 64 bits hold them with their sign; the integer
`-0` is the negative zero. -/
def ofNumeral? (numeral : Numeral) : Option Json :=
  let n := numeral.significand
  if numeral.whole && !numeral.negative then some (.int n)
  else if numeral.whole && 0 < n && n ≤ 1 <<< 63 then some (.int (-n))
  else
    (scale? (Binary.ofNat n) numeral.exponent).map fun x => .real (if numeral.negative then -x else x)

/-! ## Strings -/

/-- The value of a hexadecimal digit of either case. -/
def hexDigit? (c : Char) : Option Nat :=
  if '0' ≤ c ∧ c ≤ '9' then some (c.toNat - '0'.toNat)
  else if 'a' ≤ c ∧ c ≤ 'f' then some (c.toNat - 'a'.toNat + 10)
  else if 'A' ≤ c ∧ c ≤ 'F' then some (c.toNat - 'A'.toNat + 10)
  else none

/-- Reads four hexadecimal digits. -/
def hexUnit? : List Char → Option (Nat × List Char)
  | a :: b :: c :: d :: rest => do
    let a ← hexDigit? a
    let b ← hexDigit? b
    let c ← hexDigit? c
    let d ← hexDigit? d
    return (((a * 16 + b) * 16 + c) * 16 + d, rest)
  | _ => none

/-- Reads the character of an escape, behind its backslash. A character past the first plane is written
as a pair of units. -/
def escaped? : List Char → Option (Char × List Char)
  | '"' :: rest => some ('"', rest)
  | '\\' :: rest => some ('\\', rest)
  | '/' :: rest => some ('/', rest)
  | 'b' :: rest => some ('\x08', rest)
  | 'f' :: rest => some ('\x0c', rest)
  | 'n' :: rest => some ('\n', rest)
  | 'r' :: rest => some ('\r', rest)
  | 't' :: rest => some ('\t', rest)
  | 'u' :: rest => do
    let (unit, rest) ← hexUnit? rest
    if 0xD800 ≤ unit ∧ unit < 0xDC00 then
      match rest with
      | '\\' :: 'u' :: rest => do
        let (low, rest) ← hexUnit? rest
        if 0xDC00 ≤ low ∧ low < 0xE000 then
          return (Char.ofNat (0x10000 + (unit - 0xD800) * 0x400 + (low - 0xDC00)), rest)
        else none
      | _ => none
    else if 0xDC00 ≤ unit ∧ unit < 0xE000 then none
    else return (Char.ofNat unit, rest)
  | _ => none

/-- Reads the characters of a string up to its closing quote, behind the ones read so far. -/
def string? : Nat → List Char → List Char → Option (String × List Char)
  | 0, _, _ => none
  | _ + 1, _, [] => none
  | fuel + 1, seen, c :: rest =>
    if c = '"' then some (String.ofList seen.reverse, rest)
    else if c = '\\' then
      match escaped? rest with
      | some (c, rest) => string? fuel (c :: seen) rest
      | none => none
    else if c.toNat < 0x20 then none
    else string? fuel (c :: seen) rest

/-! ## Values -/

/-- The fields with one more; a field of the same name is replaced by it. -/
def setField (fields : List (String × Json)) (name : String) (value : Json) : List (String × Json) :=
  if fields.any (·.1 == name) then
    fields.map fun field => if field.1 == name then (name, value) else field
  else fields ++ [(name, value)]

mutual

/-- Reads a value, with the blanks in front. -/
def value? : Nat → List Char → Option (Json × List Char)
  | 0, _ => none
  | depth + 1, chars =>
    match skipBlank chars with
    | 'n' :: 'u' :: 'l' :: 'l' :: rest => some (.null, rest)
    | 't' :: 'r' :: 'u' :: 'e' :: rest => some (.bool true, rest)
    | 'f' :: 'a' :: 'l' :: 's' :: 'e' :: rest => some (.bool false, rest)
    | '"' :: rest => (string? depth [] rest).map fun (s, rest) => (.text s, rest)
    | '[' :: rest =>
      match skipBlank rest with
      | ']' :: rest => some (.list [], rest)
      | rest => (items? depth rest).map fun (items, rest) => (.list items, rest)
    | '\x7b' :: rest =>
      match skipBlank rest with
      | '\x7d' :: rest => some (.object [], rest)
      | rest => (fields? depth [] rest).map fun (fields, rest) => (.object fields, rest)
    | chars =>
      match numeral? chars with
      | some (numeral, rest) => (ofNumeral? numeral).map fun value => (value, rest)
      | none => none

/-- Reads the items of a list up to its closing bracket. -/
def items? : Nat → List Char → Option (List Json × List Char)
  | 0, _ => none
  | depth + 1, chars =>
    match value? depth chars with
    | none => none
    | some (value, rest) =>
      match skipBlank rest with
      | ',' :: rest => (items? depth rest).map fun (values, rest) => (value :: values, rest)
      | ']' :: rest => some ([value], rest)
      | _ => none

/-- Reads the fields of an object up to its closing brace, behind the ones read so far. -/
def fields? : Nat → List (String × Json) → List Char → Option (List (String × Json) × List Char)
  | 0, _, _ => none
  | depth + 1, seen, chars =>
    match skipBlank chars with
    | '"' :: rest =>
      match string? depth [] rest with
      | none => none
      | some (name, rest) =>
        match skipBlank rest with
        | ':' :: rest =>
          match value? depth rest with
          | none => none
          | some (value, rest) =>
            match skipBlank rest with
            | ',' :: rest => fields? depth (setField seen name value) rest
            | '\x7d' :: rest => some (setField seen name value, rest)
            | _ => none
        | _ => none
    | _ => none

end

/-- **The value of a text**, if the text is one JSON value between blanks. -/
def parse? (source : String) : Option Json :=
  let chars := source.toList
  match value? (chars.length + 1) chars with
  | some (value, rest) => if (skipBlank rest).isEmpty then some value else none
  | none => none

end SparseDot.Json
