import SparseDot.Numeric.Decimal.Shortest
import SparseDot.Text.Json.Basic

set_option autoImplicit false

/-!
# Writing JSON

A value has two texts: a compact one on a single line, and an indented one for people to read. Both write
numbers and strings in the same way, and the fields of an object in their order.

## Main definitions

* `SparseDot.Json.numberStyle` — where JSON numbers get an exponent.
* `SparseDot.Json.quote` — a string in quotes.
* `SparseDot.Json.compact` — the text without any blanks.
* `SparseDot.Json.pretty` — the text with an item a line, two blanks a level.
-/

namespace SparseDot.Json

/-- JSON numbers are written out from `0.00001` up to `9999999999999999.0`. -/
def numberStyle : Decimal.NumberStyle := ⟨-5, 15⟩

/-- A double as a JSON number; infinities and NaN are `null`. -/
def number : Binary64 → String
  | .finite s r _ => Decimal.render numberStyle s r
  | _ => "null"

/-- One hexadecimal digit in lower case. -/
private def hexDigit (n : Nat) : Char :=
  Char.ofNat (if n < 10 then 0x30 + n else 0x57 + n)

/-- **A character inside of a string.** Quotes, backslashes and control characters are escaped, by a
letter where there is one. -/
def escape (c : Char) : List Char :=
  if c = '"' then ['\\', '"']
  else if c = '\\' then ['\\', '\\']
  else if c = '\x08' then ['\\', 'b']
  else if c = '\x0c' then ['\\', 'f']
  else if c = '\n' then ['\\', 'n']
  else if c = '\r' then ['\\', 'r']
  else if c = '\t' then ['\\', 't']
  else if c.toNat < 0x20 then ['\\', 'u', '0', '0', hexDigit (c.toNat / 16), hexDigit (c.toNat % 16)]
  else [c]

/-- A string in quotes. -/
def quote (s : String) : String :=
  "\"" ++ String.ofList (s.toList.flatMap escape) ++ "\""

/-! ## Compact text -/

mutual

/-- **The text without any blanks.** -/
def compact : Json → String
  | .null => "null"
  | .bool b => if b then "true" else "false"
  | .int n => toString n
  | .real x => number x
  | .text s => quote s
  | .list items => "[" ++ ",".intercalate (compactItems items) ++ "]"
  | .object fields => "\x7b" ++ ",".intercalate (compactFields fields) ++ "\x7d"

/-- The texts of the items of a list. -/
def compactItems : List Json → List String
  | [] => []
  | item :: rest => compact item :: compactItems rest

/-- The texts of the fields of an object. -/
def compactFields : List (String × Json) → List String
  | [] => []
  | (name, value) :: rest => (quote name ++ ":" ++ compact value) :: compactFields rest

end

/-! ## Indented text -/

/-- The line break in front of an item at this level. -/
private def lineBreak (level : Nat) : String :=
  "\n" ++ String.ofList (List.replicate (2 * level) ' ')

/-- Items between brackets, each on a line of its own one level further in; no items need no lines. -/
private def bracketed (opening closing : String) (level : Nat) (items : List String) : String :=
  if items.isEmpty then opening ++ closing
  else
    opening ++ lineBreak (level + 1) ++ ("," ++ lineBreak (level + 1)).intercalate items
      ++ lineBreak level ++ closing

mutual

/-- The indented text of a value that starts at this level. -/
def prettyAt (level : Nat) : Json → String
  | .null => "null"
  | .bool b => if b then "true" else "false"
  | .int n => toString n
  | .real x => number x
  | .text s => quote s
  | .list items => bracketed "[" "]" level (prettyItems (level + 1) items)
  | .object fields => bracketed "\x7b" "\x7d" level (prettyFields (level + 1) fields)

/-- The indented texts of the items of a list. -/
def prettyItems (level : Nat) : List Json → List String
  | [] => []
  | item :: rest => prettyAt level item :: prettyItems level rest

/-- The indented texts of the fields of an object. -/
def prettyFields (level : Nat) : List (String × Json) → List String
  | [] => []
  | (name, value) :: rest =>
    (quote name ++ ": " ++ prettyAt level value) :: prettyFields level rest

end

/-- **The text with an item a line, two blanks a level.** -/
def pretty (value : Json) : String := prettyAt 0 value

end SparseDot.Json
