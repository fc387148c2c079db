import SparseDot.Numeric.Binary.Arithmetic

set_option autoImplicit false

/-!
# JSON values

Reports and names of kernels are exchanged with other programs as JSON. A value is kept as a tree, apart from
its text; the modules next to this one write and read the text.

## Main definitions

* `SparseDot.Json` — JSON values. A number is an integer or a double, as it was written.
* `SparseDot.Json.ofBinary` — a double as a JSON value.
* `SparseDot.Json.toBinary?`, `toText?`, `toList?`, `field?` — views of a value.
-/

namespace SparseDot

/-- **A JSON value.** The fields of an object are in order, and no two have the same name. -/
inductive Json where
  | null
  | bool (value : Bool)
  /-- A number written without point and exponent. -/
  | int (value : Int)
  /-- Any other number. -/
  | real (value : Binary64)
  | text (value : String)
  | list (items : List Json)
  | object (fields : List (String × Json))
  deriving Inhabited

namespace Json

/-- **A double as a JSON value.** JSON has no infinities and no NaN; they become `null`. -/
def ofBinary (x : Binary64) : Json := if x.isFinite then .real x else .null

/-- The number as a double, an integer being rounded to it; `none` if the value is no number. -/
def toBinary? : Json → Option Binary64
  | .int n => some (Binary.ofInt n)
  | .real x => some x
  | _ => none

/-- The text of a string. -/
def toText? : Json → Option String
  | .text s => some s
  | _ => none

/-- The items of a list. -/
def toList? : Json → Option (List Json)
  | .list items => some items
  | _ => none

/-- The field of an object with this name. -/
def field? (name : String) : Json → Option Json
  | .object fields => fields.lookup name
  | _ => none

end Json

end SparseDot
