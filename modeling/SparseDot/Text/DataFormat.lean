import SparseDot.Text.Json.Basic

set_option autoImplicit false

/-!
# Data formats

A record is written by naming its fields, and read by asking for them. How texts, numbers, lists and records look
as values is the matter of a format.

## Main definitions

* `SparseDot.DataFormat` — writing values, and reading them.
* `SparseDot.Json.format` — the format of JSON values.
-/

namespace SparseDot

/-- **A data format** with values in `α`. -/
structure DataFormat (α : Type) where
  /-- The value that stands for nothing. -/
  null : α
  /-- Writes a text. -/
  text : String → α
  /-- Writes a number. -/
  number : Binary64 → α
  /-- Writes a list. -/
  list : List α → α
  /-- Writes a record with these fields. -/
  record : List (String × α) → α
  /-- Reads a text. -/
  text? : α → Option String
  /-- Reads a number. -/
  number? : α → Option Binary64
  /-- Reads a list. -/
  list? : α → Option (List α)
  /-- Reads the fields of a record that have these names, in the order of the names. -/
  fields? : List String → α → Option (List α)

namespace Json

/-- The fields with these names, from an object, which may have others as well, or from the list of their values. -/
def fieldsNamed? (names : List String) : Json → Option (List Json)
  | .list items => if items.length = names.length then some items else none
  | .object fields => names.mapM fun name => fields.lookup name
  | _ => none

/-- **The format of JSON values.** -/
def format : DataFormat Json where
  null := .null
  text := .text
  number := ofBinary
  list := .list
  record := .object
  text? := toText?
  number? := toBinary?
  list? := toList?
  fields? := fieldsNamed?

end Json

end SparseDot
