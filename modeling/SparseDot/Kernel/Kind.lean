import SparseDot.Text.Json.Basic

set_option autoImplicit false

/-!
# Kinds of kernels

A caller that picks a kernel when the program runs does so by a kind, which has a name.

## Main definitions

* `SparseDot.Kernel.Kind` — the kernels to pick from.
* `SparseDot.Kernel.Kind.name`, `SparseDot.Kernel.Kind.parse` — names, and reading them.
* `SparseDot.Kernel.Kind.toJson`, `SparseDot.Kernel.Kind.ofJson?` — kinds as JSON values.
-/

namespace SparseDot.Kernel

/-- **The kernels to pick from.** -/
inductive Kind where
  | scalar
  | int8
  | simd
  deriving DecidableEq, Repr

/-- A name that is not the name of a kind. -/
structure InvalidVariant where
  text : String
  deriving DecidableEq, Repr

/-- The text of the error. -/
def InvalidVariant.message (e : InvalidVariant) : String := s!"invalid variant: {e.text}"

namespace Kind

/-- All kinds, in order. -/
def all : List Kind := [.scalar, .int8, .simd]

/-- The name of a kind. -/
def name : Kind → String
  | .scalar => "scalar"
  | .int8 => "int8"
  | .simd => "simd"

/-- The kind with exactly this name. -/
def ofName? (text : String) : Option Kind := all.find? fun kind => kind.name == text

/-- **The kind that a text names.** The case of letters may be ignored, for ASCII letters only. -/
def parse (ignoreCase : Bool) (text : String) : Except InvalidVariant Kind :=
  match ofName? (if ignoreCase then text.map Char.toLower else text) with
  | some kind => .ok kind
  | none => .error ⟨text⟩

/-- A kind as a JSON value: its name. -/
def toJson (kind : Kind) : Json := .text kind.name

/-- **The kind that a JSON value stands for**: the name alone, or an object with that name as its one
field and nothing in it. -/
def ofJson? : Json → Option Kind
  | .text name => ofName? name
  | .object [(name, .null)] => ofName? name
  | _ => none

/-- Every kind is read back from its name. -/
theorem ofName?_name (kind : Kind) : ofName? kind.name = some kind := by
  cases kind <;> decide

end Kind

end SparseDot.Kernel
