set_option autoImplicit false

/-!
# Colours in text

A terminal is told the colour of a text by a sequence in front of it, and that the colour ends by another
one behind it. If the text itself holds the sequence that ends a colour, the colour is opened again after
it.

## Main definitions

* `SparseDot.Colour`, `SparseDot.Span` — colours, and texts that have one.
* `SparseDot.Painter`, `SparseDot.terminal` — ways to give a text its colour, and the one of a terminal.
* `SparseDot.wrap` — a text between the sequences that begin and end a colour.
* `SparseDot.renderLines` — lines made of spans, as a painter shows them.
-/

namespace SparseDot

/-! ## Sequences -/

/-- The sequence with these numbers. -/
def sequence (numbers : List Char) : List Char := '\x1b' :: '[' :: numbers ++ ['m']

/-- The sequence that ends a colour. -/
def reset : List Char := ['\x1b', '[', '0', 'm']

/-- The text with a sequence put after every sequence that ends a colour. -/
def reopen (opening : List Char) : List Char → List Char
  | '\x1b' :: '[' :: '0' :: 'm' :: rest => reset ++ opening ++ reopen opening rest
  | c :: rest => c :: reopen opening rest
  | [] => []

/-- **The text between the sequence with these numbers and the one that ends a colour.** -/
def wrap (numbers text : List Char) : List Char :=
  sequence numbers ++ reopen (sequence numbers) text ++ reset

/-! ## Colours -/

/-- The colours in use. -/
inductive Colour where
  | green
  | blue
  | yellow
  | cyan
  deriving DecidableEq, Repr

/-- The number of a colour. -/
def Colour.code : Colour → List Char
  | .green => ['3', '2']
  | .blue => ['3', '4']
  | .yellow => ['3', '3']
  | .cyan => ['3', '6']

/-- **A way to give a text a colour.** -/
abbrev Painter := Colour → List Char → List Char

/-- **The painter of a terminal**, with colours switched on or off. -/
def terminal (colours : Bool) : Painter := fun colour text =>
  if colours then wrap colour.code text else text

/-! ## Lines -/

/-- **A text with a colour.** -/
structure Span where
  colour : Colour
  text : String
  deriving DecidableEq, Repr

/-- The characters of a span in its colour. -/
def Span.chars (painter : Painter) (span : Span) : List Char := painter span.colour span.text.toList

/-- The characters of a line made of spans, with the end of the line. -/
def lineChars (painter : Painter) (line : List Span) : List Char :=
  line.flatMap (Span.chars painter) ++ ['\n']

/-- **Lines made of spans**, each line ended. -/
def renderLines (painter : Painter) (lines : List (List Span)) : String :=
  String.ofList (lines.flatMap (lineChars painter))

end SparseDot
