import SparseDot.Bench.Options

set_option autoImplicit false

/-!
# The command line of the bench

Arguments are read from left to right, and the first error ends the reading. An option takes its value from
behind an equals sign or from the next argument, and each option may be given once.

## Main definitions

* `SparseDot.Bench.Ending` — why the reading ends without options: a question, or an error.
* `SparseDot.Bench.Argument` — what an argument looks like.
* `SparseDot.Bench.Reading` — what has been read so far.
* `SparseDot.Bench.parse` — the options of a command line.

## Design

An option whose value is the next argument stays pending, and the value is looked at only when the option is
left: by the next option that is known, or by the end of the command line. An unknown argument is an error of
its own, whatever is pending.
-/

namespace SparseDot.Bench

/-- **Why the reading of a command line ends without options.** -/
inductive Ending where
  /-- The help text is asked for. -/
  | help
  /-- The version is asked for. -/
  | version
  /-- There is no such option, and no place for such an argument. -/
  | unknownArgument (argument : String)
  /-- An option has no value. -/
  | missingValue (option : Valued)
  /-- The value of the kernel is not the name of one. -/
  | unknownKernel (value : String)
  /-- The value of an option is not a number of 64 bits. -/
  | notANumber (option : Valued) (value : String)
  /-- Something that takes no value is given one. -/
  | unexpectedValue (name : String)
  /-- An option is given a second time. -/
  | repeated (name : String)
  deriving DecidableEq, Repr

/-- The text of an error. -/
def Ending.message : Ending → String
  | .help => helpText
  | .version => versionText
  | .unknownArgument argument => s!"unexpected argument '{argument}' found"
  | .missingValue option => s!"a value is required for '--{option.name}' but none was supplied"
  | .unknownKernel value => s!"invalid value '{value}' for '--kernel'"
  | .notANumber option value => s!"invalid value '{value}' for '--{option.name}'"
  | .unexpectedValue name => s!"unexpected value for '--{name}'; no more were expected"
  | .repeated name => s!"the argument '--{name}' cannot be used multiple times"

/-! ## Arguments -/

/-- **What an argument looks like.** -/
inductive Argument where
  /-- Two hyphens alone: no options follow. -/
  | separator
  /-- Two hyphens and a name, perhaps with a value behind an equals sign. -/
  | long (name : String) (value : Option String)
  /-- A hyphen and letters. -/
  | short (letters : List Char)
  /-- Anything else. -/
  | word (text : String)
  deriving DecidableEq, Repr

/-- The characters in front of the first equals sign, and those behind it if there is one. -/
def splitAtEquals : List Char → List Char × Option (List Char)
  | [] => ([], none)
  | '=' :: rest => ([], some rest)
  | c :: rest =>
    let (front, behind) := splitAtEquals rest
    (c :: front, behind)

/-- **Tells what an argument looks like.** -/
def Argument.ofText (text : String) : Argument :=
  match text.toList with
  | ['-', '-'] => .separator
  | '-' :: '-' :: rest =>
    let (name, value) := splitAtEquals rest
    .long (String.ofList name) (value.map String.ofList)
  | '-' :: letter :: letters => .short (letter :: letters)
  | _ => .word text

/-! ## Values -/

/-- **The number that a text stands for**: decimal digits, perhaps behind a plus sign, that fit 64 bits. -/
def parseNumber? (text : String) : Option Nat :=
  let digits :=
    match text.toList with
    | '+' :: rest => rest
    | chars => chars
  if digits.isEmpty || !digits.all Char.isDigit then none
  else
    let n := digits.foldl (fun n c => 10 * n + (c.toNat - '0'.toNat)) 0
    if n < UInt64.size then some n else none

/-- The options with one of them set to the number that a text stands for. -/
def setNumber (option : Valued) (value : String) (set : Nat → Options) : Except Ending Options :=
  match parseNumber? value with
  | some n => .ok (set n)
  | none => .error (.notANumber option value)

/-- **The options with one of them set to a value.** -/
def Options.set (options : Options) (option : Valued) (value : String) : Except Ending Options :=
  match option with
  | .kernel =>
    match Kernel.Kind.ofName? value with
    | some kernel => .ok { options with kernel := kernel }
    | none => .error (.unknownKernel value)
  | .sparseLength => setNumber option value fun n => { options with sparseLength := n }
  | .denseLength => setNumber option value fun n => { options with denseLength := n }
  | .iterations => setNumber option value fun n => { options with iterations := n }
  | .threads => setNumber option value fun n => { options with threads := n }
  | .seed => setNumber option value fun n => { options with seed := UInt64.ofNat n }

/-- The options with a flag set. -/
def Options.raise (options : Options) : Flag → Options
  | .timing => { options with timing := true }
  | .json => { options with json := true }

/-! ## Reading -/

/-- **What has been read so far.** -/
structure Reading where
  /-- The options as far as they are known. -/
  options : Options
  /-- The names of the options that have been given. -/
  given : List String
  /-- An option that waits for its value, or for its value to be looked at. -/
  pending : Option (Valued × Option String)
  /-- Whether a separator has been read. -/
  separated : Bool

namespace Reading

/-- Nothing has been read. -/
def start : Reading := ⟨{}, [], none, false⟩

variable (r : Reading)

/-- Marks an option as given, which is possible once. -/
def give (name : String) : Except Ending Reading :=
  if r.given.contains name then .error (.repeated name) else .ok { r with given := name :: r.given }

/-- Gives an option its value. -/
def giveValue (option : Valued) (value : String) : Except Ending Reading := do
  let r ← r.give option.name
  return { r with options := ← r.options.set option value }

/-- **Leaves the pending option**, which has to have a value by now. -/
def settle : Except Ending Reading :=
  match r.pending with
  | none => .ok r
  | some (option, none) => .error (.missingValue option)
  | some (option, some value) => { r with pending := none }.giveValue option value

/-- Reads an option with a value, which is behind an equals sign or follows. -/
def readValued (option : Valued) (value : Option String) : Except Ending Reading := do
  let r ← r.settle
  match value with
  | some value => r.giveValue option value
  | none => return { r with pending := some (option, none) }

/-- Reads a flag. -/
def readFlag (flag : Flag) : Except Ending Reading := do
  let r ← r.settle
  let r ← r.give flag.name
  return { r with options := r.options.raise flag }

/-- Ends the reading with an answer, unless the pending option is in error. -/
def answer (ending : Ending) : Except Ending Reading := do
  let _ ← r.settle
  throw ending

/-- Reads a name behind two hyphens. -/
def readLong (name : String) (value : Option String) : Except Ending Reading :=
  match Valued.all.find? (·.name == name) with
  | some option => r.readValued option value
  | none =>
    let bare (read : Except Ending Reading) : Except Ending Reading :=
      if value.isSome then .error (.unexpectedValue name) else read
    match Flag.all.find? (·.name == name) with
    | some flag => bare (r.readFlag flag)
    | none =>
      if name = "help" then bare (r.answer .help)
      else if name = "version" then bare (r.answer .version)
      else .error (.unknownArgument name)

/-- Reads letters behind a hyphen, of which the first decides. -/
def readShort : List Char → Except Ending Reading
  | 'h' :: _ => r.answer .help
  | 'V' :: _ => r.answer .version
  | letters => .error (.unknownArgument (String.ofList letters))

/-- Reads an argument that is no option: the value of the pending one. -/
def readWord (text : String) : Except Ending Reading :=
  match r.pending with
  | some (option, none) => .ok { r with pending := some (option, some text) }
  | _ => .error (.unknownArgument text)

/-- **Reads one argument.** -/
def read (text : String) : Except Ending Reading :=
  if r.separated then .error (.unknownArgument text)
  else
    match Argument.ofText text with
    | .separator => .ok { r with separated := true }
    | .long name value => r.readLong name value
    | .short letters => r.readShort letters
    | .word text => r.readWord text

end Reading

/-- **The options of a command line.** -/
def parse (arguments : List String) : Except Ending Options := do
  let r ← arguments.foldlM Reading.read Reading.start
  let r ← r.settle
  return r.options

end SparseDot.Bench
