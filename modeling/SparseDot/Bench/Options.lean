import SparseDot.Kernel.Kind

set_option autoImplicit false

/-!
# Options of the bench

The options say what is timed and how the times are shown. The help text is made from them, so that it names
every option with the value that it has when it is not given.

## Main definitions

* `SparseDot.Bench.Options` — what is to be timed.
* `SparseDot.Bench.Valued`, `SparseDot.Bench.Flag` — the options with and without a value.
* `SparseDot.Bench.helpText`, `SparseDot.Bench.versionText` — what the program tells about itself.
-/

namespace SparseDot.Bench

/-- **What is to be timed.** -/
structure Options where
  /-- The kernel to run. -/
  kernel : Kernel.Kind := .scalar
  /-- The number of entries in the sparse vector. -/
  sparseLength : Nat := 256
  /-- The length of the dense vector. -/
  denseLength : Nat := 30000
  /-- How often each worker calls the kernel. -/
  iterations : Nat := 10000
  /-- The number of workers. -/
  threads : Nat := 1
  /-- The seed of the vectors. -/
  seed : UInt64 := 0x5eed
  /-- Whether to time whatever the switch says. -/
  timing : Bool := false
  /-- Whether to print the times as JSON. -/
  json : Bool := false
  deriving DecidableEq, Repr

/-- The options with a value. -/
inductive Valued where
  | kernel
  | sparseLength
  | denseLength
  | iterations
  | threads
  | seed
  deriving DecidableEq, Repr

/-- The options without a value. -/
inductive Flag where
  | timing
  | json
  deriving DecidableEq, Repr

/-- All options with a value, in the order of the help text. -/
def Valued.all : List Valued := [.kernel, .sparseLength, .denseLength, .iterations, .threads, .seed]

/-- All options without a value, in the order of the help text. -/
def Flag.all : List Flag := [.timing, .json]

/-- The name of an option, as it stands behind two hyphens. -/
def Valued.name : Valued → String
  | .kernel => "kernel"
  | .sparseLength => "sparse-len"
  | .denseLength => "dense-len"
  | .iterations => "iters"
  | .threads => "threads"
  | .seed => "seed"

/-- The name of a flag, as it stands behind two hyphens. -/
def Flag.name : Flag → String
  | .timing => "timing"
  | .json => "json"

/-! ## Help -/

/-- The name that stands for the value in the help text. -/
def Valued.placeholder (option : Valued) : String :=
  option.name.map fun c => if c = '-' then '_' else c.toUpper

/-- What an option is for. -/
def Valued.purpose : Valued → String
  | .kernel => "Kernel to run"
  | .sparseLength => "Non-zero entries in the sparse vector"
  | .denseLength => "Length of the dense vector (at most 32768, tokens are i16)"
  | .iterations => "Kernel calls per worker"
  | .threads => "Worker threads"
  | .seed => "RNG seed for the generated vectors"

/-- What a flag is for. -/
def Flag.purpose : Flag → String
  | .timing => "Time even when TIMER_DEBUG is not set"
  | .json => "Print the timing summary as JSON instead of the tree"

/-- The value of an option that is not given. -/
def Valued.default (option : Valued) : String :=
  let options : Options := {}
  match option with
  | .kernel => options.kernel.name
  | .sparseLength => toString options.sparseLength
  | .denseLength => toString options.denseLength
  | .iterations => toString options.iterations
  | .threads => toString options.threads
  | .seed => toString options.seed.toNat

/-- The values that an option can have, where these are few. -/
def Valued.choices : Valued → String
  | .kernel => " [possible values: " ++ ", ".intercalate (Kernel.Kind.all.map Kernel.Kind.name) ++ "]"
  | _ => ""

/-- The rows of the help text: how an option is written, and what it is for. -/
def helpRows : List (String × String) :=
  (Valued.all.map fun o =>
      ("    --" ++ o.name ++ " <" ++ o.placeholder ++ ">",
        o.purpose ++ " [default: " ++ o.default ++ "]" ++ o.choices))
    ++ (Flag.all.map fun f => ("    --" ++ f.name, f.purpose))
    ++ [("-h, --help", "Print help"), ("-V, --version", "Print version")]

/-- **The help text.** -/
def helpText : String :=
  let width := helpRows.foldl (fun w row => max w row.1.length) 0 + 2
  let row (written purpose : String) : String :=
    "  " ++ written ++ String.ofList (List.replicate (width - written.length) ' ') ++ purpose ++ "\n"
  "Time sparse-by-dense dot product kernels across worker threads\n\n"
    ++ "Usage: dp-bench [OPTIONS]\n\n"
    ++ "Options:\n"
    ++ String.join (helpRows.map fun (written, purpose) => row written purpose)

/-- **The version text.** -/
def versionText : String := "dp-bench 0.1.0\n"

end SparseDot.Bench
