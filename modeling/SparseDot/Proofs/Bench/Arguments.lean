import Mathlib.Data.List.Nodup
import SparseDot.Bench.CommandLine

set_option autoImplicit false

/-!
# Which options a command line can give

Every number on a command line is read into 64 bits, and nothing else is asked of it: a number is not compared
with another one, nor with what can be computed. So the options that some command line gives are all those
whose numbers fit. Each of them is written by its own settings, and those are read back.

## Main definitions

* `SparseDot.Bench.Ensures` — a result that is an error or has a property.
* `SparseDot.Bench.Options.Fits` — the numbers among the options fit 64 bits.
* `SparseDot.Bench.Setting` — an option with its value or a flag, written as one argument.
* `SparseDot.Bench.Options.settings` — the settings that write options.
* `SparseDot.Bench.ReadsOptions` — what is asked of a reader of command lines.

## Main results

* `SparseDot.Bench.parseNumber?_toString` — numbers that fit are read back.
* `SparseDot.Bench.Reading.Fits.ensures_read` — reading an argument keeps the numbers in 64 bits.
* `SparseDot.Bench.parse_map_argument` — settings of different options are applied one after the other.
* `SparseDot.Bench.readsOptions_parse`, `SparseDot.Bench.ReadsOptions.exists_eq_ok_iff` — the bench is such a reader,
  and the options that command lines give.
-/

namespace SparseDot.Bench

/-! ## What a result ensures -/

section Ensures

variable {ε α β : Type} {p : α → Prop} {q : β → Prop}

/-- **A result that is an error or has a property.** -/
def Ensures (p : α → Prop) (result : Except ε α) : Prop := ∀ a, result = .ok a → p a

/-- A result has the property if its value has it. -/
private lemma ensures_ok {a : α} (h : p a) : Ensures p (.ok a : Except ε α) := by
  rintro _ ⟨⟩
  exact h

/-- An error has no value that the property is asked of. -/
private lemma ensures_error (e : ε) : Ensures p (.error e : Except ε α) := nofun

/-- What comes next may use what has been ensured so far. -/
lemma Ensures.bind {result : Except ε α} {next : α → Except ε β} (h : Ensures p result)
    (hnext : ∀ a, p a → Ensures q (next a)) : Ensures q (result >>= next) := by
  cases result with
  | error e => exact ensures_error e
  | ok a => exact hnext a (h a rfl)

/-- What every step keeps holds at the end. -/
private lemma ensures_foldlM {step : β → α → Except ε β} (hstep : ∀ b a, q b → Ensures q (step b a)) {l : List α}
    {b : β} (hb : q b) : Ensures q (l.foldlM step b) := by
  induction l generalizing b with
  | nil => exact ensures_ok hb
  | cons a l ih =>
    rw [List.foldlM_cons]
    exact (hstep b a hb).bind fun b' => ih

end Ensures

/-! ## Numbers -/

/-- Numbers that are read fit 64 bits. -/
private lemma lt_of_parseNumber? {text : String} {n : ℕ} (h : parseNumber? text = some n) : n < UInt64.size := by
  unfold parseNumber? at h
  dsimp only at h
  split_ifs at h with hdigits hsize
  exact Option.some.inj h ▸ hsize

/-- **Numbers that fit are read back.**

**Proof sketch.** The text of a number has at least one character, and all of them are digits, so that there is no sign
in front; the digits make up the number. -/
theorem parseNumber?_toString {n : ℕ} (h : n < UInt64.size) : parseNumber? (toString n) = some n := by
  have hchars : (toString n).toList = Nat.toDigits 10 n := Nat.toList_repr
  have hdigit : ∀ c ∈ Nat.toDigits 10 n, c.isDigit := fun c =>
    Nat.isDigit_of_mem_toDigits (by decide) (by decide)
  have hempty : (Nat.toDigits 10 n).isEmpty = false := List.isEmpty_eq_false_iff.mpr Nat.toDigits_ne_nil
  have hvalue : (Nat.toDigits 10 n).foldl (fun n c => 10 * n + (c.toNat - '0'.toNat)) 0 = n :=
    Nat.ofDigitChars_ten_toDigits
  unfold parseNumber?
  rw [hchars]
  split
  · -- digits do not begin with a sign
    next rest hplus =>
      have hsign : '+'.isDigit := hdigit '+' (hplus ▸ List.mem_cons_self)
      exact absurd hsign (by decide)
  · simp only [hempty, List.all_eq_true.mpr hdigit, hvalue, Bool.not_true, Bool.or_false, Bool.false_eq_true,
      if_false, if_pos h]

/-! ## Options whose numbers fit -/

/-- **The numbers among the options fit 64 bits.** -/
structure Options.Fits (options : Options) : Prop where
  sparseLength : options.sparseLength < UInt64.size
  denseLength : options.denseLength < UInt64.size
  iterations : options.iterations < UInt64.size
  threads : options.threads < UInt64.size

namespace Options

/-- The options of an empty command line fit. -/
private lemma fits_default : ({} : Options).Fits := ⟨by decide, by decide, by decide, by decide⟩

/-- A number is set only after it has been read. -/
private lemma ensures_setNumber {option : Valued} {value : String} {set : ℕ → Options}
    (hset : ∀ n, n < UInt64.size → (set n).Fits) : Ensures Fits (setNumber option value set) := by
  unfold setNumber
  cases hn : parseNumber? value with
  | none => exact ensures_error _
  | some n => exact ensures_ok (hset n (lt_of_parseNumber? hn))

variable {options : Options} (h : options.Fits)
include h

/-- Setting an option keeps the numbers in 64 bits. -/
private lemma Fits.ensures_set (option : Valued) (value : String) : Ensures Fits (options.set option value) := by
  cases option with
  | kernel =>
    rw [set]
    cases Kernel.Kind.ofName? value with
    | none => exact ensures_error _
    | some kernel => exact ensures_ok { h with }
  | sparseLength => exact ensures_setNumber fun n hn => { h with sparseLength := hn }
  | denseLength => exact ensures_setNumber fun n hn => { h with denseLength := hn }
  | iterations => exact ensures_setNumber fun n hn => { h with iterations := hn }
  | threads => exact ensures_setNumber fun n hn => { h with threads := hn }
  | seed => exact ensures_setNumber fun n hn => { h with }

/-- Raising a flag keeps the numbers in 64 bits. -/
lemma Fits.raise (flag : Flag) : (options.raise flag).Fits := by
  cases flag <;> exact { h with }

end Options

/-! ## Reading keeps the numbers in 64 bits -/

namespace Reading

/-- The numbers that have been read fit 64 bits. -/
def Fits (r : Reading) : Prop := r.options.Fits

namespace Fits

variable {r : Reading} (h : r.Fits)
include h

/-- Noting a name keeps the numbers in 64 bits. -/
private lemma ensures_give (name : String) : Ensures Fits (r.give name) := by
  rw [give]
  split_ifs
  · exact ensures_error _
  · exact ensures_ok h

/-- Giving an option its value keeps the numbers in 64 bits. -/
private lemma ensures_giveValue (option : Valued) (value : String) : Ensures Fits (r.giveValue option value) :=
  (h.ensures_give option.name).bind fun _ hr =>
    (Options.Fits.ensures_set hr option value).bind fun _ hset => ensures_ok hset

/-- Settling what is pending keeps the numbers in 64 bits. -/
private lemma ensures_settle : Ensures Fits r.settle := by
  rw [settle.eq_def]
  cases r.pending with
  | none => exact ensures_ok h
  | some pending =>
    obtain ⟨option, value⟩ := pending
    cases value with
    | none => exact ensures_error _
    | some value => exact ensures_giveValue (r := { r with pending := none }) h option value

/-- Reading an option with a value keeps the numbers in 64 bits. -/
private lemma ensures_readValued (option : Valued) (value : Option String) :
    Ensures Fits (r.readValued option value) := by
  refine h.ensures_settle.bind fun r hr => ?_
  cases value with
  | some value => exact hr.ensures_giveValue option value
  | none => exact ensures_ok hr

/-- Reading a flag keeps the numbers in 64 bits. -/
private lemma ensures_readFlag (flag : Flag) : Ensures Fits (r.readFlag flag) :=
  h.ensures_settle.bind fun _ hr => (hr.ensures_give flag.name).bind fun _ hgiven =>
    ensures_ok (Options.Fits.raise hgiven flag)

/-- A request for a text gives no options. -/
private lemma ensures_answer (ending : Ending) : Ensures Fits (r.answer ending) :=
  h.ensures_settle.bind fun _ _ => ensures_error ending

/-- Reading an argument with a name keeps the numbers in 64 bits. -/
private lemma ensures_readLong (name : String) (value : Option String) : Ensures Fits (r.readLong name value) := by
  have hbare {read : Except Ending Reading} (hread : Ensures Fits read) :
      Ensures Fits (if value.isSome then .error (.unexpectedValue name) else read) := by
    split_ifs
    · exact ensures_error _
    · exact hread
  rw [readLong]
  cases Valued.all.find? (·.name == name) with
  | some option => exact h.ensures_readValued option value
  | none =>
    cases Flag.all.find? (·.name == name) with
    | some flag => exact hbare (h.ensures_readFlag flag)
    | none =>
      by_cases hhelp : name = "help"
      · simpa only [if_pos hhelp] using hbare (h.ensures_answer .help)
      · by_cases hversion : name = "version"
        · simpa only [if_neg hhelp, if_pos hversion] using hbare (h.ensures_answer .version)
        · simpa only [if_neg hhelp, if_neg hversion] using ensures_error (Ending.unknownArgument name)

/-- Reading letters behind a hyphen keeps the numbers in 64 bits. -/
private lemma ensures_readShort (letters : List Char) : Ensures Fits (r.readShort letters) := by
  rw [readShort.eq_def]
  split
  · exact h.ensures_answer .help
  · exact h.ensures_answer .version
  · exact ensures_error _

/-- Reading an argument without hyphens keeps the numbers in 64 bits. -/
private lemma ensures_readWord (text : String) : Ensures Fits (r.readWord text) := by
  rw [readWord]
  split
  · exact ensures_ok h
  · exact ensures_error _

/-- **Reading an argument keeps the numbers in 64 bits.** -/
theorem ensures_read (text : String) : Ensures Fits (r.read text) := by
  rw [read]
  split_ifs
  · exact ensures_error _
  · cases Argument.ofText text with
    | separator => exact ensures_ok h
    | long name value => exact h.ensures_readLong name value
    | short letters => exact h.ensures_readShort letters
    | word text => exact h.ensures_readWord text

end Fits

/-- Nothing is read yet. -/
private lemma fits_start : start.Fits := Options.fits_default

end Reading

/-- **Options that are read from a command line fit.**

**Proof sketch.** Every argument keeps the numbers in 64 bits, and so does settling what is pending in the end. -/
theorem ensures_parse (arguments : List String) : Ensures Options.Fits (parse arguments) :=
  (ensures_foldlM (fun _ text hr => Reading.Fits.ensures_read hr text) Reading.fits_start).bind
    fun _ hr => hr.ensures_settle.bind fun _ hsettled => ensures_ok hsettled

/-! ## Settings -/

/-- **An option with its value, or a flag.** -/
inductive Setting where
  /-- The option is given a value. -/
  | value (option : Valued) (text : String)
  /-- The flag is raised. -/
  | raise (flag : Flag)

namespace Setting

/-- The name of what is set. -/
def name : Setting → String
  | .value option _ => option.name
  | .raise flag => flag.name

/-- **The setting as one argument**, with the value behind an equals sign. -/
def argument : Setting → String
  | .value option text => "--" ++ option.name ++ "=" ++ text
  | .raise flag => "--" ++ flag.name

/-- The options with the setting applied to them. -/
def apply (options : Options) : Setting → Except Ending Options
  | .value option text => options.set option text
  | .raise flag => .ok (options.raise flag)

end Setting

/-- What stands in front of the first equals sign, and what stands behind it. -/
private lemma splitAtEquals_append {front : List Char} (h : '=' ∉ front) (behind : List Char) :
    splitAtEquals (front ++ '=' :: behind) = (front, some behind) := by
  induction front with
  | nil => rfl
  | cons c front ih =>
    obtain ⟨hc, hfront⟩ := List.ne_and_not_mem_of_not_mem_cons h
    rw [List.cons_append, splitAtEquals, ih hfront]
    exact fun heq => hc heq.symm

/-- An option with its value is told by its name. -/
private lemma ofText_value (option : Valued) (text : String) :
    Argument.ofText (Setting.argument (.value option text)) = .long option.name (some text) := by
  have hequals : '=' ∉ option.name.toList := by cases option <;> decide
  have hchars : (Setting.argument (.value option text)).toList =
      '-' :: '-' :: (option.name.toList ++ '=' :: text.toList) := by
    simp [Setting.argument]
  have hsplit := splitAtEquals_append hequals text.toList
  rw [Argument.ofText, hchars]
  -- the equals sign at least stands behind the hyphens
  cases hrest : option.name.toList ++ '=' :: text.toList with
  | nil => simp at hrest
  | cons c rest =>
    rw [hrest] at hsplit
    simp only [hsplit, Option.map_some, String.ofList_toList]

/-- A flag is told by its name. -/
private lemma ofText_raise (flag : Flag) : Argument.ofText (Setting.argument (.raise flag)) = .long flag.name none := by
  cases flag <;> rfl

/-- An option with a value is found by its name. -/
private lemma find?_name_valued (option : Valued) : Valued.all.find? (·.name == option.name) = some option := by
  cases option <;> rfl

/-- A flag is found by its name, which no option with a value has. -/
private lemma find?_name_flag (flag : Flag) : Valued.all.find? (·.name == flag.name) = none ∧
    Flag.all.find? (·.name == flag.name) = some flag := by
  cases flag <;> exact ⟨rfl, rfl⟩

/-- **Reading a setting applies it** if nothing is pending and its name is new.

**Proof sketch.** The argument is told by the name of what it sets, and nothing has to be settled before. So the name
is noted and the setting applied. -/
theorem Reading.read_argument (setting : Setting) (options : Options) {given : List String}
    (hnew : setting.name ∉ given) :
    (⟨options, given, none, false⟩ : Reading).read setting.argument =
      (setting.apply options).map fun options => ⟨options, setting.name :: given, none, false⟩ := by
  have hgive : (⟨options, given, none, false⟩ : Reading).give setting.name =
      .ok ⟨options, setting.name :: given, none, false⟩ := by
    simp [give, hnew]
  cases setting with
  | value option text =>
    rw [Setting.name] at hgive
    simp only [read, ofText_value, readLong, find?_name_valued, readValued, settle, giveValue, bind, Except.bind,
      hgive, Setting.apply, Setting.name]
    cases options.set option text <;> rfl
  | raise flag =>
    rw [Setting.name] at hgive
    simp only [read, ofText_raise, readLong, find?_name_flag, readFlag, settle, bind, Except.bind, hgive]
    rfl

/-- **Settings with different names are applied one after the other.**

**Proof sketch.** Induction on the settings. The name of the first one is noted, and none of the others has it. -/
theorem Reading.foldlM_read_map_argument {settings : List Setting} (hnodup : (settings.map Setting.name).Nodup)
    (options : Options) {given : List String} (hnew : ∀ setting ∈ settings, setting.name ∉ given) :
    (settings.map Setting.argument).foldlM read ⟨options, given, none, false⟩ =
      (settings.foldlM Setting.apply options).map fun options =>
        ⟨options, (settings.map Setting.name).reverse ++ given, none, false⟩ := by
  induction settings generalizing options given with
  | nil => rfl
  | cons setting settings ih =>
    rw [List.map_cons, List.nodup_cons] at hnodup
    obtain ⟨hfirst, hrest⟩ := List.forall_mem_cons.mp hnew
    rw [List.map_cons, List.foldlM_cons, List.foldlM_cons, read_argument setting options hfirst]
    cases setting.apply options with
    | error ending => rfl
    | ok options =>
      have hnew' : ∀ s ∈ settings, s.name ∉ setting.name :: given := by
        intro s hs hmem
        rcases List.mem_cons.mp hmem with heq | hmem
        · exact hnodup.1 (heq ▸ List.mem_map_of_mem hs)
        · exact hrest s hs hmem
      rw [List.map_cons, List.reverse_cons, List.append_assoc]
      exact ih hnodup.2 options hnew'

/-- **A command line of settings with different names** gives the options that have them applied, one after the
other, and the first error if there is one. -/
theorem parse_map_argument {settings : List Setting} (hnodup : (settings.map Setting.name).Nodup) :
    parse (settings.map Setting.argument) = settings.foldlM Setting.apply {} := by
  have hnew : ∀ setting ∈ settings, setting.name ∉ ([] : List String) := fun _ _ => List.not_mem_nil
  have hread := Reading.foldlM_read_map_argument hnodup {} hnew
  rw [parse, Reading.start, hread]
  cases settings.foldlM Setting.apply {} <;> rfl

/-! ## Options and the settings that write them -/

namespace Options

variable (options : Options)

/-- The value of an option as a text. -/
def text : Valued → String
  | .kernel => options.kernel.name
  | .sparseLength => toString options.sparseLength
  | .denseLength => toString options.denseLength
  | .iterations => toString options.iterations
  | .threads => toString options.threads
  | .seed => toString options.seed.toNat

/-- Whether a flag is raised. -/
def isRaised : Flag → Bool
  | .timing => options.timing
  | .json => options.json

/-- **The settings that write options**: every value, and the flags that are raised. -/
def settings : List Setting :=
  (Valued.all.map fun option => .value option (options.text option)) ++
    (Flag.all.filter options.isRaised).map .raise

/-- **The defaults of the help text** can be given, and change nothing. -/
theorem set_default (option : Valued) : ({} : Options).set option option.default = .ok {} := by
  cases option <;> rfl

/-- No option and no flag is set twice. -/
private lemma nodup_settings : (options.settings.map Setting.name).Nodup := by
  have hall : ((Valued.all.map Valued.name) ++ Flag.all.map Flag.name).Nodup := by decide
  refine List.Nodup.sublist ?_ hall
  rw [settings, List.map_append, List.map_map, List.map_map]
  exact (List.Sublist.refl _).append (List.filter_sublist.map _)

variable {options}

/-- A number that fits is set as its text says. -/
private lemma setNumber_toString {n : ℕ} (h : n < UInt64.size) (option : Valued) (set : ℕ → Options) :
    setNumber option (toString n) set = .ok (set n) := by
  rw [setNumber, parseNumber?_toString h]

/-- The values of options that fit set them. -/
private lemma Fits.foldlM_values (h : options.Fits) :
    (Valued.all.map fun option => Setting.value option (options.text option)).foldlM Setting.apply {} =
      .ok { options with timing := false, json := false } := by
  have hseed : options.seed.toNat < UInt64.size := options.seed.toNat_lt
  simp only [Valued.all, List.map_cons, List.map_nil, List.foldlM_cons, List.foldlM_nil, bind, Except.bind,
    Setting.apply, set, text, Kernel.Kind.ofName?_name, setNumber_toString h.sparseLength,
    setNumber_toString h.denseLength, setNumber_toString h.iterations, setNumber_toString h.threads,
    setNumber_toString hseed, UInt64.ofNat_toNat]
  rfl

/-- The flags of options raise them. -/
private lemma foldlM_flags (options : Options) :
    ((Flag.all.filter options.isRaised).map Setting.raise).foldlM Setting.apply
      { options with timing := false, json := false } = .ok options := by
  obtain ⟨_, _, _, _, _, _, timing, json⟩ := options
  cases timing <;> cases json <;> rfl

/-- **Options whose numbers fit are read back** from the settings that write them.

**Proof sketch.** The values set all numbers, beginning with the defaults, and leave the flags down; then the flags are
raised. -/
theorem Fits.parse_settings (h : options.Fits) : parse (options.settings.map Setting.argument) = .ok options := by
  rw [parse_map_argument options.nodup_settings, settings, List.foldlM_append, h.foldlM_values]
  exact options.foldlM_flags

end Options

/-! ## Readers of command lines -/

/-- **What is asked of a reader of command lines.** The numbers of the options that it gives fit 64 bits each, and
options whose numbers do are read from the command line that writes all of them out. -/
structure ReadsOptions (read : List String → Except Ending Options) : Prop where
  /-- No number of the options that are read is larger than 64 bits. -/
  fits : ∀ arguments options, read arguments = .ok options → options.Fits
  /-- Options are read back from the command line that writes all of them out. -/
  settings : ∀ options, options.Fits → read (options.settings.map Setting.argument) = .ok options

/-- **The bench reads command lines in this way.** -/
theorem readsOptions_parse : ReadsOptions parse := ⟨ensures_parse, fun _ h => h.parse_settings⟩

/-- **The options that command lines give** are those whose numbers fit 64 bits. -/
theorem ReadsOptions.exists_eq_ok_iff {read : List String → Except Ending Options} (h : ReadsOptions read)
    {options : Options} : (∃ arguments, read arguments = .ok options) ↔ options.Fits :=
  ⟨fun ⟨arguments, hread⟩ => h.fits arguments options hread, fun hfits => ⟨_, h.settings options hfits⟩⟩

end SparseDot.Bench
