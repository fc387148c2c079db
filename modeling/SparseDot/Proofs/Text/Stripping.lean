import Mathlib.Tactic.SplitIfs
import SparseDot.Text.Style

set_option autoImplicit false

/-!
# Taking the colours out of a text

A sequence that sets a colour is an escape character and an opening bracket, then digits and semicolons, and an `m`
at the end. Taking all sequences out of a text in one pass does not go by pieces: the end of one text and the
beginning of the next can make a sequence together, and taking out a sequence can put the parts of another one side
by side, which then stay. It does go by pieces where the next piece begins with a character that is not found
inside a sequence, and a piece in colours ends and begins with a whole sequence. So a line in colours and the same
line without are the same after the pass, also if there are sequences in it, or parts of sequences.

## Main definitions

* `SparseDot.afterSequence?` — what follows the sequence that a text begins with.
* `SparseDot.stripSequences` — the text without its sequences.
* `SparseDot.IsPlain` — texts without escape characters.
* `SparseDot.Painter.Wraps` — what is asked of the colours of a painter.
* `SparseDot.Separated` — spans of which none runs into the next.

## Main results

* `SparseDot.stripSequences_append` — the pass goes by pieces.
* `SparseDot.wraps_terminal` — a terminal meets what is asked of the colours of a painter.
* `SparseDot.Painter.Wraps.stripSequences_append` — the pass takes out the colours of a piece.
* `SparseDot.stripSequences_lines` — lines with colours and without are the same after the pass.
-/

namespace SparseDot

/-! ## The pass -/

/-- The characters of the numbers in a sequence. -/
def isParameter (c : Char) : Bool := c.isDigit || c == ';'

/-- What follows the numbers of a sequence and its last letter, if the text begins with them. -/
def afterParameters? : List Char → Option (List Char)
  | [] => none
  | c :: rest => if c = 'm' then some rest else if isParameter c then afterParameters? rest else none

/-- **What follows the sequence that a text begins with**, if it begins with one. -/
def afterSequence? : List Char → Option (List Char)
  | '\x1b' :: '[' :: rest => afterParameters? rest
  | _ => none

/-- What comes after the numbers of a sequence is shorter. -/
private lemma length_lt_of_afterParameters? {text after : List Char} (h : afterParameters? text = some after) :
    after.length < text.length := by
  induction text with
  | nil => cases h
  | cons c rest ih =>
    rw [afterParameters?] at h
    split_ifs at h
    · cases h
      exact Nat.lt_succ_self _
    · exact Nat.lt_succ_of_lt (ih h)

/-- What comes after a sequence is shorter. -/
private lemma length_lt_of_afterSequence? {text after : List Char} (h : afterSequence? text = some after) :
    after.length < text.length := by
  unfold afterSequence? at h
  split at h
  · exact Nat.lt_succ_of_lt (Nat.lt_succ_of_lt (length_lt_of_afterParameters? h))
  · cases h

/-- **The text without its sequences**, from the left to the right in one pass. -/
def stripSequences : List Char → List Char
  | [] => []
  | c :: rest =>
    match _h : afterSequence? (c :: rest) with
    | some after => stripSequences after
    | none => c :: stripSequences rest
termination_by text => text.length
decreasing_by
  · exact length_lt_of_afterSequence? _h
  · exact Nat.lt_succ_self _

/-- A sequence at the beginning is taken out. -/
private lemma stripSequences_of_some {text after : List Char} (h : afterSequence? text = some after) :
    stripSequences text = stripSequences after := by
  cases text with
  | nil => cases h
  | cons c rest =>
    rw [stripSequences]
    split
    next after' h' => rw [Option.some.inj (h.symm.trans h')]
    next h' => cases h.symm.trans h'

/-- A character that begins no sequence is kept. -/
private lemma stripSequences_of_none {c : Char} {rest : List Char} (h : afterSequence? (c :: rest) = none) :
    stripSequences (c :: rest) = c :: stripSequences rest := by
  rw [stripSequences]
  split
  next after h' => cases h.symm.trans h'
  next => rfl

/-- A text that does not begin with an escape character and a bracket begins with no sequence. -/
private lemma afterSequence?_of_ne {text : List Char} (h : ∀ rest, text ≠ '\x1b' :: '[' :: rest) :
    afterSequence? text = none := by
  unfold afterSequence?
  split
  · exact absurd rfl (h _)
  · rfl

/-! ## The pass goes by pieces -/

/-- **A text without escape characters.** -/
def IsPlain (text : String) : Prop := '\x1b' ∉ text.toList

/-- Whether a text has escape characters is decided by looking at all of its characters. -/
instance (text : String) : Decidable (IsPlain text) := inferInstanceAs (Decidable ('\x1b' ∉ text.toList))

/-- Texts without escape characters, put together, have none. -/
lemma IsPlain.append {s t : String} (hs : IsPlain s) (ht : IsPlain t) : IsPlain (s ++ t) := by
  rw [IsPlain, String.toList_append, List.mem_append, not_or]
  exact ⟨hs, ht⟩

section Pieces

variable {text rest after : List Char}

/-- A text without escape characters stays as it is, whatever comes after it. -/
private lemma stripSequences_append_of_notMem (htext : '\x1b' ∉ text) (rest : List Char) :
    stripSequences (text ++ rest) = text ++ stripSequences rest := by
  induction text with
  | nil => rfl
  | cons c text ih =>
    have hnone : afterSequence? (c :: (text ++ rest)) = none :=
      afterSequence?_of_ne fun tail heq => htext (List.mem_cons.mpr (.inl (List.cons.inj heq).1.symm))
    rw [List.cons_append, stripSequences_of_none hnone, ih fun h => htext (List.mem_cons_of_mem _ h),
      List.cons_append]

/-- A text without escape characters stays as it is. -/
lemma stripSequences_of_notMem (htext : '\x1b' ∉ text) : stripSequences text = text := by
  have h := stripSequences_append_of_notMem htext []
  rwa [List.append_nil, stripSequences, List.append_nil] at h

/-- **The rest of a text begins anew**: it begins with a character that is not found inside a sequence. -/
def BeginsAnew (rest : List Char) : Prop :=
  ∃ c tail, rest = c :: tail ∧ c ≠ '[' ∧ c ≠ 'm' ∧ isParameter c = false

/-- The end of a sequence does not depend on what comes after it. -/
private lemma afterParameters?_append (h : afterParameters? text = some after) (rest : List Char) :
    afterParameters? (text ++ rest) = some (after ++ rest) := by
  induction text with
  | nil => cases h
  | cons c text ih =>
    rw [afterParameters?] at h
    rw [List.cons_append, afterParameters?]
    split_ifs at h ⊢
    · rw [Option.some.inj h]
    · exact ih h

/-- A sequence does not depend on what comes after it. -/
private lemma afterSequence?_append (h : afterSequence? text = some after) (rest : List Char) :
    afterSequence? (text ++ rest) = some (after ++ rest) := by
  unfold afterSequence? at h
  split at h
  · exact afterParameters?_append h rest
  · cases h

/-- A sequence does not go on where a text begins anew. -/
private lemma afterParameters?_append_eq_none (h : afterParameters? text = none) (hrest : BeginsAnew rest) :
    afterParameters? (text ++ rest) = none := by
  induction text with
  | nil =>
    obtain ⟨c, tail, rfl, -, hm, hparameter⟩ := hrest
    rw [List.nil_append, afterParameters?, if_neg hm, hparameter]
    rfl
  | cons c text ih =>
    rw [afterParameters?] at h
    rw [List.cons_append, afterParameters?]
    split_ifs at h ⊢
    · exact ih h
    · rfl

/-- No sequence begins where a text begins anew, nor goes on there.

**Proof sketch.** If the text has the bracket then its numbers do not go on in the rest. Else the text is an escape
character alone, and the bracket would be the character that the rest begins with. -/
private lemma afterSequence?_append_eq_none {c : Char} (h : afterSequence? (c :: text) = none)
    (hrest : BeginsAnew rest) : afterSequence? (c :: (text ++ rest)) = none := by
  by_cases hopen : ∃ numbers, c :: text = '\x1b' :: '[' :: numbers
  · obtain ⟨numbers, heq⟩ := hopen
    rw [heq] at h
    rw [← List.cons_append, heq]
    exact afterParameters?_append_eq_none h hrest
  · refine afterSequence?_of_ne fun tail heq => ?_
    cases text with
    | nil =>
      -- the bracket would be where the rest begins
      obtain ⟨d, others, rfl, hbracket, -⟩ := hrest
      exact hbracket (List.cons.inj (List.cons.inj heq).2).1
    | cons d text =>
      obtain ⟨rfl, hd⟩ := List.cons.inj heq
      obtain ⟨rfl, -⟩ := List.cons.inj hd
      exact hopen ⟨text, rfl⟩

/-- **The pass goes by pieces** where the second piece begins anew.

**Proof sketch.** Induction on the pass over the first piece. A sequence that it takes out is taken out of the whole
text as well, and so is no other one, since none goes on where the second piece begins anew. -/
theorem stripSequences_append (text : List Char) (hrest : BeginsAnew rest) :
    stripSequences (text ++ rest) = stripSequences text ++ stripSequences rest := by
  -- the induction is on the pass: a sequence is taken out of the first piece, or a character of it is kept
  fun_induction stripSequences text with
  | case1 => rfl
  | case2 c text after h ih => rw [stripSequences_of_some (afterSequence?_append h rest), ih]
  | case3 c text h ih =>
    rw [List.cons_append, stripSequences_of_none (afterSequence?_append_eq_none h hrest), ih, List.cons_append]

/-- Otherwise it does not: the parts of a sequence stay by themselves, and are taken out together. -/
example : stripSequences ['\x1b'] ++ stripSequences ['[', '0', 'm'] = ['\x1b', '[', '0', 'm'] ∧
    stripSequences (['\x1b'] ++ ['[', '0', 'm']) = [] := by
  constructor <;> cbv

end Pieces

/-! ## The pass takes out colours -/

/-- The sequence that ends a colour is taken out. -/
private lemma stripSequences_reset (rest : List Char) : stripSequences (reset ++ rest) = stripSequences rest :=
  stripSequences_of_some rfl

/-- Digits and semicolons make a sequence. -/
private lemma afterSequence?_sequence {numbers : List Char} (h : ∀ c ∈ numbers, isParameter c) (rest : List Char) :
    afterSequence? (sequence numbers ++ rest) = some rest := by
  have hnumbers : afterParameters? (numbers ++ 'm' :: rest) = some rest := by
    induction numbers with
    | nil => rfl
    | cons c numbers ih =>
      obtain ⟨hc, hnumbers⟩ := List.forall_mem_cons.mp h
      have hm : c ≠ 'm' := by
        rintro rfl
        exact absurd hc (by decide)
      rw [List.cons_append, afterParameters?, if_neg hm, if_pos hc, ih hnumbers]
  rw [← hnumbers]
  simp [sequence, afterSequence?]

section Reopen

variable (opening : List Char) {text : List Char}

/-- The colour is opened again behind the sequence that ends a colour. -/
private lemma reopen_reset (rest : List Char) :
    reopen opening (reset ++ rest) = reset ++ (opening ++ reopen opening rest) :=
  List.append_assoc ..

/-- Where no sequence ends a colour, a character stays as it is. -/
private lemma reopen_cons {c : Char} (h : ∀ rest, c :: text ≠ reset ++ rest) :
    reopen opening (c :: text) = c :: reopen opening text := by
  rw [reopen]
  rintro rest rfl rfl
  exact h rest rfl

/-- Opening the colour again changes nothing at the beginning of a text. -/
private lemma head?_reopen (text : List Char) : (reopen opening text).head? = text.head? := by
  unfold reopen
  split <;> rfl

/-- There is no sequence that ends a colour inside another sequence, so that the numbers of a sequence stay. -/
private lemma afterParameters?_reopen (text : List Char) :
    afterParameters? (reopen opening text) = (afterParameters? text).map (reopen opening) := by
  induction text with
  | nil => rfl
  | cons c text ih =>
    by_cases hreset : ∃ rest, c :: text = reset ++ rest
    · obtain ⟨rest, heq⟩ := hreset
      rw [heq, reopen_reset]
      rfl
    · rw [reopen_cons opening fun rest heq => hreset ⟨rest, heq⟩, afterParameters?, afterParameters?]
      split_ifs
      · rfl
      · exact ih
      · rfl

/-- Other sequences than the one that ends a colour stay.

**Proof sketch.** Opening colours again changes neither the first two characters of a text that does not begin with the
sequence that ends a colour, nor the numbers of a sequence. -/
private lemma afterSequence?_reopen (h : ∀ rest, text ≠ reset ++ rest) :
    afterSequence? (reopen opening text) = (afterSequence? text).map (reopen opening) := by
  by_cases hopen : ∃ numbers, text = '\x1b' :: '[' :: numbers
  · obtain ⟨numbers, rfl⟩ := hopen
    rw [reopen_cons opening h, reopen_cons opening fun rest heq => by cases heq]
    exact afterParameters?_reopen opening numbers
  · rw [afterSequence?_of_ne fun numbers heq => hopen ⟨numbers, heq⟩]
    refine afterSequence?_of_ne fun tail heq => ?_
    cases text with
    | nil => cases heq
    | cons c text =>
      rw [reopen_cons opening h] at heq
      obtain ⟨rfl, htail⟩ := List.cons.inj heq
      have hhead := head?_reopen opening text
      rw [htail] at hhead
      cases text with
      | nil => cases hhead
      | cons d text =>
        cases hhead
        exact hopen ⟨text, rfl⟩

variable {opening}

/-- **Opening the colour again leaves no trace**, if what opens it is a sequence.

**Proof sketch.** Induction on the pass. The sequence that ends a colour is taken out wherever it is, since it cannot
begin inside another sequence, and then the one that was put after it is taken out as well. All other sequences, and
all other characters, are in both texts. -/
theorem stripSequences_reopen (hopening : ∀ rest, afterSequence? (opening ++ rest) = some rest) (text : List Char) :
    stripSequences (reopen opening text) = stripSequences text := by
  fun_induction stripSequences text with
  | case1 => rw [reopen, stripSequences]
  | case2 c text after h ih =>
    by_cases hreset : ∃ rest, c :: text = reset ++ rest
    · obtain ⟨rest, heq⟩ := hreset
      rw [heq] at h ⊢
      obtain rfl : rest = after := Option.some.inj h
      rw [reopen_reset, stripSequences_reset, stripSequences_of_some (hopening _), ih]
    · have hafter := afterSequence?_reopen opening fun rest heq => hreset ⟨rest, heq⟩
      rw [h, Option.map_some] at hafter
      rw [stripSequences_of_some hafter, ih]
  | case3 c text h ih =>
    have hreset : ∀ rest, c :: text ≠ reset ++ rest := by
      rintro rest heq
      rw [heq] at h
      cases h
    have hnone := afterSequence?_reopen opening hreset
    rw [h, Option.map_none, reopen_cons opening hreset] at hnone
    rw [reopen_cons opening hreset, stripSequences_of_none hnone, ih]

end Reopen

/-- **What is asked of the colours of a painter**: each of them has numbers, and a text is put between the sequence
with these numbers and the one that ends a colour, where the first one comes again after each of the second kind that
is in the text. -/
def Painter.Wraps (painter : Painter) : Prop :=
  ∀ colour, ∃ numbers, (∀ c ∈ numbers, isParameter c) ∧ ∀ text, painter colour text = wrap numbers text

/-- **A terminal with colours switched on does so.** -/
theorem wraps_terminal : Painter.Wraps (terminal true) := fun colour => by
  have hcode : colour.code.all isParameter = true := by cases colour <;> rfl
  exact ⟨colour.code, List.all_eq_true.mp hcode, fun text => rfl⟩

/-- **The pass takes out the colours of a piece**, whatever comes after it.

**Proof sketch.** The opening sequence is taken out, and what was opened again inside the text leaves no trace. The
rest begins with the sequence that ends the colour, so that it begins anew, and that sequence is taken out as well. -/
theorem Painter.Wraps.stripSequences_append {painter : Painter} (h : painter.Wraps) (colour : Colour)
    (text rest : List Char) :
    stripSequences (painter colour text ++ rest) = stripSequences text ++ stripSequences rest := by
  obtain ⟨numbers, hnumbers, hpaint⟩ := h colour
  have hopening := afterSequence?_sequence hnumbers
  have hrest : BeginsAnew (reset ++ rest) := ⟨'\x1b', '[' :: '0' :: 'm' :: rest, rfl, by decide⟩
  rw [hpaint, wrap, List.append_assoc, List.append_assoc, stripSequences_of_some (hopening _),
    SparseDot.stripSequences_append _ hrest, stripSequences_reopen hopening, stripSequences_reset]

/-! ## Lines -/

/-- The spans of a line, each without its sequences. -/
def strippedSpans (line : List Span) : List Char := line.flatMap fun span => stripSequences span.text.toList

/-- **Spans of which none runs into the next**: it has no escape characters, or the next one begins anew. -/
def Separated : List Span → Prop
  | [] => True
  | [_] => True
  | s :: t :: rest => (IsPlain s.text ∨ BeginsAnew t.text.toList) ∧ Separated (t :: rest)

/-- The first span comes in front of the others. -/
private lemma strippedSpans_cons (span : Span) (line : List Span) :
    strippedSpans (span :: line) = stripSequences span.text.toList ++ strippedSpans line := by
  rw [strippedSpans, List.flatMap_cons, strippedSpans]

/-- A text begins as its first piece does. -/
lemma BeginsAnew.append {text : List Char} (h : BeginsAnew text) (rest : List Char) :
    BeginsAnew (text ++ rest) := by
  obtain ⟨c, tail, rfl, hc⟩ := h
  exact ⟨c, tail ++ rest, rfl, hc⟩

/-- The end of a line is kept. -/
private lemma stripSequences_newline (rest : List Char) :
    stripSequences ('\n' :: rest) = '\n' :: stripSequences rest := by
  have hnewline : '\x1b' ∉ ['\n'] := by decide
  exact stripSequences_append_of_notMem hnewline rest

section Lines

variable {painter : Painter} (h : painter.Wraps)
include h

/-- A line in colours, after the pass. -/
private lemma stripSequences_lineChars (line : List Span) (rest : List Char) :
    stripSequences (lineChars painter line ++ rest) = strippedSpans line ++ '\n' :: stripSequences rest := by
  induction line with
  | nil => exact stripSequences_newline rest
  | cons span line ih =>
    have hcons : lineChars painter (span :: line) ++ rest =
        painter span.colour span.text.toList ++ (lineChars painter line ++ rest) := by
      simp [lineChars, Span.chars]
    rw [hcons, h.stripSequences_append, ih, strippedSpans_cons, List.append_assoc]

omit h in
/-- A line without colours, after the pass.

**Proof sketch.** Induction on the spans. A span without escape characters stays, whatever follows; after any other
one the rest begins anew, so that the pass goes by pieces, and so it does at the end of the line. -/
private lemma stripSequences_lineChars_plain {line : List Span} (hline : Separated line) (rest : List Char) :
    stripSequences (lineChars (terminal false) line ++ rest) = strippedSpans line ++ '\n' :: stripSequences rest := by
  induction line with
  | nil => exact stripSequences_newline rest
  | cons span line ih =>
    have hcons : lineChars (terminal false) (span :: line) ++ rest =
        span.text.toList ++ (lineChars (terminal false) line ++ rest) := by
      simp [lineChars, Span.chars, terminal]
    have hpiece : stripSequences (span.text.toList ++ (lineChars (terminal false) line ++ rest)) =
        stripSequences span.text.toList ++ stripSequences (lineChars (terminal false) line ++ rest) := by
      cases line with
      | nil => exact stripSequences_append _ ⟨'\n', rest, rfl, by decide⟩
      | cons next line =>
        rcases hline.1 with hspan | hnext
        · rw [stripSequences_append_of_notMem hspan, stripSequences_of_notMem hspan]
        · apply stripSequences_append
          rw [lineChars, List.flatMap_cons, List.append_assoc, List.append_assoc]
          exact hnext.append _
    have hrest : Separated line := by
      cases line with
      | nil => trivial
      | cons next line => exact hline.2
    rw [hcons, hpiece, ih hrest, strippedSpans_cons, List.append_assoc]

/-- **Lines in colours and lines without are the same after the pass**, if no span of a line runs into the next.

**Proof sketch.** Induction on the lines. Each of them is the same after the pass, with colours and without, and ends
before the next one. -/
theorem stripSequences_lines {lines : List (List Span)} (hlines : ∀ line ∈ lines, Separated line) :
    stripSequences (lines.flatMap (lineChars painter)) =
      stripSequences (lines.flatMap (lineChars (terminal false))) := by
  induction lines with
  | nil => rfl
  | cons line lines ih =>
    obtain ⟨hline, hlines⟩ := List.forall_mem_cons.mp hlines
    rw [List.flatMap_cons, List.flatMap_cons, stripSequences_lineChars h, stripSequences_lineChars_plain hline,
      ih hlines]

end Lines

end SparseDot
