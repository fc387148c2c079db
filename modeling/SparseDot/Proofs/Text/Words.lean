import Mathlib.Data.List.DropRight

set_option autoImplicit false

/-!
# Lines and words of a text

A text that is made of pieces can be taken apart again if something tells where a piece ends. Lines are ended by
line feeds. A word has no blanks in it, so that the last word of a text is found from the right, whatever is in
front of it.

## Main definitions

* `SparseDot.lastWord?` — the last word of a text, and what is in front of it.

## Main results

* `SparseDot.lastWord?_append` — the last word is found.
* `SparseDot.splitOn_lines` — lines are told apart.
* `SparseDot.mapM_flatMap_eq_some` — a list made of pieces is read piece by piece.
-/

namespace SparseDot

/-! ## Both ends of a text -/

section Ends

variable {α : Type}

/-- A suffix is found where it was put. -/
lemma dropSuffix?_append [BEq α] [ReflBEq α] (l s : List α) : (l ++ s).dropSuffix? s = some l :=
  List.dropSuffix?_eq_some_iff.mpr ⟨s, rfl, BEq.rfl⟩

/-- A prefix is found where it was put. -/
lemma dropPrefix?_append [BEq α] [ReflBEq α] (l p : List α) : (p ++ l).dropPrefix? p = some l :=
  List.dropPrefix?_eq_some_iff.mpr ⟨p, rfl, BEq.rfl⟩

/-- What is dropped at the end is dropped up to the last item of another kind. -/
private lemma rdropWhile_append_cons {p : α → Bool} (front : List α) {c : α} {word : List α} (hc : p c = false)
    (hword : ∀ d ∈ word, p d) : (front ++ c :: word).rdropWhile p = front ++ [c] := by
  have hword' : ∀ d ∈ word.reverse, p d := by simpa using hword
  have hreverse : (front ++ c :: word).reverse = word.reverse ++ c :: front.reverse := by simp
  rw [List.rdropWhile, hreverse, List.dropWhile_append_of_pos hword', List.dropWhile_cons_of_neg (by simp [hc])]
  simp

/-- What stays in front of a fill is what would stay without it. -/
lemma rdropWhile_append_of_pos {p : α → Bool} (front : List α) {fill : List α} (hfill : ∀ c ∈ fill, p c) :
    (front ++ fill).rdropWhile p = front.rdropWhile p := by
  have hfill' : ∀ c ∈ fill.reverse, p c := by simpa using hfill
  rw [List.rdropWhile, List.reverse_append, List.dropWhile_append_of_pos hfill', List.rdropWhile]

/-- What is taken at the end is what was dropped there. -/
private lemma rtakeWhile_append_cons {p : α → Bool} (front : List α) {c : α} {word : List α} (hc : p c = false)
    (hword : ∀ d ∈ word, p d) : (front ++ c :: word).rtakeWhile p = word := by
  have hword' : ∀ d ∈ word.reverse, p d := by simpa using hword
  have hreverse : (front ++ c :: word).reverse = word.reverse ++ c :: front.reverse := by simp
  rw [List.rtakeWhile, hreverse, List.takeWhile_append_of_pos hword', List.takeWhile_cons_of_neg (by simp [hc])]
  simp

end Ends

/-! ## Words -/

/-- **The last word of a text**, and what is in front of it, if these two texts stand before and after that word. -/
def lastWord? (before after : String) (text : List Char) : Option (List Char × String) := do
  let text ← text.dropSuffix? after.toList
  let front ← (text.rdropWhile (· != ' ')).dropSuffix? before.toList
  return (front, String.ofList (text.rtakeWhile (· != ' ')))

/-- **The last word is found**, whatever is in front of it.

**Proof sketch.** What stands before the word ends with a blank, and the word has none. So the characters at the end
that are not blank are the word, and in front of them there is what stands before it. -/
theorem lastWord?_append (front : List Char) {before after word : String}
    (hbefore : before.toList.getLast? = some ' ') (hword : ' ' ∉ word.toList) :
    lastWord? before after (front ++ (before ++ word ++ after).toList) = some (front, word) := by
  obtain ⟨text, hbefore⟩ := List.getLast?_eq_some_iff.mp hbefore
  have hchars : ∀ c ∈ word.toList, (c != ' ') = true := fun c hc => bne_iff_ne.mpr fun heq => hword (heq ▸ hc)
  have hsplit : front ++ (before ++ word ++ after).toList =
      ((front ++ text) ++ ' ' :: word.toList) ++ after.toList := by
    simp [String.toList_append, hbefore]
  have hfront : (front ++ text) ++ [' '] = front ++ before.toList := by rw [hbefore, List.append_assoc]
  rw [lastWord?, hsplit, dropSuffix?_append]
  simp only [Option.bind_eq_bind, Option.bind_some]
  rw [rdropWhile_append_cons _ rfl hchars, hfront, dropSuffix?_append, rtakeWhile_append_cons _ rfl hchars]
  simp

/-! ## Lines -/

/-- **Lines are told apart** by the line feeds that end them.

**Proof sketch.** Induction on the lines: the first line has no line feed in it, so the text is cut behind it first. -/
theorem splitOn_lines {lines : List (List Char)} (h : ∀ line ∈ lines, '\n' ∉ line) :
    (lines.flatMap fun line => line ++ ['\n']).splitOn '\n' = lines ++ [[]] := by
  induction lines with
  | nil => rfl
  | cons line lines ih =>
    obtain ⟨hline, hlines⟩ := List.forall_mem_cons.mp h
    rw [List.flatMap_cons, List.append_assoc, List.singleton_append,
      List.splitOn_append_cons_self_of_not_mem hline, ih hlines, List.cons_append]

/-- **A list made of pieces is read piece by piece.** -/
theorem mapM_flatMap_eq_some {α β γ : Type} {read : β → Option γ} {write : α → List β} {f : α → List γ} {l : List α}
    (h : ∀ x ∈ l, (write x).mapM read = some (f x)) : (l.flatMap write).mapM read = some (l.flatMap f) := by
  induction l with
  | nil => rfl
  | cons x l ih =>
    obtain ⟨hx, hl⟩ := List.forall_mem_cons.mp h
    rw [List.flatMap_cons, List.mapM_append, hx, ih hl]
    rfl

end SparseDot
