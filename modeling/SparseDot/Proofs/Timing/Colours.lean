import SparseDot.Proofs.Text.Stripping
import SparseDot.Timing.Tree

set_option autoImplicit false

/-!
# Reports in colours say the same

A report is written line by line, as text alone or with colours. With colours switched off both are the same text.
With colours switched on they are the same once all sequences are taken out of both. Names may have any characters
in them, sequences and parts of sequences as well, but a tag stands between a branch without escape characters and
figures that begin with a blank, and a group at the end of its line, so that no sequence goes from one span to the
next. If no name has an escape character, the only sequences are those of the colours.

## Main results

* `SparseDot.Decimal.mem_fixed` — the characters of decimals.
* `SparseDot.Timing.separated_of_mem_lines` — no span of a line runs into the next.
* `SparseDot.Timing.isPlain_of_mem_lines` — spans are without escape characters if the names are.
* `SparseDot.Timing.Aggregator.render_ansi` — both styles say the same.
-/

namespace SparseDot

/-! ## Decimals -/

namespace Decimal

/-- Natural numbers are written with digits. -/
private lemma isAlphanum_of_mem_toString {c : Char} {n : Nat} (h : c ∈ (toString n).toList) : c.isAlphanum := by
  rw [Nat.toString_eq_ofList_toDigits, String.toList_ofList] at h
  have hdigit := Nat.isDigit_of_mem_toDigits (by decide) (by decide) h
  rw [Char.isAlphanum, hdigit, Bool.or_true]

variable {fmt : Format}

/-- **Decimals are made of digits and letters, points and hyphens.**

**Proof sketch.** A number is a sign, digits, a point, zeros and digits; infinities and what is no number are words. -/
theorem mem_fixed {places : Nat} {x : Binary fmt} {c : Char} (h : c ∈ (fixed places x).toList) :
    c.isAlphanum ∨ c = '.' ∨ c = '-' := by
  cases x with
  | finite s r hr =>
    simp only [fixed, ofCount, paddedDigits, String.toList_append, String.toList_ofList, List.mem_append] at h
    rcases h with hsign | (hwhole | hpoint) | hzeros | hplaces
    · cases s with
      | false => cases hsign
      | true => exact .inr (.inr (List.mem_singleton.mp hsign))
    · exact .inl (isAlphanum_of_mem_toString hwhole)
    · exact .inr (.inl (List.mem_singleton.mp hpoint))
    · obtain rfl := List.eq_of_mem_replicate hzeros
      exact .inl rfl
    · exact .inl (isAlphanum_of_mem_toString hplaces)
  | infinity s =>
    have hinfinity : "inf".toList.all Char.isAlphanum = true := by decide
    cases s with
    | false => exact .inl (List.all_eq_true.mp hinfinity c h)
    | true =>
      have hsign : "-inf".toList = '-' :: "inf".toList := by decide
      rw [fixed, if_pos rfl, hsign] at h
      rcases List.mem_cons.mp h with rfl | h
      · exact .inr (.inr rfl)
      · exact .inl (List.all_eq_true.mp hinfinity c h)
  | nan =>
    have hnan : "NaN".toList.all Char.isAlphanum = true := by decide
    exact .inl (List.all_eq_true.mp hnan c h)

/-- Decimals have no escape characters. -/
private lemma isPlain_fixed (places : Nat) (x : Binary fmt) : IsPlain (fixed places x) :=
  fun h => absurd (mem_fixed h) (by decide)

end Decimal

namespace Timing

/-! ## The spans of a line -/

section Lines

variable {s : TagShare} {r : GroupReport} {line : List Span}

/-- The lines of leaves in another form. -/
private lemma map_leafLines {α β : Type} (f : α → β) (line : Bool → TagShare → α) (tags : List TagShare) :
    (leafLines line tags).map f = leafLines (fun last s => f (line last s)) tags := by
  fun_induction leafLines line tags with
  | case1 => rfl
  | case2 s => rfl
  | case3 s rest hne ih =>
    obtain ⟨t, rest, rfl⟩ := List.exists_cons_of_ne_nil hne
    rw [List.map_cons, ih]
    rfl

/-- The lines of a group in another form. -/
private lemma map_lines {α β : Type} (f : α → β) (root : String → α) (leaf : Bool → TagShare → α) (r : GroupReport) :
    (r.lines root leaf).map f = r.lines (fun text => f (root text)) fun last s => f (leaf last s) := by
  rw [GroupReport.lines, List.map_cons, map_leafLines, GroupReport.lines]

/-- Branches have no escape characters. -/
private lemma isPlain_branch (last : Bool) : IsPlain (branch last) := by
  cases last <;> decide

/-- A text is filled up with blanks behind it. -/
lemma toList_padded (width : Nat) (text : String) :
    (padded width text).toList = text.toList ++ List.replicate (width - text.length) ' ' := by
  rw [padded, String.toList_append, String.toList_ofList]

/-- A text without escape characters has none when it is filled up. -/
private lemma isPlain_padded {text : String} (h : IsPlain text) (width : Nat) : IsPlain (padded width text) := by
  rw [IsPlain, toList_padded, List.mem_append, not_or]
  exact ⟨h, fun hfill => absurd (List.eq_of_mem_replicate hfill) (by decide)⟩

/-- Figures have no escape characters. -/
private lemma isPlain_figures (s : TagShare) : IsPlain s.figures := by
  have htime : IsPlain " time: " := by decide
  have hunit : IsPlain " ms, " := by decide
  have hpercent : IsPlain "%" := by decide
  exact (((htime.append (Decimal.isPlain_fixed _ _)).append hunit).append (Decimal.isPlain_fixed _ _)).append hpercent

/-- Figures begin with a blank. -/
private lemma beginsAnew_figures (s : TagShare) : BeginsAnew s.figures.toList := by
  have htime : BeginsAnew " time: ".toList := ⟨' ', _, rfl, by decide⟩
  simp only [TagShare.figures, String.toList_append]
  exact (((htime.append _).append _).append _).append _

/-- The lines of leaves are those of the tags. -/
lemma exists_of_mem_leafLines {α : Type} {leaf : Bool → TagShare → α} {line : α} {tags : List TagShare}
    (h : line ∈ leafLines leaf tags) : ∃ s ∈ tags, ∃ last, line = leaf last s := by
  fun_induction leafLines leaf tags with
  | case1 => cases h
  | case2 s => exact ⟨s, List.mem_singleton_self s, true, List.mem_singleton.mp h⟩
  | case3 s rest _ ih =>
    rcases List.mem_cons.mp h with rfl | h
    · exact ⟨s, List.mem_cons_self, false, rfl⟩
    · obtain ⟨t, ht, last, rfl⟩ := ih h
      exact ⟨t, List.mem_cons_of_mem s ht, last, rfl⟩

/-- **No span of a line runs into the next.**

**Proof sketch.** A root has a single span. A leaf has three: the branch has no escape characters, and the figures
behind the tag begin with a blank. -/
theorem separated_of_mem_lines (h : line ∈ r.lines rootSpans TagShare.spans) : Separated line := by
  rcases List.mem_cons.mp h with rfl | h
  · trivial
  · obtain ⟨s, -, last, rfl⟩ := exists_of_mem_leafLines h
    exact ⟨.inl (isPlain_branch last), .inr (beginsAnew_figures s), trivial⟩

/-- **Lines have no escape characters** if the names of the group and of its tags have none. -/
theorem isPlain_of_mem_lines (hgroup : IsPlain r.group) (htags : ∀ s ∈ r.tags, IsPlain s.tag) {text : String}
    (h : text ∈ r.lines id TagShare.line) : IsPlain text := by
  rcases List.mem_cons.mp h with rfl | h
  · have hroot : IsPlain "└── " := by decide
    exact hroot.append hgroup
  · obtain ⟨s, hs, last, rfl⟩ := exists_of_mem_leafLines h
    exact ((isPlain_branch last).append (isPlain_padded (htags s hs) tagWidth)).append (isPlain_figures s)

end Lines

/-! ## The two styles -/

namespace TimingReport

variable (r : TimingReport)

/-- The characters of a report as text alone. -/
lemma toList_renderPlain :
    r.renderPlain.toList = (r.groups.flatMap (GroupReport.lines id TagShare.line)).flatMap fun line =>
      line.toList ++ ['\n'] := by
  rw [renderPlain, String.toList_join, List.flatMap_map]
  simp only [String.toList_append]
  rfl

/-- **With colours switched off, a report in colours is text alone.**

**Proof sketch.** The spans of a line in colours, put together, are the line of text alone, for roots and for leaves,
so the lines of each group are the same. -/
theorem render_terminal_false : r.render (terminal false) = r.renderPlain := by
  have hroot (root : String) : lineChars (terminal false) (rootSpans root) = root.toList ++ ['\n'] := by
    simp [lineChars, rootSpans, Span.chars, terminal]
  have hleaf (last : Bool) (s : TagShare) :
      lineChars (terminal false) (s.spans last) = (s.line last).toList ++ ['\n'] := by
    simp [lineChars, TagShare.spans, TagShare.line, Span.chars, terminal, String.toList_append]
  have hgroup (g : GroupReport) : (g.lines rootSpans TagShare.spans).map (lineChars (terminal false)) =
      (g.lines id TagShare.line).map fun line => line.toList ++ ['\n'] := by
    rw [map_lines, map_lines]
    simp only [hroot, hleaf, id]
  rw [← String.toList_inj, render, renderLines, String.toList_ofList, toList_renderPlain, List.flatMap_assoc,
    List.flatMap_assoc]
  exact congrArg (fun lines : GroupReport → List Char => r.groups.flatMap lines)
    (funext fun g => congrArg List.flatten (hgroup g))

/-- The text of a report without colours has no escape characters if no name has any. -/
private lemma isPlain_renderPlain {r : TimingReport}
    (h : ∀ g ∈ r.groups, IsPlain g.group ∧ ∀ s ∈ g.tags, IsPlain s.tag) : IsPlain r.renderPlain := by
  rw [IsPlain, toList_renderPlain, List.mem_flatMap]
  rintro ⟨line, hline, hchar⟩
  obtain ⟨g, hg, hline⟩ := List.mem_flatMap.mp hline
  rcases List.mem_append.mp hchar with hchar | hchar
  · exact isPlain_of_mem_lines (h g hg).1 (h g hg).2 hline hchar
  · exact absurd hchar (by decide)

end TimingReport

/-- **Both styles of a report say the same**, whatever the names of its groups and tags are. With colours switched
off they are the same text. With a painter of colours, they are the same text when all sequences are taken out of
both in one pass from the left to the right, and that is the text without colours itself if no name has an escape
character. What is asked of the painter is met by a terminal with colours switched on.

**Proof sketch.** With colours switched off, each line in colours is the line of text alone. With colours, a piece of
a line is its text after the pass; a line of text alone can be cut into the same pieces, since a branch has no escape
characters, and after a tag the figures begin anew. So both are the texts of their pieces after the pass. -/
theorem Aggregator.render_ansi :
    Painter.Wraps (terminal true) ∧
    ∀ painter : Painter, painter.Wraps → ∀ (a : Aggregator) (other : Painter),
      a.render .ansi (terminal false) = a.render .plain other ∧
      stripSequences (a.render .ansi painter).toList = stripSequences (a.render .plain other).toList ∧
      ((∀ g ∈ a.summary.groups, IsPlain g.group ∧ ∀ s ∈ g.tags, IsPlain s.tag) →
        stripSequences (a.render .ansi painter).toList = (a.render .plain other).toList) := by
  refine ⟨wraps_terminal, fun painter hpainter a other => ?_⟩
  have hoff : a.render .ansi (terminal false) = a.render .plain other := a.summary.render_terminal_false
  have hsame : stripSequences (a.render .ansi painter).toList = stripSequences (a.render .plain other).toList := by
    rw [← hoff]
    simp only [render, TimingReport.write, TimingReport.render, renderLines, String.toList_ofList]
    refine stripSequences_lines hpainter fun line hline => ?_
    obtain ⟨g, -, hg⟩ := List.mem_flatMap.mp hline
    exact separated_of_mem_lines hg
  refine ⟨hoff, hsame, fun hnames => ?_⟩
  rw [hsame]
  exact stripSequences_of_notMem (TimingReport.isPlain_renderPlain hnames)

/-- Two groups. The names of the one have escape characters, and its tag ends a colour and has a part of a sequence;
the other one has plain names. The pass does not leave the text without colours there, which has sequences of its
own, but it leaves the same as it leaves of that. -/
theorem Aggregator.render_ansi_two_groups :
    let odd : NameMap Duration := NameMap.empty.insert "lo\x1b[0mad\x1b[3" ⟨1500000, by decide⟩
    let plain : NameMap Duration := NameMap.empty.insert "score" ⟨0, by decide⟩
    let a : Aggregator := ⟨⟨(NameMap.empty.insert "\x1b[31mq" odd).insert "query" plain⟩, false⟩
    let b : Aggregator := ⟨⟨NameMap.empty.insert "query" plain⟩, true⟩
    stripSequences (a.render .ansi (terminal true)).toList = stripSequences (a.render .plain (terminal true)).toList ∧
      a.render .ansi (terminal true) ≠ a.render .plain (terminal true) ∧
      ¬IsPlain (a.render .plain (terminal true)) ∧
      stripSequences (b.render .ansi (terminal true)).toList = (b.render .plain (terminal true)).toList := by
  intro odd plain a b
  obtain ⟨hwraps, hsame⟩ := render_ansi
  refine ⟨(hsame _ hwraps a _).2.1, by decide +kernel, by decide +kernel, ?_⟩
  exact (hsame _ hwraps b _).2.2 (by decide +kernel)

end Timing

end SparseDot
