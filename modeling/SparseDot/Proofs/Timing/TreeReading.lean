import SparseDot.Proofs.Text.Words
import SparseDot.Proofs.Timing.Colours
import SparseDot.Proofs.Timing.Sums

set_option autoImplicit false

/-!
# Trees can be read back

The plain text of a report shows names as they are, so that a name may look like any part of a tree: it may have
branches, figures or percent signs in it, and it may be longer than the column that tags are filled up to. The tree
can be read back all the same. Its lines are told apart by their ends, and the first character of a line tells a
root from a leaf, as only leaves begin with a blank. A root ends with its name. A leaf is read from the right: its
figures have no blanks in them, and what is left is the tag with the blanks that it was filled up with.

## Main definitions

* `SparseDot.Timing.TreeGroup`, `SparseDot.Timing.TreeLeaf` — what a tree shows.
* `SparseDot.Timing.readTree?` — the tree that a text shows.
* `SparseDot.Timing.TimingReport.shown` — what is shown of a report.
* `SparseDot.Timing.TimingReport.Legible` — names that do not hide the end of a line or of a tag.

## Main results

* `SparseDot.Timing.TimingReport.readTree?_renderPlain` — the plain text of a report is read back.
* `SparseDot.Timing.Aggregator.render_plain_unambiguous` — reports with the same plain text show the same, and a
  plain text has one leaf for every time.
-/

namespace SparseDot.Timing

/-! ## Reading a tree -/

/-- **A leaf of a tree.** -/
structure TreeLeaf where
  /-- Whether it has the closing branch. -/
  closed : Bool
  tag : String
  /-- The milliseconds, as they are shown. -/
  millis : String
  /-- The share, as it is shown. -/
  percent : String
  deriving DecidableEq

/-- **A group of a tree.** -/
structure TreeGroup where
  group : String
  leaves : List TreeLeaf
  deriving DecidableEq

/-- A line of a tree. -/
inductive TreeLine where
  /-- The root of a group. -/
  | root (group : String)
  /-- A leaf of the group above. -/
  | leaf (leaf : TreeLeaf)

/-- A leaf behind its branch, read from the right. -/
def readLeaf? (closed : Bool) (text : List Char) : Option TreeLine := do
  let (text, percent) ← lastWord? " ms, " "%" text
  let (text, millis) ← lastWord? " time: " "" text
  return .leaf ⟨closed, String.ofList (text.rdropWhile (· == ' ')), millis, percent⟩

/-- **A line of a tree**, which is a root or a leaf depending on what it begins with. -/
def readLine? (line : List Char) : Option TreeLine :=
  match line.dropPrefix? "└── ".toList, line.dropPrefix? "    ├── ".toList,
    line.dropPrefix? "    └── ".toList with
  | some group, _, _ => some (.root (String.ofList group))
  | none, some text, _ => readLeaf? false text
  | none, none, some text => readLeaf? true text
  | none, none, none => none

/-- The leaves in front of the first root, and the groups from there on. -/
def gatherGroups : List TreeLine → List TreeLeaf × List TreeGroup
  | [] => ([], [])
  | .root group :: lines => ([], ⟨group, (gatherGroups lines).1⟩ :: (gatherGroups lines).2)
  | .leaf leaf :: lines => (leaf :: (gatherGroups lines).1, (gatherGroups lines).2)

/-- **The tree that a text shows**, if all of its lines are lines of a tree and the first one is a root. -/
def readTree? (text : List Char) : Option (List TreeGroup) := do
  let lines ← (text.splitOn '\n').dropSuffix? [[]]
  match gatherGroups (← lines.mapM readLine?) with
  | ([], groups) => some groups
  | _ => none

/-! ## What is shown -/

/-- A share as it is shown. -/
def TagShare.shown (closed : Bool) (s : TagShare) : TreeLeaf :=
  ⟨closed, s.tag, Decimal.fixed 2 s.millis, Decimal.fixed 1 s.percent⟩

/-- The leaves that are shown for tags, of which the last one is closed. -/
def shownLeaves (tags : List TagShare) : List TreeLeaf := tags.mapIdx fun i s => s.shown (i + 1 = tags.length)

/-- **What is shown of a group.** -/
def GroupReport.shown (r : GroupReport) : TreeGroup := ⟨r.group, shownLeaves r.tags⟩

/-- **What is shown of a report**: its groups in order, and of each group its tags in order, with their figures. -/
def TimingReport.shown (r : TimingReport) : List TreeGroup := r.groups.map GroupReport.shown

/-- **A report with legible names**: none has a line feed in it, and no tag ends with a blank. -/
def TimingReport.Legible (r : TimingReport) : Prop :=
  ∀ g ∈ r.groups, '\n' ∉ g.group.toList ∧
    ∀ s ∈ g.tags, '\n' ∉ s.tag.toList ∧ s.tag.toList.getLast? ≠ some ' '

/-- Whether names are legible is decided name by name. -/
instance (r : TimingReport) : Decidable r.Legible :=
  inferInstanceAs (Decidable (∀ g ∈ r.groups, '\n' ∉ g.group.toList ∧
    ∀ s ∈ g.tags, '\n' ∉ s.tag.toList ∧ s.tag.toList.getLast? ≠ some ' '))

/-- The first of several leaves is not closed. -/
private lemma shownLeaves_cons_cons (s t : TagShare) (rest : List TagShare) :
    shownLeaves (s :: t :: rest) = s.shown false :: shownLeaves (t :: rest) := by
  simp [shownLeaves]

/-! ## Lines -/

section Lines

variable {s : TagShare} {r : GroupReport}

/-- The characters of the line of a leaf. -/
private lemma toList_line (closed : Bool) (s : TagShare) :
    (s.line closed).toList = (branch closed).toList ++ ((padded tagWidth s.tag).toList ++ s.figures.toList) := by
  rw [TagShare.line, String.toList_append, String.toList_append, List.append_assoc]

/-- What a tag was filled up with is dropped again, and nothing else, unless the tag itself ends with a blank. -/
private lemma rdropWhile_padded (width : ℕ) {tag : String} (htag : tag.toList.getLast? ≠ some ' ') :
    (padded width tag).toList.rdropWhile (· == ' ') = tag.toList := by
  rw [toList_padded, rdropWhile_append_of_pos _ (by simp)]
  refine List.rdropWhile_eq_self_iff.mpr fun hne hlast => htag ?_
  rw [List.getLast?_eq_some_getLast hne, beq_iff_eq.mp hlast]

/-- **A leaf is read from the right**: its percent, its milliseconds and its tag.

**Proof sketch.** The percent is the last word, and no decimal has a blank in it; so are the milliseconds of what is
left. What is left then is the tag with the blanks that it was filled up with. -/
theorem readLeaf?_eq (closed : Bool) (htag : s.tag.toList.getLast? ≠ some ' ') :
    readLeaf? closed ((padded tagWidth s.tag).toList ++ s.figures.toList) = some (.leaf (s.shown closed)) := by
  have hword {places : ℕ} {x : Binary64} : ' ' ∉ (Decimal.fixed places x).toList := fun h =>
    absurd (Decimal.mem_fixed h) (by decide)
  let tag := (padded tagWidth s.tag).toList
  let timed := tag ++ (" time: " ++ Decimal.fixed 2 s.millis ++ "").toList
  have hsplit : tag ++ s.figures.toList = timed ++ (" ms, " ++ Decimal.fixed 1 s.percent ++ "%").toList := by
    simp [timed, TagShare.figures, String.toList_append]
  have hmillis : lastWord? " time: " "" timed = some (tag, Decimal.fixed 2 s.millis) :=
    lastWord?_append tag (by decide) hword
  rw [readLeaf?, hsplit, lastWord?_append timed (by decide) hword]
  simp only [Option.bind_eq_bind, Option.bind_some, hmillis, tag]
  rw [rdropWhile_padded _ htag, String.ofList_toList]
  rfl

/-- **A line that begins with a branch is a leaf.** -/
theorem readLine?_branch (closed : Bool) (text : List Char) :
    readLine? ((branch closed).toList ++ text) = readLeaf? closed text := by
  cases closed with
  | false =>
    have hroot : ("    ├── ".toList ++ text).dropPrefix? "└── ".toList = none := rfl
    change readLine? ("    ├── ".toList ++ text) = _
    rw [readLine?, hroot, dropPrefix?_append]
  | true =>
    have hroot : ("    └── ".toList ++ text).dropPrefix? "└── ".toList = none := rfl
    have hopen : ("    └── ".toList ++ text).dropPrefix? "    ├── ".toList = none := rfl
    change readLine? ("    └── ".toList ++ text) = _
    rw [readLine?, hroot, hopen, dropPrefix?_append]

/-- The line of a leaf is read back. -/
private lemma readLine?_line (closed : Bool) (htag : s.tag.toList.getLast? ≠ some ' ') :
    readLine? (s.line closed).toList = some (.leaf (s.shown closed)) := by
  rw [toList_line, readLine?_branch, readLeaf?_eq closed htag]

/-- The line of a root is read back. -/
private lemma readLine?_root (group : String) : readLine? ("└── " ++ group).toList = some (.root group) := by
  rw [String.toList_append, readLine?, dropPrefix?_append]
  simp only [String.ofList_toList]

/-- The lines of leaves are read back. -/
private lemma mapM_readLine?_leafLines {tags : List TagShare} (htags : ∀ s ∈ tags, s.tag.toList.getLast? ≠ some ' ') :
    (leafLines TagShare.line tags).mapM (fun line => readLine? line.toList) =
      some ((shownLeaves tags).map .leaf) := by
  fun_induction leafLines TagShare.line tags with
  | case1 => rfl
  | case2 s =>
    rw [List.mapM_cons, readLine?_line true (htags s (List.mem_singleton_self s))]
    rfl
  | case3 s rest hne ih =>
    obtain ⟨hs, hrest⟩ := List.forall_mem_cons.mp htags
    obtain ⟨t, rest, rfl⟩ := List.exists_cons_of_ne_nil hne
    rw [List.mapM_cons, readLine?_line false hs, ih hrest, shownLeaves_cons_cons]
    rfl

/-- The lines of a group. -/
def TreeGroup.lines (g : TreeGroup) : List TreeLine := .root g.group :: g.leaves.map .leaf

/-- **The lines of a group are read back.** -/
theorem mapM_readLine?_lines (htags : ∀ s ∈ r.tags, s.tag.toList.getLast? ≠ some ' ') :
    (r.lines id TagShare.line).mapM (fun line => readLine? line.toList) = some r.shown.lines := by
  rw [GroupReport.lines, List.mapM_cons, id, readLine?_root, mapM_readLine?_leafLines htags]
  rfl

/-- The lines of a group have no line feeds in them if its names have none.

**Proof sketch.** The pieces of a line are names, which have none, and branches, blanks, units and decimals. -/
private lemma notMem_line (hgroup : '\n' ∉ r.group.toList) (htags : ∀ s ∈ r.tags, '\n' ∉ s.tag.toList)
    {line : String} (hline : line ∈ r.lines id TagShare.line) : '\n' ∉ line.toList := by
  rcases List.mem_cons.mp hline with rfl | hline
  · rw [id, String.toList_append, List.mem_append, not_or]
    exact ⟨by decide, hgroup⟩
  · obtain ⟨s, hs, closed, rfl⟩ := exists_of_mem_leafLines hline
    have hbranch : '\n' ∉ (branch closed).toList := by cases closed <;> decide
    have hfill : '\n' ∉ List.replicate (tagWidth - s.tag.length) ' ' := fun h =>
      absurd (List.eq_of_mem_replicate h) (by decide)
    have hfixed {places : ℕ} {x : Binary64} : '\n' ∉ (Decimal.fixed places x).toList := fun h =>
      absurd (Decimal.mem_fixed h) (by decide)
    rw [toList_line, toList_padded]
    simp only [TagShare.figures, String.toList_append, List.mem_append, not_or]
    exact ⟨hbranch, ⟨htags s hs, hfill⟩, (⟨⟨⟨by decide, hfixed⟩, by decide⟩, hfixed⟩), by decide⟩

end Lines

/-! ## Groups -/

/-- Leaves go in front of those that are there. -/
private lemma gatherGroups_leaves (leaves : List TreeLeaf) (lines : List TreeLine) :
    gatherGroups (leaves.map .leaf ++ lines) = (leaves ++ (gatherGroups lines).1, (gatherGroups lines).2) := by
  induction leaves with
  | nil => rfl
  | cons leaf leaves ih => simp [gatherGroups, ih]

/-- **Each leaf belongs to the root above it.**

**Proof sketch.** Induction on the groups: the leaves up to the next root are those of the group. -/
theorem gatherGroups_lines (groups : List TreeGroup) :
    gatherGroups (groups.flatMap TreeGroup.lines) = ([], groups) := by
  induction groups with
  | nil => rfl
  | cons g groups ih => simp [TreeGroup.lines, gatherGroups, gatherGroups_leaves, ih]

/-- **The plain text of a report with legible names is read back.**

**Proof sketch.** No line has a line feed in it, so the text falls apart into the lines it was made from. Each line
of a group is read as what it shows, and the leaves go to the root above them. -/
theorem TimingReport.readTree?_renderPlain {r : TimingReport} (h : r.Legible) :
    readTree? r.renderPlain.toList = some r.shown := by
  let lines := r.groups.flatMap (GroupReport.lines id TagShare.line)
  have hlines : ∀ line ∈ lines.map String.toList, '\n' ∉ line := by
    intro line hline
    obtain ⟨text, htext, rfl⟩ := List.mem_map.mp hline
    obtain ⟨g, hg, htext⟩ := List.mem_flatMap.mp htext
    exact notMem_line (h g hg).1 (fun s hs => ((h g hg).2 s hs).1) htext
  have htext : r.renderPlain.toList = (lines.map String.toList).flatMap fun line => line ++ ['\n'] := by
    rw [r.toList_renderPlain, List.flatMap_map]
  have hread : (lines.map String.toList).mapM readLine? = some (r.shown.flatMap TreeGroup.lines) := by
    rw [List.mapM_map, shown, List.flatMap_map]
    exact mapM_flatMap_eq_some fun g hg => mapM_readLine?_lines fun s hs => ((h g hg).2 s hs).2
  rw [readTree?, htext, splitOn_lines hlines, dropSuffix?_append]
  simp only [Option.bind_eq_bind, Option.bind_some, hread, gatherGroups_lines]

/-! ## A leaf for every time -/

/-- The names in a group of a tree: its own, and those of its leaves. -/
def TreeGroup.names (g : TreeGroup) : String × List String := (g.group, g.leaves.map TreeLeaf.tag)

/-- The leaves of a tree, each with the group that it belongs to. -/
def leafKeys (tree : List TreeGroup) : List (String × String) :=
  tree.flatMap fun g => g.leaves.map fun leaf => (g.group, leaf.tag)

/-- The leaves show the tags in order. -/
private lemma map_tag_shownLeaves (tags : List TagShare) :
    (shownLeaves tags).map TreeLeaf.tag = tags.map TagShare.tag := by
  apply List.ext_getElem
  · simp [shownLeaves]
  · intro i _ _
    simp [shownLeaves, TagShare.shown]

/-- Exactly the last leaf is closed. -/
private lemma closed_shownLeaves {tags : List TagShare} {i : ℕ} {leaf : TreeLeaf}
    (h : (shownLeaves tags)[i]? = some leaf) : leaf.closed = true ↔ i + 1 = (shownLeaves tags).length := by
  rw [shownLeaves, List.getElem?_mapIdx, Option.map_eq_some_iff] at h
  obtain ⟨s, -, rfl⟩ := h
  simp [shownLeaves, TagShare.shown]

namespace Collector

variable (c : Collector)

/-- **What is shown of a report has the groups and tags of the collector**, in the same order. -/
theorem map_names_shown_report : c.report.shown.map TreeGroup.names =
    c.groups.entries.map fun (group, sums) => (group, sums.names) := by
  rw [TimingReport.shown, report, List.map_map, List.map_map]
  refine List.map_congr_left fun (group, sums) _ => ?_
  have htags : (GroupReport.ofSums group sums).tags.map TagShare.tag = sums.names := by
    rw [GroupReport.ofSums, List.map_map]
    rfl
  simp only [Function.comp_apply, TreeGroup.names, GroupReport.shown, map_tag_shownLeaves, htags]
  rfl

/-- The leaves of a report are the sums of the collector, in the same order. -/
private lemma leafKeys_shown_report : leafKeys c.report.shown = c.keys := by
  have hnames : leafKeys c.report.shown =
      (c.report.shown.map TreeGroup.names).flatMap fun (group, tags) => tags.map (Prod.mk group) := by
    simp [leafKeys, TreeGroup.names, List.flatMap_map, Function.comp_def]
  rw [hnames, map_names_shown_report]
  simp [keys, samples, NameMap.names, List.flatMap_map, List.map_flatMap, Function.comp_def]

/-- **Every sum of the collector has one leaf**, and there are no others.

**Proof sketch.** The leaves are the keys that the collector lists, each of which it lists once. -/
theorem count_leafKeys_shown_report (group tag : String) :
    (leafKeys c.report.shown).count (group, tag) = if (c.get? group tag).isSome then 1 else 0 := by
  have hmem : (group, tag) ∈ c.keys ↔ (c.get? group tag).isSome := by
    rw [keys, List.mem_map, Option.isSome_iff_exists]
    constructor
    · rintro ⟨s, hs, heq⟩
      cases heq
      exact ⟨s.elapsed, c.mem_samples_iff.mp hs⟩
    · rintro ⟨sum, hsum⟩
      exact ⟨⟨group, tag, sum⟩, c.mem_samples_iff.mpr hsum, rfl⟩
  have hnodup : c.keys.Nodup := c.nodup_keys_samples
  rw [leafKeys_shown_report, hnodup.count]
  simp only [hmem]

end Collector

/-- **The plain text of a report is unambiguous**, whatever names there are, as long as they have no line feeds in
them and no tag ends with a blank. Two aggregators with the same text show the same groups in the same order, and
in each of them the same tags in the same order, with the same milliseconds and shares. The text has one leaf for
every sum, which stands below the root of its group, and no others; and of the leaves of a group exactly the last
one has the closing branch.

**Proof sketch.** The text is read back as what is shown of the report, so that two reports with the same text show the
same, and the tree has the groups and tags of the collector. -/
theorem Aggregator.render_plain_unambiguous (a : Aggregator) (ha : a.summary.Legible) (painter : Painter) :
    (∀ b : Aggregator, b.summary.Legible → a.render .plain painter = b.render .plain painter →
      a.summary.shown = b.summary.shown) ∧
    ∃ tree, readTree? (a.render .plain painter).toList = some tree ∧
      tree.map TreeGroup.names = a.snapshot.groups.entries.map (fun (group, sums) => (group, sums.names)) ∧
      (∀ group tag, (leafKeys tree).count (group, tag) = if (a.snapshot.get? group tag).isSome then 1 else 0) ∧
      ∀ g ∈ tree, ∀ i leaf, g.leaves[i]? = some leaf → (leaf.closed = true ↔ i + 1 = g.leaves.length) := by
  have hread := TimingReport.readTree?_renderPlain ha
  refine ⟨fun b hb hsame => ?_, a.summary.shown, hread, a.snapshot.map_names_shown_report,
    a.snapshot.count_leafKeys_shown_report, ?_⟩
  · have htext : a.summary.renderPlain = b.summary.renderPlain := hsame
    rw [htext, TimingReport.readTree?_renderPlain hb] at hread
    exact (Option.some.inj hread).symm
  · intro g hg i leaf hleaf
    obtain ⟨r, -, rfl⟩ := List.mem_map.mp hg
    exact closed_shownLeaves hleaf

/-- Names that look like branches and figures, a tag without characters and one that is longer than its column, and
two aggregators with other times and the same text. -/
theorem Aggregator.render_plain_unambiguous_odd_names :
    let sums (n : Fin 4) : NameMap Duration :=
      (((NameMap.empty.insert "" ⟨n.val, n.isLt.trans (by decide)⟩).insert "    ├── load time: 1.00 ms, 2.0%"
        ⟨1000000 + n.val, by decide +revert⟩).insert "a tag that is longer than its column is"
          (⟨2000000, by decide⟩ : Duration))
    let a : Aggregator := ⟨⟨NameMap.empty.insert "└── 50% time: 3.00 ms" (sums 0)⟩, false⟩
    let b : Aggregator := ⟨⟨NameMap.empty.insert "└── 50% time: 3.00 ms" (sums 3)⟩, true⟩
    a.snapshot ≠ b.snapshot ∧ a.render .plain (terminal true) = b.render .plain (terminal true) ∧
      a.summary.shown = b.summary.shown ∧
      ∃ tree, readTree? (a.render .plain (terminal true)).toList = some tree ∧
        tree.map TreeGroup.names = [("└── 50% time: 3.00 ms",
          ["", "    ├── load time: 1.00 ms, 2.0%", "a tag that is longer than its column is"])] := by
  intro sums a b
  have ha : a.summary.Legible := by decide +kernel
  have hb : b.summary.Legible := by decide +kernel
  have hlines : a.summary.groups.flatMap (GroupReport.lines id TagShare.line) =
      b.summary.groups.flatMap (GroupReport.lines id TagShare.line) := by
    decide +kernel
  have hsame : a.summary.renderPlain = b.summary.renderPlain :=
    congrArg (fun lines : List String => String.join (lines.map fun line => line ++ "\n")) hlines
  obtain ⟨hunique, tree, htree, hnames, -⟩ := a.render_plain_unambiguous ha (terminal true)
  exact ⟨by decide, hsame, hunique b hb hsame, tree, htree, hnames.trans (by decide +kernel)⟩

end SparseDot.Timing
