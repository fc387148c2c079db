import SparseDot.Numeric.Decimal.Fixed
import SparseDot.Text.Style
import SparseDot.Timing.Aggregator

set_option autoImplicit false

/-!
# Reports as trees

A report is shown as a tree for every group, with the tags as its leaves. The last leaf has a closing branch,
the others an open one.

## Main definitions

* `SparseDot.Timing.GroupReport.lines` — the lines of a group.
* `SparseDot.Timing.TimingReport.render`, `SparseDot.Timing.TimingReport.renderPlain` — the text of a report, in
  colours and as text alone.
* `SparseDot.Timing.ReportStyle`, `SparseDot.Timing.Aggregator.render` — the text of what has been merged, in a
  style.
-/

namespace SparseDot.Timing

/-- The width that tags are filled up to. -/
def tagWidth : Nat := 30

/-- A text filled up with blanks to a number of characters. A longer one is kept as it is. -/
def padded (width : Nat) (text : String) : String :=
  text ++ String.ofList (List.replicate (width - text.length) ' ')

/-- The figures of a leaf: milliseconds to two places, and percent to one. -/
def TagShare.figures (s : TagShare) : String :=
  " time: " ++ Decimal.fixed 2 s.millis ++ " ms, " ++ Decimal.fixed 1 s.percent ++ "%"

/-- The branch of a leaf. -/
def branch (last : Bool) : String := if last then "    └── " else "    ├── "

/-- **A line for every leaf**, of which the last one is closed. -/
def leafLines {α : Type} (line : Bool → TagShare → α) : List TagShare → List α
  | [] => []
  | [s] => [line true s]
  | s :: rest => line false s :: leafLines line rest

/-- **The lines of a group**: its root, and a leaf for every tag. -/
def GroupReport.lines {α : Type} (root : String → α) (leaf : Bool → TagShare → α) (r : GroupReport) : List α :=
  root ("└── " ++ r.group) :: leafLines leaf r.tags

/-! ## Lines in colours -/

/-- The line of a root, in its colour. -/
def rootSpans (root : String) : List Span := [⟨.green, root⟩]

/-- The line of a leaf, with a colour for each of its parts. -/
def TagShare.spans (last : Bool) (s : TagShare) : List Span :=
  [⟨.blue, branch last⟩, ⟨.yellow, padded tagWidth s.tag⟩, ⟨.cyan, s.figures⟩]

/-- **The text of a report**, as a painter shows it. -/
def TimingReport.render (painter : Painter) (r : TimingReport) : String :=
  renderLines painter (r.groups.flatMap (GroupReport.lines rootSpans TagShare.spans))

/-! ## Lines as text alone -/

/-- The line of a leaf, as text alone. -/
def TagShare.line (last : Bool) (s : TagShare) : String := branch last ++ padded tagWidth s.tag ++ s.figures

/-- **The text of a report**, as text alone. -/
def TimingReport.renderPlain (r : TimingReport) : String :=
  String.join ((r.groups.flatMap (GroupReport.lines id TagShare.line)).map fun line => line ++ "\n")

/-! ## Styles -/

/-- **How a report is shown.** -/
inductive ReportStyle where
  /-- As text alone. -/
  | plain
  /-- In colours, where these are switched on. -/
  | ansi
  deriving DecidableEq, Repr

/-- The text of a report in a style, for a painter of colours. -/
def TimingReport.write (style : ReportStyle) (painter : Painter) (r : TimingReport) : String :=
  match style with
  | .plain => r.renderPlain
  | .ansi => r.render painter

/-- **What has been merged, as a text in a style.** -/
def Aggregator.render (style : ReportStyle) (painter : Painter) (a : Aggregator) : String :=
  a.summary.write style painter

end SparseDot.Timing
