import SparseDot.Timing.Collector
import SparseDot.Text.DataFormat

set_option autoImplicit false

/-!
# Timing reports

A report gives the sums of a collector in milliseconds, with the share that each tag has in its group.

## Main definitions

* `SparseDot.Timing.TagShare`, `SparseDot.Timing.GroupReport`, `SparseDot.Timing.TimingReport` — reports.
* `SparseDot.Timing.Collector.report` — the report of a collector.
* `SparseDot.Timing.TimingReport.encode`, `SparseDot.Timing.TimingReport.decode?` — reports as values of a data
  format.
* `SparseDot.Timing.TimingReport.toJson`, `SparseDot.Timing.TimingReport.ofJson?` — reports as JSON values.
-/

namespace SparseDot.Timing

/-- **The time of a tag**, and its share of the time of its group. -/
structure TagShare where
  tag : String
  millis : Binary64
  /-- In percent; zero in a group without any time. -/
  percent : Binary64
  deriving DecidableEq

/-- **The time of a group**, and the times of its tags. -/
structure GroupReport where
  group : String
  totalMillis : Binary64
  tags : List TagShare
  deriving DecidableEq

/-- **The times of all groups.** -/
structure TimingReport where
  groups : List GroupReport
  deriving DecidableEq

/-! ## The report of a collector -/

/-- The share of a time in a total, in percent. -/
def percentOf (millis total : Binary64) : Binary64 :=
  if (Binary.zero false).lt total then millis / total * Binary.ofNat 100 else Binary.zero false

/-- The report of one group: its total is the sum of the milliseconds of its tags, in order. -/
def GroupReport.ofSums (group : String) (sums : NameMap Duration) : GroupReport :=
  let total := Binary.sum (sums.entries.map fun (_, elapsed) => elapsed.millis)
  let share (tag : String) (elapsed : Duration) : TagShare :=
    ⟨tag, elapsed.millis, percentOf elapsed.millis total⟩
  ⟨group, total, sums.entries.map fun (tag, elapsed) => share tag elapsed⟩

/-- **The report of a collector.** -/
def Collector.report (c : Collector) : TimingReport :=
  ⟨c.groups.entries.map fun (group, sums) => GroupReport.ofSums group sums⟩

/-! ## Reports as values of a data format

A record is written with a field for each of its parts, and read from a value with these fields. -/

section DataFormat

variable {α : Type} (format : DataFormat α)

/-- A share as a value. -/
def TagShare.encode (s : TagShare) : α :=
  format.record [("tag", format.text s.tag), ("millis", format.number s.millis), ("percent", format.number s.percent)]

/-- The share that a value stands for. -/
def TagShare.decode? (value : α) : Option TagShare := do
  match ← format.fields? ["tag", "millis", "percent"] value with
  | [tag, millis, percent] => return ⟨← format.text? tag, ← format.number? millis, ← format.number? percent⟩
  | _ => none

/-- The report of a group as a value. -/
def GroupReport.encode (r : GroupReport) : α :=
  format.record [("group", format.text r.group), ("total_millis", format.number r.totalMillis),
    ("tags", format.list (r.tags.map (TagShare.encode format)))]

/-- The report of a group that a value stands for. -/
def GroupReport.decode? (value : α) : Option GroupReport := do
  match ← format.fields? ["group", "total_millis", "tags"] value with
  | [group, total, tags] =>
    return ⟨← format.text? group, ← format.number? total, ← (← format.list? tags).mapM (TagShare.decode? format)⟩
  | _ => none

/-- **A report as a value.** -/
def TimingReport.encode (r : TimingReport) : α :=
  format.record [("groups", format.list (r.groups.map (GroupReport.encode format)))]

/-- **The report that a value stands for.** -/
def TimingReport.decode? (value : α) : Option TimingReport := do
  match ← format.fields? ["groups"] value with
  | [groups] => return ⟨← (← format.list? groups).mapM (GroupReport.decode? format)⟩
  | _ => none

end DataFormat

/-- **A report as a JSON value.** -/
def TimingReport.toJson (r : TimingReport) : Json := r.encode Json.format

/-- **The report that a JSON value stands for.** -/
def TimingReport.ofJson? (value : Json) : Option TimingReport := decode? Json.format value

end SparseDot.Timing
