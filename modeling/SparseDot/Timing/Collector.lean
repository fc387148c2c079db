import SparseDot.NameMap
import SparseDot.Timing.Duration
import SparseDot.Timing.Outcome

set_option autoImplicit false

/-!
# Collectors

A collector sums measured times by group and, within a group, by tag.

## Main definitions

* `SparseDot.Timing.Sample` — a measured time with its group and tag.
* `SparseDot.Timing.Collector` — sums of samples.
* `SparseDot.Timing.Collector.add`, `SparseDot.Timing.Collector.merge` — one more sample, and all the sums
  of another collector.
* `SparseDot.Timing.Collector.get?`, `SparseDot.Timing.Collector.samples` — views of the sums.

## Design

Adding a sample first opens its entry, at no time if it is new, and then adds to it. Only the addition can
fail, and a failed one leaves the entry as it was opened.
-/

namespace SparseDot.Timing

/-- **A measured time** with the group and the tag that it counts for. -/
structure Sample where
  group : String
  tag : String
  elapsed : Duration
  deriving DecidableEq

/-- **Sums of measured times**, by group and tag. -/
structure Collector where
  /-- The sums of a group by tag, by group. -/
  groups : NameMap (NameMap Duration)
  deriving DecidableEq

namespace Collector

/-- The collector without sums. -/
def empty : Collector := ⟨.empty⟩

instance : Inhabited Collector := ⟨empty⟩

variable (c : Collector)

/-- Whether there are no groups. -/
def isEmpty : Bool := c.groups.isEmpty

/-- The sum of a tag in a group. -/
def get? (group tag : String) : Option Duration := (c.groups.get? group).bind (·.get? tag)

/-- **The sums, as one sample each**, in the order of groups and tags. -/
def samples : List Sample :=
  c.groups.entries.flatMap fun (group, tags) => tags.entries.map fun (tag, elapsed) => ⟨group, tag, elapsed⟩

/-- The keys of the sums, in order. -/
def keys : List (String × String) := c.samples.map fun s => (s.group, s.tag)

/-- The collector with the sum of a tag set. -/
def set (group tag : String) (sum : Duration) : Collector :=
  ⟨c.groups.insert group (((c.groups.get? group).getD .empty).insert tag sum)⟩

/-- **Adds a sample to the sum of its group and tag.** A sum that would be too long is a fault, and stays
as it was. -/
def add (s : Sample) : Outcome Collector :=
  let opened := (c.get? s.group s.tag).getD .zero
  match opened.add? s.elapsed with
  | some sum => .done (c.set s.group s.tag sum)
  | none => .failed .durationOverflow (c.set s.group s.tag opened)

/-- **Adds all sums of another collector**, one by one in their order, up to the first fault. -/
def merge (other : Collector) : Outcome Collector := Outcome.run add c other.samples

end Collector

end SparseDot.Timing
