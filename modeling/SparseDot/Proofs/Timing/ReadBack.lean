import SparseDot.Proofs.Timing.Figures

set_option autoImplicit false

/-!
# Reports can be read back

A format of data has finite numbers only. The other ones are written as the value that stands for nothing, which is no
number, so that a report is read back exactly if all of its figures are finite, and then nothing of it has changed. The
figures of an aggregator's report always are. All of this holds of every format that gives back what it is given, and
JSON is one of them.

## Main definitions

* `SparseDot.DataFormat.Faithful` — formats that give back what they are given.
* `SparseDot.Timing.TimingReport.isFinite` — whether all figures of a report are finite.

## Main results

* `SparseDot.Json.faithful_format` — JSON is such a format.
* `SparseDot.Timing.mapM_map_eq_guard` — lists are read back if their items are.
* `SparseDot.Timing.TimingReport.decode?_encode` — reading a report back.
* `SparseDot.Timing.TimingReport.survives_json` — what is read back, and that an aggregator's report is.
-/

namespace SparseDot

/-! ## Formats that give back what they are given -/

/-- **What is asked of a data format.** Texts, lists and finite numbers are read back as they were written. A record is
read back field by field, if no two of its fields have the same name. A number that is not finite is written as the
value that stands for nothing, and that is no number. -/
structure DataFormat.Faithful {α : Type} (format : DataFormat α) : Prop where
  /-- Texts are read back. -/
  text?_text : ∀ text, format.text? (format.text text) = some text
  /-- Lists are read back. -/
  list?_list : ∀ items, format.list? (format.list items) = some items
  /-- The fields of a record are found by their names. -/
  fields?_record : ∀ fields : List (String × α), (fields.map Prod.fst).Nodup →
    format.fields? (fields.map Prod.fst) (format.record fields) = some (fields.map Prod.snd)
  /-- Finite numbers are read back, down to their bits. -/
  number?_number : ∀ x : Binary64, x.isFinite → format.number? (format.number x) = some x
  /-- A number that is not finite is written as the value that stands for nothing. -/
  number_eq_null : ∀ x : Binary64, ¬x.isFinite → format.number x = format.null
  /-- The value that stands for nothing is no number. -/
  number?_null : format.number? format.null = none

/-- **A finite number is read back as it was**, and no other one is read back at all. -/
theorem DataFormat.Faithful.number?_eq_guard {α : Type} {format : DataFormat α} (h : format.Faithful) (x : Binary64) :
    format.number? (format.number x) = Option.guard Binary.isFinite x := by
  rw [Option.guard]
  split_ifs with hx
  · exact h.number?_number x hx
  · rw [h.number_eq_null x hx, h.number?_null]

namespace Json

/-- The fields of an object are found by their names, if no two of them have the same one.

**Proof sketch.** Induction on the fields. The first one is found by its name; as no later field has this name, the
others are found where they are found without the first one. -/
private lemma mapM_lookup_map_fst {α : Type} {fields : List (String × α)} (h : (fields.map Prod.fst).Nodup) :
    (fields.map Prod.fst).mapM (fun name => fields.lookup name) = some (fields.map Prod.snd) := by
  have hall : ∀ names values : List (String × α), (∀ p ∈ names, values.lookup p.1 = some p.2) →
      (names.map Prod.fst).mapM (fun name => values.lookup name) = some (names.map Prod.snd) := by
    intro names values hnames
    induction names with
    | nil => rfl
    | cons p names ih =>
      obtain ⟨hp, hnames⟩ := List.forall_mem_cons.mp hnames
      rw [List.map_cons, List.mapM_cons, hp, ih hnames]
      rfl
  refine hall fields fields fun p hp => ?_
  induction fields with
  | nil => cases hp
  | cons q fields ih =>
    rw [List.map_cons, List.nodup_cons] at h
    rcases List.mem_cons.mp hp with rfl | hp
    · exact List.lookup_cons_self
    · have hne : p.1 ≠ q.1 := fun heq => h.1 (heq ▸ List.mem_map_of_mem hp)
      rw [List.lookup_cons, beq_false_of_ne hne]
      exact ih h.2 hp

/-- **JSON gives back what it is given.**

**Proof sketch.** Fields are found by their names, and a number that is not finite is written as the value that stands
for nothing. -/
theorem faithful_format : format.Faithful where
  text?_text _ := rfl
  list?_list _ := rfl
  fields?_record _ := mapM_lookup_map_fst
  number?_number _ hx := congrArg toBinary? (if_pos hx)
  number_eq_null _ hx := if_neg hx
  number?_null := rfl

end Json

namespace Timing

/-- **A list is read back if all of its items are.**

**Proof sketch.** Induction on the items: the first one is read back or not, and the others are or not. -/
theorem mapM_map_eq_guard {α β : Type} {write : α → β} {read : β → Option α} {p : α → Bool}
    (hread : ∀ x, read (write x) = Option.guard p x) (xs : List α) :
    (xs.map write).mapM read = Option.guard (fun xs => xs.all p) xs := by
  induction xs with
  | nil => rfl
  | cons x xs ih =>
    rw [List.map_cons, List.mapM_cons, hread, ih]
    cases hx : p x <;> cases hxs : xs.all p <;> simp [Option.guard, hx, hxs]

/-- **Two parts are read back if both of them are.** -/
theorem bind_guard_guard {α β γ : Type} {p : α → Bool} {q : β → Bool} (f : α → β → γ) (a : α) (b : β) :
    (do return f (← Option.guard p a) (← Option.guard q b)) = if p a && q b then some (f a b) else none := by
  cases ha : p a <;> cases hb : q b <;> simp [Option.guard, ha, hb]

/-! ## Records -/

/-- Whether the figures of a share are finite. -/
def TagShare.isFinite (s : TagShare) : Bool := s.millis.isFinite && s.percent.isFinite

/-- Whether all figures of a group are finite. -/
def GroupReport.isFinite (r : GroupReport) : Bool := r.totalMillis.isFinite && r.tags.all TagShare.isFinite

/-- **Whether all figures of a report are finite.** -/
def TimingReport.isFinite (r : TimingReport) : Bool := r.groups.all GroupReport.isFinite

section Records

variable {α : Type} {format : DataFormat α} (h : format.Faithful)
include h

/-- A share is read back if its figures are finite. -/
private lemma TagShare.decode?_encode (s : TagShare) :
    decode? format (s.encode format) = Option.guard isFinite s := by
  have hfields := h.fields?_record
    [("tag", format.text s.tag), ("millis", format.number s.millis), ("percent", format.number s.percent)] (by simp)
  rw [List.map_cons, List.map_cons, List.map_singleton] at hfields
  rw [decode?, encode, hfields]
  simp only [Option.bind_eq_bind, Option.bind_some, List.map_cons, List.map_nil, h.text?_text, h.number?_eq_guard]
  exact bind_guard_guard (fun millis percent => TagShare.mk s.tag millis percent) _ _

/-- The report of a group is read back if its figures are finite. -/
private lemma GroupReport.decode?_encode (r : GroupReport) :
    decode? format (r.encode format) = Option.guard isFinite r := by
  have hfields := h.fields?_record
    [("group", format.text r.group), ("total_millis", format.number r.totalMillis),
      ("tags", format.list (r.tags.map (TagShare.encode format)))] (by simp)
  rw [List.map_cons, List.map_cons, List.map_singleton] at hfields
  rw [decode?, encode, hfields]
  simp only [Option.bind_eq_bind, Option.bind_some, List.map_cons, List.map_nil, h.text?_text, h.list?_list,
    h.number?_eq_guard, mapM_map_eq_guard (TagShare.decode?_encode h)]
  exact bind_guard_guard (fun total tags => GroupReport.mk r.group total tags) _ _

/-- **A report is read back as it was if all of its figures are finite**, and else not at all.

**Proof sketch.** From the inside to the outside: a record is read back if its fields are, and of these only numbers
may not be. -/
theorem TimingReport.decode?_encode (r : TimingReport) :
    decode? format (r.encode format) = Option.guard isFinite r := by
  have hfields := h.fields?_record
    [("groups", format.list (r.groups.map (GroupReport.encode format)))] (by simp)
  rw [List.map_singleton] at hfields
  rw [decode?, encode, hfields]
  simp only [Option.bind_eq_bind, Option.bind_some, List.map_cons, List.map_nil, h.list?_list,
    mapM_map_eq_guard (GroupReport.decode?_encode h)]
  cases hgroups : r.groups.all GroupReport.isFinite <;> simp [Option.guard, isFinite, hgroups]

end Records

/-- A negative zero is read back, a share that is no number is not. -/
example :
    let report (percent : Binary64) : TimingReport :=
      ⟨[⟨"group", Binary.zero true, [⟨"tag", Binary.zero true, percent⟩]⟩]⟩
    TimingReport.ofJson? (report (Binary.zero true)).toJson = some (report (Binary.zero true)) ∧
      TimingReport.ofJson? (report .nan).toJson = none := by
  decide

/-- All figures of a report are finite if those of every group and of every tag are. -/
private lemma TimingReport.isFinite_iff {r : TimingReport} : r.isFinite ↔ ∀ g ∈ r.groups, g.totalMillis.isFinite ∧
    ∀ s ∈ g.tags, s.millis.isFinite ∧ s.percent.isFinite := by
  simp [isFinite, GroupReport.isFinite, TagShare.isFinite]

/-! ## The reports of aggregators -/

/-- **The figures of a collector's report are finite**, whatever its sums are.

**Proof sketch.** The figures of every group are in order, so that they are numbers. -/
theorem Collector.isFinite_report (c : Collector) : c.report.isFinite := by
  refine TimingReport.isFinite_iff.mpr fun g hg => ?_
  obtain ⟨sums, -, heq⟩ := mem_report_groups_iff.mp hg
  have horder : g.InOrder sums.get? := by
    rw [heq]
    exact GroupReport.inOrder_ofSums g.group sums
  exact ⟨horder.total.1, fun s hs => ⟨(horder.millis s hs).1, (horder.percent s hs).1⟩⟩

/-- **Reports survive JSON**, and every other format that gives back what it is given. A report, whatever its names
and figures, can be read back exactly if all of its totals, milliseconds and shares are finite. What is read back is
the report itself, down to the bits of its figures. The report of an aggregator, whatever it has collected, can always
be read back.

**Proof sketch.** Reading back is a guard on the figures, which lets a report through as it is or not at all. -/
theorem TimingReport.survives_json :
    Json.format.Faithful ∧
    ∀ {α : Type} (format : DataFormat α), format.Faithful →
      (∀ r : TimingReport,
        ((decode? format (r.encode format)).isSome ↔ ∀ g ∈ r.groups, g.totalMillis.isFinite ∧
          ∀ s ∈ g.tags, s.millis.isFinite ∧ s.percent.isFinite) ∧
        ∀ r', decode? format (r.encode format) = some r' → r' = r) ∧
      ∀ a : Aggregator, decode? format (a.summary.encode format) = some a.summary := by
  refine ⟨Json.faithful_format, fun format h => ⟨fun r => ⟨?_, fun r' hread => ?_⟩, fun a => ?_⟩⟩
  · rw [decode?_encode h, Option.isSome_guard]
    exact isFinite_iff
  · rw [decode?_encode h, Option.guard_eq_some_iff] at hread
    exact hread.1.symm
  · rw [decode?_encode h, Option.guard_eq_some_iff]
    exact ⟨rfl, a.snapshot.isFinite_report⟩

/-- Two tags of one group, one of them without any time, as JSON; and a report that is not finite. -/
theorem TimingReport.survives_json_two_tags :
    let sums := (NameMap.empty.insert "load" ⟨1500000, by decide⟩).insert "score" (⟨0, by decide⟩ : Duration)
    let a : Aggregator := ⟨⟨NameMap.empty.insert "query" sums⟩, true⟩
    let r : TimingReport := ⟨[⟨"query", .infinity false, []⟩]⟩
    ofJson? a.summary.toJson = some a.summary ∧ ofJson? r.toJson = none := by
  intro sums a r
  obtain ⟨hread, hsummary⟩ := survives_json.2 Json.format survives_json.1
  refine ⟨hsummary a, Option.not_isSome_iff_eq_none.mp fun hsome => ?_⟩
  have hfinite := ((hread r).1.mp hsome ⟨"query", .infinity false, []⟩ (List.mem_singleton_self _)).1
  exact absurd hfinite (by decide)

end Timing

end SparseDot
