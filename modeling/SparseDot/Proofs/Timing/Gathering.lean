import SparseDot.Proofs.Text.ByteOrder
import SparseDot.Proofs.Timing.Sums
import SparseDot.Timing.Tree

set_option autoImplicit false

/-!
# Gathering samples

Samples can get into an aggregator in many ways: they are added to collectors, the collectors are merged with
each other and into aggregators, and what an aggregator has merged is again a collector. Such a way is a tree
of calls. It succeeds if no sum of its samples is too long, and two ways with the same samples, in whatever
order, come to the same aggregator and so to the same report.

## Main definitions

* `SparseDot.Timing.Gathering`, `SparseDot.Timing.Pool` — the ways to build a collector and an aggregator.
* `SparseDot.Timing.Gathering.collector`, `SparseDot.Timing.Pool.aggregator` — what they come to.
* `SparseDot.Timing.Gathering.samples`, `SparseDot.Timing.Pool.samples` — the samples that they use.

## Main results

* `SparseDot.Timing.Pool.exists_holds` — a way to build an aggregator succeeds, and it holds the samples.
* `SparseDot.Timing.Collector.pairwise_report_groups`, `SparseDot.Timing.Collector.pairwise_report_tags` —
  a report lists groups and tags in the order of their bytes.
* `SparseDot.Timing.Pool.summary_eq_of_perm` — the report does not depend on the way.
-/

namespace SparseDot.Timing

/-- The state of a step that has run to its end, or the fault at which it stopped. -/
def Outcome.result {σ : Type} : Outcome σ → Except Fault σ
  | .done s => .ok s
  | .failed f _ => .error f

/-- The result of a step that has run to its end is its state. -/
@[simp] lemma Outcome.result_done {σ : Type} (s : σ) : (Outcome.done s).result = .ok s := rfl

/-- A step that has run to its end is followed by the next. -/
@[simp] lemma ok_bind {α β : Type} (a : α) (next : α → Except Fault β) :
    (Except.ok a >>= next) = next a := rfl

mutual

/-- **A way to build a collector.** -/
inductive Gathering where
  /-- A new collector. -/
  | empty
  /-- One more sample. -/
  | add (into : Gathering) (sample : Sample)
  /-- Another collector is merged. -/
  | merge (into source : Gathering)
  /-- What an aggregator has merged. -/
  | snapshot (pool : Pool)

/-- **A way to build an aggregator.** -/
inductive Pool where
  /-- A new aggregator. -/
  | fresh
  /-- One more collector is merged. -/
  | collectFrom (into : Pool) (source : Gathering)

end

mutual

/-- **The collector that is built**, or the fault at which a call stopped. -/
def Gathering.collector : Gathering → Except Fault Collector
  | .empty => .ok .empty
  | .add into sample => do ((← into.collector).add sample).result
  | .merge into source => do ((← into.collector).merge (← source.collector)).result
  | .snapshot pool => do return (← pool.aggregator).snapshot

/-- **The aggregator that is built**, or the fault at which a call stopped. -/
def Pool.aggregator : Pool → Except Fault Aggregator
  | .fresh => .ok .fresh
  | .collectFrom into source => do ((← into.aggregator).collectFrom (← source.collector)).result

end

mutual

/-- **The samples that are added on the way**, each as often as it is added. -/
def Gathering.samples : Gathering → List Sample
  | .empty => []
  | .add into sample => into.samples ++ [sample]
  | .merge into source => into.samples ++ source.samples
  | .snapshot pool => pool.samples

/-- **The samples that are added on the way**, each as often as it is added. -/
def Pool.samples : Pool → List Sample
  | .fresh => []
  | .collectFrom into source => into.samples ++ source.samples

end

/-! ## Every way succeeds -/

mutual

/-- **A collector is built without a fault, and holds the samples.**

**Proof sketch.** Induction on the way, together with that for aggregators. The samples of a part are no more than
those of the whole, so that no sum is too long on the way. -/
theorem Gathering.exists_holds :
    ∀ g : Gathering, Bounded g.samples → ∃ c, g.collector = .ok c ∧ c.Holds g.samples
  | .empty, _ => ⟨.empty, rfl, Collector.holds_empty⟩
  | .add into sample, h => by
    simp only [Gathering.samples] at h ⊢
    obtain ⟨c, hc, hholds⟩ := into.exists_holds h.of_append_left
    obtain ⟨c', hadd, hholds'⟩ := hholds.exists_add h
    exact ⟨c', by simp [Gathering.collector, hc, hadd], hholds'⟩
  | .merge into source, h => by
    simp only [Gathering.samples] at h ⊢
    obtain ⟨c, hc, hholds⟩ := into.exists_holds h.of_append_left
    obtain ⟨d, hd, hholds'⟩ := source.exists_holds h.of_append_right
    obtain ⟨c', hmerge, hall⟩ := hholds.exists_merge hholds'.sumOf_samples h
    exact ⟨c', by simp [Gathering.collector, hc, hd, hmerge], hall⟩
  | .snapshot pool, h => by
    simp only [Gathering.samples] at h ⊢
    obtain ⟨a, ha, hholds⟩ := pool.exists_holds h
    exact ⟨a.snapshot, by simp [Gathering.collector, ha], hholds⟩

/-- **An aggregator is built without a fault, and holds the samples.** -/
theorem Pool.exists_holds :
    ∀ p : Pool, Bounded p.samples → ∃ a, p.aggregator = .ok a ∧ a.snapshot.Holds p.samples
  | .fresh, _ => ⟨.fresh, rfl, Collector.holds_empty⟩
  | .collectFrom into source, h => by
    simp only [Pool.samples] at h ⊢
    obtain ⟨a, ha, hholds⟩ := into.exists_holds h.of_append_left
    obtain ⟨d, hd, hholds'⟩ := source.exists_holds h.of_append_right
    rw [a.snapshot_eq] at hholds
    obtain ⟨c', hcollect, hall⟩ := Aggregator.exists_collectFrom hholds hholds'.sumOf_samples h
    refine ⟨⟨c', a.poisoned⟩, by simp [Pool.aggregator, ha, hd, hcollect], ?_⟩
    rwa [Aggregator.snapshot_eq]

end

/-! ## The order of a report -/

namespace Collector

variable (c : Collector)

/-- **The groups of a report stand in the order of their bytes**, each once. -/
theorem pairwise_report_groups :
    (c.report.groups.map GroupReport.group).Pairwise fun a b => utf8Bytes a < utf8Bytes b := by
  simp only [report, List.map_map, List.pairwise_map, utf8Bytes_lt_iff]
  exact c.groups.sorted

/-- **The tags of every group of a report stand in the order of their bytes**, each once. -/
theorem pairwise_report_tags :
    ∀ r ∈ c.report.groups, (r.tags.map TagShare.tag).Pairwise fun a b => utf8Bytes a < utf8Bytes b := by
  intro r hr
  obtain ⟨⟨group, sums⟩, -, rfl⟩ := List.mem_map.mp hr
  simp only [GroupReport.ofSums, List.map_map, List.pairwise_map, utf8Bytes_lt_iff]
  exact sums.sorted

end Collector

/-! ## The report does not depend on the way -/

/-- **The report does not depend on how the samples were gathered.** If no sum of the samples is too long,
every way to get them into an aggregator succeeds, and the aggregator then has their exact sums. For two ways
it has the same collector, the same report and the same text in either style, and the report lists groups and tags
in the order of their bytes.

**Proof sketch.** Both ways succeed and come to collectors that hold the same samples in another order, so these are
equal. Everything else is computed from the collector. -/
theorem Pool.summary_eq_of_perm {samples : List Sample} (hbound : Bounded samples) {p q : Pool}
    (hp : p.samples.Perm samples) (hq : q.samples.Perm samples) :
    ∃ a b, p.aggregator = .ok a ∧ q.aggregator = .ok b ∧
      a.snapshot.Holds samples ∧ a.snapshot = b.snapshot ∧ a.summary = b.summary ∧
      (∀ style painter, a.render style painter = b.render style painter) ∧
      (a.summary.groups.map GroupReport.group).Pairwise (fun x y => utf8Bytes x < utf8Bytes y) ∧
      ∀ r ∈ a.summary.groups, (r.tags.map TagShare.tag).Pairwise fun x y => utf8Bytes x < utf8Bytes y := by
  obtain ⟨a, ha, hholds⟩ := p.exists_holds (hbound.perm hp.symm)
  obtain ⟨b, hb, hholds'⟩ := q.exists_holds (hbound.perm hq.symm)
  have hsnapshot : a.snapshot = b.snapshot := hholds.eq_of_perm hholds' (hp.trans hq.symm)
  have hsummary : a.summary = b.summary := congrArg Collector.report hsnapshot
  have hrender (style : ReportStyle) (painter : Painter) : a.render style painter = b.render style painter :=
    congrArg (TimingReport.write style painter) hsummary
  exact ⟨a, b, ha, hb, hholds.perm hp, hsnapshot, hsummary, hrender,
    a.snapshot.pairwise_report_groups, a.snapshot.pairwise_report_tags⟩

/-- Three samples, of which two make up a full second: added one by one to a single collector, or to two
collectors that go through a merge and another aggregator first, with the samples in another order. -/
theorem Pool.summary_eq_of_two_ways :
    let half : Sample := ⟨"load", "read", ⟨999999999, by decide⟩⟩
    let rest : Sample := ⟨"load", "read", ⟨1, by decide⟩⟩
    let other : Sample := ⟨"load", "é", ⟨5, by decide⟩⟩
    let p : Pool := .collectFrom .fresh (.add (.add (.add .empty half) rest) other)
    let q : Pool := .collectFrom
      (.collectFrom .fresh (.merge (.add .empty other) (.snapshot (.collectFrom .fresh (.add .empty rest)))))
      (.add .empty half)
    ∃ a b, p.aggregator = .ok a ∧ q.aggregator = .ok b ∧ a.snapshot = b.snapshot ∧ a.summary = b.summary ∧
      (a.snapshot.get? "load" "read").map Duration.nanoseconds = some 1000000000 := by
  intro half rest other p q
  have hbound : Bounded [half, rest, other] := bounded_of_sum_lt (by decide)
  have hp : p.samples.Perm [half, rest, other] := by decide
  have hq : q.samples.Perm [half, rest, other] := by decide
  obtain ⟨a, b, ha, hb, hholds, hsnapshot, hsummary, -⟩ := Pool.summary_eq_of_perm hbound hp hq
  exact ⟨a, b, ha, hb, hsnapshot, hsummary, hholds.map_get? "load" "read"⟩

end SparseDot.Timing
