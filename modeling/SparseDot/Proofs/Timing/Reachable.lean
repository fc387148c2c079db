import SparseDot.Proofs.Timing.Colours
import SparseDot.Proofs.Timing.Overflow
import SparseDot.Timing.Reporter
import SparseDot.Timing.Session

set_option autoImplicit false

/-!
# Collectors in use have no empty groups

Adding a sample opens its group before anything is added to it, and the addition may stop. A group without tags
would be left behind if it stopped there: the collector would not be empty though nothing is found in it, and it
would differ from another one in which the same is found. This does not happen. No group is without tags in any
collector that calls lead to, whether these calls have stopped or not.

## Main definitions

* `SparseDot.Timing.Collector.Reachable` — the collectors that calls lead to.
* `SparseDot.Timing.Session.Reached` — sessions that have no others.

## Main results

* `SparseDot.Timing.Session.reached_of_runAll` — the steps of a session lead to such collectors only.
* `SparseDot.Timing.Collector.Reachable.canonical` — such a collector has no empty groups.
* `SparseDot.Timing.Collector.Reachable.canonical_form` — what is found in it is all there is to it.
-/

namespace SparseDot

/-- A map is empty if no name is found in it. -/
lemma NameMap.isEmpty_iff {β : Type} {m : NameMap β} : m.isEmpty = true ↔ ∀ name, m.get? name = none := by
  constructor
  · intro h name
    rw [get?, List.isEmpty_iff.mp h, List.lookup_nil]
  · intro h
    rw [eq_empty_of_get? h]
    rfl

namespace Timing

/-! ## What calls lead to -/

/-- **The collectors that calls lead to**, of collectors by themselves, of threads, and of aggregators. A call that
has stopped counts with what it has left. -/
inductive Collector.Reachable : Collector → Prop
  /-- A new collector, or one that was emptied. -/
  | empty : Reachable .empty
  /-- After a sample was added. -/
  | add {c : Collector} (hc : Reachable c) (s : Sample) : Reachable (c.add s).state
  /-- After a finished interval was reported. -/
  | report {c : Collector} (hc : Reachable c) (s : Sample) : Reachable (Reporter.report c s).state
  /-- After another collector was merged. -/
  | merge {c d : Collector} (hc : Reachable c) (hd : Reachable d) : Reachable (c.merge d).state
  /-- After a sample was added on a thread, or an interval reported there. -/
  | record {l : ThreadLocal} (hl : Reachable l.collector) (s : Sample) :
      Reachable (l.record s).state.collector
  /-- After a thread has forgotten its sums. -/
  | resetOwn {l : ThreadLocal} (hl : Reachable l.collector) : Reachable l.reset.state.collector
  /-- After a collector was merged into an aggregator. -/
  | collectFrom {a : Aggregator} {c : Collector} (ha : Reachable a.collected) (hc : Reachable c) :
      Reachable (a.collectFrom c).state.collected
  /-- After the collector of a thread was merged into an aggregator. -/
  | collect {a : Aggregator} {l : ThreadLocal} (ha : Reachable a.collected) (hl : Reachable l.collector) :
      Reachable (a.collect l).state.collected
  /-- After an aggregator has forgotten what was merged. -/
  | reset {a : Aggregator} (ha : Reachable a.collected) : Reachable a.reset.collected

/-- **The aggregators that calls lead to.** -/
def Aggregator.Reachable (a : Aggregator) : Prop := a.collected.Reachable

/-- Calls lead to what has been merged as well, in whatever state the lock is. -/
lemma Aggregator.Reachable.snapshot {a : Aggregator} (h : a.Reachable) : a.snapshot.Reachable := by
  rw [snapshot_eq]
  exact h

namespace Session

variable {c n : ℕ}

/-- **A session with nothing but collectors that calls lead to.** -/
structure Reached (s : Session c n) : Prop where
  collectors : ∀ i : Fin c, (s.collectors.get i).Reachable
  aggregators : ∀ i : Fin n, (s.aggregators.get i).Reachable
  own : s.own.collector.Reachable

/-- Setting an item of a vector keeps what holds of all items. -/
private lemma forall_get_set {α : Type} {m : ℕ} {v : Vector α m} {p : α → Prop} (h : ∀ i, p (v.get i)) (target : Fin m)
    {x : α} (hx : p x) (i : Fin m) : p ((v.set target x target.isLt).get i) := by
  change p (v.set target x target.isLt)[i]
  simp only [Fin.getElem_fin, Vector.getElem_set]
  split_ifs
  · exact hx
  · exact h i

/-- What holds of an item holds of all items of a vector of it. -/
private lemma forall_get_replicate {α : Type} {m : ℕ} {p : α → Prop} {x : α} (hx : p x) (i : Fin m) :
    p ((Vector.replicate m x).get i) := by
  change p (Vector.replicate m x)[i]
  rwa [Fin.getElem_fin, Vector.getElem_replicate]

/-- The session of a new thread with these aggregators. -/
private lemma reached_start {as : Vector Aggregator n} (has : ∀ i : Fin n, (as.get i).Reachable) :
    Reached (⟨.replicate c .empty, as, .fresh⟩ : Session c n) :=
  ⟨forall_get_replicate (p := Collector.Reachable) .empty, has, .empty⟩

/-- A new session has nothing but new collectors. -/
private lemma reached_fresh : Reached (fresh : Session c n) :=
  reached_start (forall_get_replicate (p := Aggregator.Reachable) .empty)

section Reached

variable {s : Session c n}

/-- A collector that calls lead to is put among those at hand. -/
lemma Reached.setCollector (h : s.Reached) (target : Fin c) {d : Collector} (hd : d.Reachable) :
    (s.setCollector target d).2.Reached :=
  ⟨forall_get_set h.collectors target hd, h.aggregators, h.own⟩

/-- A call on an aggregator leaves one that calls lead to. -/
lemma Reached.leaveAggregator (h : s.Reached) (target : Fin n) {o : Outcome Aggregator}
    (ho : o.state.Reachable) : (s.leaveAggregator target o).2.Reached :=
  ⟨h.collectors, forall_get_set (p := Aggregator.Reachable) h.aggregators target ho, h.own⟩

/-- A call on the thread's own collector leaves one that calls lead to. -/
lemma Reached.leaveOwn (h : s.Reached) {o : Outcome ThreadLocal} (ho : o.state.collector.Reachable) :
    (s.leaveOwn o).2.Reached :=
  ⟨h.collectors, h.aggregators, ho⟩

end Reached

mutual

/-- **A step leads to collectors that calls lead to.**

**Proof sketch.** A case for each step, which is a call, or calls of other threads, or changes nothing. -/
theorem Reached.step {s : Session c n} (h : s.Reached) : ∀ command : Command c n, (step s command).2.Reached
  | .add target sample => h.setCollector target ((h.collectors target).add sample)
  | .merge target source => h.setCollector target ((h.collectors target).merge (h.collectors source))
  | .look .. | .dump _ | .isEmpty _ | .equal .. | .own | .snapshot _ | .summary _ | .tree .. | .json ..
  | .readsBack _ => h
  | .clear target => h.setCollector target .empty
  | .record sample => h.leaveOwn (h.own.record sample)
  | .resetOwn => h.leaveOwn h.own.resetOwn
  | .keepOwn target => h.setCollector target h.own
  | .recordWhileReading sample => by
    have hreading : Collector.Reachable (ThreadLocal.collector ⟨s.own.collector, s.own.readers + 1⟩) := h.own
    refine h.leaveOwn ?_
    rw [ThreadLocal.reading, Outcome.state_map]
    exact hreading.record sample
  | .collect target => h.leaveAggregator target ((h.aggregators target).collect h.own)
  | .collectFrom target source =>
    h.leaveAggregator target ((h.aggregators target).collectFrom (h.collectors source))
  | .keepSnapshot target source => h.setCollector target (h.aggregators source).snapshot
  | .reset target => h.leaveAggregator target (h.aggregators target).reset
  | .thread steps =>
    have hstart : Reached { s with own := .fresh } := ⟨h.collectors, h.aggregators, .empty⟩
    have hafter := hstart.runAll steps
    ⟨hafter.collectors, hafter.aggregators, h.own⟩
  | .parallel threads => ⟨h.collectors, reachable_runThreads h.aggregators threads, h.own⟩

/-- **The steps of a list lead to collectors that calls lead to.** -/
theorem Reached.runAll {s : Session c n} (h : s.Reached) :
    ∀ commands : List (Command c n), (runAll s commands).2.Reached
  | [] => h
  | command :: rest => (h.step command).runAll rest

/-- **Threads leave aggregators that calls lead to.** -/
theorem reachable_runThreads {as : Vector Aggregator n} (has : ∀ i : Fin n, (as.get i).Reachable) :
    ∀ (threads : List (List (Command c n))) (i : Fin n), ((runThreads as threads).get i).Reachable
  | [] => has
  | steps :: rest => reachable_runThreads ((reached_start has).runAll steps).aggregators rest

end

/-- **Whatever a session does**, its collectors, its aggregators and its own collector are such that calls lead to
them. -/
theorem reached_of_runAll (commands : List (Command c n)) : (runAll (fresh : Session c n) commands).2.Reached :=
  reached_fresh.runAll commands

end Session

/-! ## No group is empty -/

namespace Collector

section Canonical

variable {c d : Collector} {a : Aggregator} {l : ThreadLocal}

/-- Merging leaves no group without tags, also if it stops. -/
lemma Canonical.merge (h : c.Canonical) (d : Collector) : (c.merge d).state.Canonical := h.run d.samples

/-- Recording a sample leaves no group without tags, also if it stops. -/
lemma Canonical.record (h : l.collector.Canonical) (s : Sample) : (l.record s).state.collector.Canonical := by
  rw [ThreadLocal.record, ThreadLocal.change]
  split_ifs
  · rw [Outcome.state_map]
    exact h.add s
  · exact h

/-- A thread that forgets its sums has no group without tags. -/
lemma Canonical.resetOwn (h : l.collector.Canonical) : l.reset.state.collector.Canonical := by
  rw [ThreadLocal.reset, ThreadLocal.change]
  split_ifs
  · exact canonical_empty
  · exact h

/-- Merging into an aggregator leaves no group without tags, also if it stops. -/
lemma Canonical.collectFrom (h : a.collected.Canonical) (d : Collector) :
    (a.collectFrom d).state.collected.Canonical := by
  rw [Aggregator.collected_state_collectFrom]
  exact h.merge d

/-- **Collectors that calls lead to have no empty groups**, as every call keeps it so, also if it stops. -/
theorem Reachable.canonical (h : c.Reachable) : c.Canonical := by
  induction h with
  | empty => exact canonical_empty
  | add _ s ih => exact ih.add s
  | report _ s ih => exact ih.add s
  | merge _ _ ih _ => exact ih.merge _
  | record _ s ih => exact ih.record s
  | resetOwn _ ih => exact ih.resetOwn
  | collectFrom _ _ ih _ => exact ih.collectFrom _
  | collect _ _ ih _ => exact ih.collectFrom _
  | reset => exact canonical_empty

/-- A collector without empty groups is empty if nothing is found in it. -/
lemma Canonical.isEmpty_iff (h : c.Canonical) : c.isEmpty = true ↔ ∀ group tag, c.get? group tag = none := by
  simp only [← h.groups_get?_eq_none_iff]
  exact NameMap.isEmpty_iff

end Canonical

end Collector

/-- **The plain text of an aggregator is empty if nothing has been merged**, and only then: every group has a line
of its own.

**Proof sketch.** The text is that of the groups, one after the other, and each has a line, so that its text is not
empty. -/
theorem Aggregator.render_plain_eq_empty_iff (a : Aggregator) (painter : Painter) :
    a.render .plain painter = "" ↔ a.snapshot.isEmpty = true := by
  have hgroup (g : GroupReport) : (g.lines id TagShare.line).flatMap (fun line => line.toList ++ ['\n']) ≠ [] := by
    simp [GroupReport.lines]
  have hgroups : a.summary.groups = [] ↔ a.snapshot.isEmpty = true := by
    rw [summary, Collector.report, List.map_eq_nil_iff]
    exact List.isEmpty_iff.symm
  have htext : a.render .plain painter = a.summary.renderPlain := rfl
  rw [htext, ← String.toList_eq_nil_iff, TimingReport.toList_renderPlain, List.flatMap_assoc, ← hgroups,
    List.flatMap_eq_nil_iff]
  constructor
  · intro h
    exact List.eq_nil_iff_forall_not_mem.mpr fun g hg => hgroup g (h g hg)
  · intro h g hg
    rw [h] at hg
    cases hg

/-- **A collector that calls lead to is what is found in it.** None of its groups is without tags, whatever calls
there were and whether they have stopped or not. So it is empty exactly if nothing is found in it, two such
collectors are equal exactly if the same is found in them, and the plain text of an aggregator that has come to it
is empty exactly if it is empty.

**Proof sketch.** No group of either collector is without tags, by induction on the calls. So a collector in which
nothing is found has no groups, and two in which the same is found have the same groups. -/
theorem Collector.Reachable.canonical_form {c d : Collector} (hc : c.Reachable) (hd : d.Reachable) :
    (∀ group sums, c.groups.get? group = some sums → sums.isEmpty = false) ∧
    (c.isEmpty = true ↔ ∀ group tag, c.get? group tag = none) ∧
    (c = d ↔ ∀ group tag, c.get? group tag = d.get? group tag) ∧
    ∀ (a : Aggregator) (painter : Painter), a.snapshot = c → (a.render .plain painter = "" ↔ c.isEmpty = true) := by
  refine ⟨fun group sums hsums => ?_, hc.canonical.isEmpty_iff, ⟨?_, hc.canonical.ext hd.canonical⟩, ?_⟩
  · rw [Bool.eq_false_iff]
    intro hempty
    apply hc.canonical group sums hsums
    exact NameMap.eq_empty_of_get? (NameMap.isEmpty_iff.mp hempty)
  · rintro rfl group tag
    rfl
  · rintro a painter rfl
    exact a.render_plain_eq_empty_iff painter

/-- A collector whose second sample is too much, and an aggregator that merges such a collector twice, which is too
much as well. -/
theorem Collector.Reachable.canonical_form_stopped :
    let s : Sample := ⟨"g", "t", ⟨Duration.limit - 1, by decide⟩⟩
    let once := (Collector.empty.add s).state
    let c := (once.add s).state
    let a := ((Aggregator.fresh.collectFrom once).state.collectFrom once).state
    (once.add s).fault? = some .durationOverflow ∧ a.poisoned = true ∧
      (∀ group sums, c.groups.get? group = some sums → sums.isEmpty = false) ∧
      (∀ group tag, c.get? group tag = a.snapshot.get? group tag) ∧ a.render .plain (terminal false) ≠ "" := by
  intro s once c a
  have honce : once.Reachable := .add .empty s
  have ha : a.snapshot.Reachable := Aggregator.Reachable.snapshot (.collectFrom (.collectFrom .empty honce) honce)
  obtain ⟨hgroups, -, hsame, -⟩ := canonical_form (honce.add s) ha
  obtain ⟨-, -, -, hrender⟩ := canonical_form ha ha
  refine ⟨by decide +kernel, by decide +kernel, hgroups, hsame.mp (by decide +kernel), fun htext => ?_⟩
  have hempty := (hrender a (terminal false) rfl).mp htext
  exact absurd hempty (by decide +kernel)

end Timing

end SparseDot
