import SparseDot.Proofs.Timing.Overflow
import SparseDot.Timing.Session

set_option autoImplicit false

/-!
# Poisoned locks

A merge into an aggregator that stops leaves the lock poisoned and the collector behind it half merged. The
thread that was merging still has its own collector. Nothing that a session does afterwards can tell that the
lock was poisoned: every step answers as it would with a new lock before the same collector.

## Main definitions

* `SparseDot.Timing.Session.unpoisoned` — a session with new locks before the same collectors.
* `SparseDot.Timing.Session.Alike` — sessions that differ in their locks at most.
* `SparseDot.Timing.Session.Collects` — the steps that merge into an aggregator, with what they merge.

## Main results

* `SparseDot.Timing.Session.Alike.runAll` — sessions that differ in their locks answer alike.
* `SparseDot.Timing.merge_stops_at_first_overflow` — what a merge that stops leaves, in collectors and in
  aggregators.
-/

namespace SparseDot.Timing

/-- Aggregators before the same collector merge alike. -/
private lemma Aggregator.collectFrom_congr {a b : Aggregator} (h : a.collected = b.collected) (d : Collector) :
    (a.collectFrom d).fault? = (b.collectFrom d).fault? ∧
      (a.collectFrom d).state.collected = (b.collectFrom d).state.collected := by
  simp only [fault?_collectFrom, collected_state_collectFrom, h, and_self]

namespace Session

variable {c n : ℕ}

/-! ## Sessions that differ in their locks -/

/-- **The session with new locks** before the same collectors. -/
def unpoisoned (s : Session c n) : Session c n :=
  { s with aggregators := s.aggregators.map fun a => ⟨a.collected, false⟩ }

/-- Aggregators that differ in their locks at most. -/
def SameSums (as bs : Vector Aggregator n) : Prop := ∀ i : Fin n, (as.get i).collected = (bs.get i).collected

/-- **Two sessions differ in their locks at most.** -/
structure Alike (s t : Session c n) : Prop where
  /-- The collectors at hand are the same. -/
  collectors : s.collectors = t.collectors
  /-- The thread's own collector is the same. -/
  own : s.own = t.own
  /-- The collectors behind the locks are the same. -/
  sameSums : SameSums s.aggregators t.aggregators

/-- Such aggregators show the same. -/
lemma SameSums.snapshot {as bs : Vector Aggregator n} (h : SameSums as bs) (i : Fin n) :
    (as.get i).snapshot = (bs.get i).snapshot := by
  rw [Aggregator.snapshot_eq, Aggregator.snapshot_eq, h i]

/-- A session with new locks differs in its locks at most. -/
private lemma alike_unpoisoned (s : Session c n) : Alike s s.unpoisoned :=
  ⟨rfl, rfl, fun i => by
    change s.aggregators[i].collected = s.unpoisoned.aggregators[i].collected
    simp [unpoisoned]⟩

/-- **Two steps answer the same**, and lead to sessions that differ in their locks at most. -/
def Agree (x y : Reply × Session c n) : Prop := x.1 = y.1 ∧ Alike x.2 y.2

section Alike

variable {s t : Session c n}

/-- What is answered without a change. -/
private lemma Alike.agree (h : Alike s t) {reply reply' : Reply} (hreply : reply = reply') :
    Agree (reply, s) (reply', t) := ⟨hreply, h⟩

/-- The same collector is put in the same place. -/
lemma Alike.setCollector (h : Alike s t) (target : Fin c) {d e : Collector} (hd : d = e) :
    Agree (s.setCollector target d) (t.setCollector target e) := by
  subst hd
  exact ⟨rfl, congrArg (fun v => v.set target d target.isLt) h.collectors, h.own, h.sameSums⟩

/-- A call on a collector leaves the same in the same place. -/
lemma Alike.leaveCollector (h : Alike s t) (target : Fin c) {o p : Outcome Collector} (ho : o = p) :
    Agree (s.leaveCollector target o) (t.leaveCollector target p) := by
  subst ho
  exact ⟨rfl, congrArg (fun v => v.set target o.state target.isLt) h.collectors, h.own, h.sameSums⟩

/-- A call on the thread's own collector leaves the same there. -/
lemma Alike.leaveOwn (h : Alike s t) {o p : Outcome ThreadLocal} (ho : o = p) :
    Agree (s.leaveOwn o) (t.leaveOwn p) := by
  subst ho
  exact ⟨rfl, h.collectors, rfl, h.sameSums⟩

/-- Aggregators before the same collector are put in the same place. -/
lemma SameSums.set {as bs : Vector Aggregator n} (h : SameSums as bs) (target : Fin n) {a b : Aggregator}
    (hab : a.collected = b.collected) :
    SameSums (as.set target a target.isLt) (bs.set target b target.isLt) := by
  intro i
  change (as.set target a target.isLt)[i].collected = (bs.set target b target.isLt)[i].collected
  simp only [Fin.getElem_fin, Vector.getElem_set]
  split_ifs
  · exact hab
  · exact h i

/-- A call on an aggregator leaves the same collector behind its lock. -/
lemma Alike.leaveAggregator (h : Alike s t) (target : Fin n) {o p : Outcome Aggregator}
    (hfault : o.fault? = p.fault?) (hstate : o.state.collected = p.state.collected) :
    Agree (s.leaveAggregator target o) (t.leaveAggregator target p) := by
  refine ⟨?_, h.collectors, h.own, h.sameSums.set target hstate⟩
  simp only [Session.leaveAggregator, hfault, Aggregator.snapshot_eq, hstate]

end Alike

mutual

/-- **A step answers the same whether a lock is poisoned or not.**

**Proof sketch.** A case for each step. What it reads and what it changes are collectors, at hand or behind a lock, and
these are the same in both sessions. -/
theorem Alike.step {s t : Session c n} (h : Alike s t) :
    ∀ command : Command c n, Agree (step s command) (step t command)
  | .add target sample => h.leaveCollector target (by rw [h.collectors])
  | .merge target source => h.leaveCollector target (by rw [h.collectors])
  | .look target group tag => h.agree (by rw [h.collectors])
  | .dump target => h.agree (by rw [h.collectors])
  | .clear target => h.setCollector target rfl
  | .isEmpty target => h.agree (by rw [h.collectors])
  | .equal left right => h.agree (by rw [h.collectors])
  | .record sample => h.leaveOwn (by rw [h.own])
  | .own => h.agree (by rw [h.own])
  | .resetOwn => h.leaveOwn (by rw [h.own])
  | .keepOwn target => h.setCollector target (by rw [h.own])
  | .recordWhileReading sample => h.leaveOwn (by rw [h.own])
  | .collect target => by
    obtain ⟨hfault, hstate⟩ := Aggregator.collectFrom_congr (h.sameSums target) s.own.collector
    exact h.leaveAggregator target (h.own ▸ hfault) (h.own ▸ hstate)
  | .collectFrom target source => by
    obtain ⟨hfault, hstate⟩ := Aggregator.collectFrom_congr (h.sameSums target) (s.collectors.get source)
    exact h.leaveAggregator target (h.collectors ▸ hfault) (h.collectors ▸ hstate)
  | .snapshot target => h.agree (congrArg Reply.sums (h.sameSums.snapshot target))
  | .keepSnapshot target source => h.setCollector target (h.sameSums.snapshot source)
  | .reset target => h.leaveAggregator target rfl rfl
  | .summary target => h.agree (congrArg (fun d : Collector => Reply.report d.report) (h.sameSums.snapshot target))
  | .tree target style colours => h.agree (congrArg (fun d : Collector =>
      Reply.text (d.report.write style (terminal colours))) (h.sameSums.snapshot target))
  | .json target indented => h.agree (congrArg (fun d : Collector =>
      Reply.text (if indented then d.report.toJson.pretty else d.report.toJson.compact)) (h.sameSums.snapshot target))
  | .readsBack target => h.agree (congrArg (fun d : Collector =>
      Reply.truth (decide (TimingReport.ofJson? d.report.toJson = some d.report))) (h.sameSums.snapshot target))
  | .thread steps => by
    have hstart : Alike { s with own := .fresh } { t with own := .fresh } :=
      ⟨h.collectors, rfl, h.sameSums⟩
    obtain ⟨hreplies, hafter⟩ := hstart.runAll steps
    exact ⟨congrArg Reply.replies hreplies, hafter.collectors, h.own, hafter.sameSums⟩
  | .parallel threads => ⟨rfl, h.collectors, h.own, h.sameSums.runThreads threads⟩

/-- **The steps of a list answer the same** whether a lock is poisoned or not. -/
theorem Alike.runAll {s t : Session c n} (h : Alike s t) :
    ∀ commands : List (Command c n), (runAll s commands).1 = (runAll t commands).1 ∧
      Alike (runAll s commands).2 (runAll t commands).2
  | [] => ⟨rfl, h⟩
  | command :: rest => by
    obtain ⟨hreply, hafter⟩ := h.step command
    obtain ⟨hreplies, hlast⟩ := hafter.runAll rest
    simp only [Session.runAll]
    exact ⟨congrArg₂ List.cons hreply hreplies, hlast⟩

/-- **Threads merge the same** whether a lock is poisoned or not. -/
theorem SameSums.runThreads {as bs : Vector Aggregator n} (h : SameSums as bs) :
    ∀ threads : List (List (Command c n)), SameSums (runThreads as threads) (runThreads bs threads)
  | [] => h
  | steps :: rest => by
    have hstart : Alike (⟨.replicate c .empty, as, .fresh⟩ : Session c n) ⟨.replicate c .empty, bs, .fresh⟩ :=
      ⟨rfl, rfl, h⟩
    obtain ⟨-, hafter⟩ := hstart.runAll steps
    simp only [Session.runThreads]
    exact hafter.sameSums.runThreads rest

end

/-! ## Merges that stop -/

/-- **The steps that merge into an aggregator**, with the collector that they merge: the thread's own one, or
one of those at hand. -/
inductive Collects (s : Session c n) (target : Fin n) : Command c n → Collector → Prop where
  | collect : Collects s target (.collect target) s.own.collector
  | collectFrom (source : Fin c) : Collects s target (.collectFrom target source) (s.collectors.get source)

section Collects

variable {s : Session c n} {target : Fin n} {command : Command c n} {b : Collector}

/-- Such a step merges the collector into the aggregator. -/
private lemma Collects.step_eq (h : Collects s target command b) :
    s.step command = s.leaveAggregator target ((s.aggregators.get target).collectFrom b) := by
  cases h <;> rfl

/-- **What a step leaves whose merge has stopped**: a half merged collector behind a poisoned lock, and all
else as it was. -/
structure LeftPoisoned (s : Session c n) (target : Fin n) (b : Collector) (after : Session c n) : Prop where
  /-- The collector behind the lock is half merged. -/
  halfMerged : ∃ key, Collector.HalfMerged key (s.aggregators.get target).collected b
    (after.aggregators.get target).collected
  /-- The lock is poisoned. -/
  poisoned : (after.aggregators.get target).poisoned = true
  /-- The other aggregators are as they were. -/
  others : ∀ i : Fin n, i ≠ target → after.aggregators.get i = s.aggregators.get i
  /-- The thread's own collector is as it was. -/
  own : after.own = s.own
  /-- The collectors at hand are as they were. -/
  collectors : after.collectors = s.collectors

/-- **A step that merges** answers with a fault exactly if a key overflows.

**Proof sketch.** A merge gets to its end, where no key overflows, or it stops at the first key that does. If it gets
to its end then so does the step. If it stops then the half merged collector is put behind the lock, which is poisoned,
and nothing else is put anywhere. -/
theorem Collects.step_cases (h : Collects s target command b) :
    ((∀ f, (s.step command).1 ≠ .fault f) ∧
      ∀ key, ¬Collector.Overflows (s.aggregators.get target).collected b key) ∨
    ((∃ f, (s.step command).1 = .fault f) ∧ LeftPoisoned s target b (s.step command).2) := by
  rw [h.step_eq]
  rcases Collector.merge_cases (s.aggregators.get target).collected b with
    ⟨merged, hmerge, hfits, -⟩ | ⟨merged, key, hmerge, hhalf⟩
  · rw [Aggregator.collectFrom_of_done hmerge]
    exact .inl ⟨fun _ => Reply.noConfusion, hfits⟩
  · rw [Aggregator.collectFrom_of_failed hmerge]
    have htarget : (s.aggregators.set target ⟨merged, true⟩ target.isLt).get target = ⟨merged, true⟩ :=
      Vector.getElem_set_self target.isLt
    refine .inr ⟨⟨_, rfl⟩, ⟨key, ?_⟩, ?_, fun i hi => ?_, rfl, rfl⟩
    · exact htarget.symm ▸ hhalf
    · exact congrArg Aggregator.poisoned htarget
    · exact Vector.getElem_set_ne target.isLt i.isLt fun h => hi (Fin.ext h.symm)

end Collects

end Session

/-- **A merge stops at the first key that overflows, and only there.** Then the keys before it are merged and
all others are as they were. A merge into an aggregator stops in the same cases and leaves the same behind its
lock, which is then poisoned; the other aggregators, the thread's own collector and the collectors at hand are
as they were. Whatever steps follow, on this thread or on others, they answer as they would with a new lock
before the half merged collector, and come to the same collectors.

**Proof sketch.** What a merge does, and what a step does that merges, are two cases each, of which exactly one has a
key that overflows. The session that is left differs from the one with new locks in its locks at most, so both answer
alike from then on. -/
theorem merge_stops_at_first_overflow (a b : Collector) :
    ((a.merge b).fault? ≠ none ↔ ∃ key, Collector.Overflows a b key) ∧
    ((a.merge b).fault? ≠ none → ∃ key, Collector.HalfMerged key a b (a.merge b).state) ∧
    ∀ {c n : ℕ} (s : Session c n) (target : Fin n) (command : Command c n),
      (s.aggregators.get target).collected = a → Session.Collects s target command b →
      ((∃ f, (s.step command).1 = .fault f) ↔ ∃ key, Collector.Overflows a b key) ∧
      ((∃ f, (s.step command).1 = .fault f) →
        let after := (s.step command).2
        Session.LeftPoisoned s target b after ∧
        ∀ commands, (after.runAll commands).1 = (after.unpoisoned.runAll commands).1 ∧
          Session.Alike (after.runAll commands).2 (after.unpoisoned.runAll commands).2) := by
  refine ⟨?_, fun hfault => ?_, fun s target command ha hcollects => ?_⟩
  · rcases Collector.merge_fits_or_stops a b with ⟨hdone, hfits⟩ | ⟨hfault, key, hhalf⟩
    · exact ⟨fun h => absurd hdone h, fun ⟨key, h⟩ => absurd h (hfits key)⟩
    · exact ⟨fun _ => ⟨key, hhalf.overflows⟩, fun _ => hfault⟩
  · exact ((Collector.merge_fits_or_stops a b).resolve_left fun h => hfault h.1).2
  · subst ha
    rcases hcollects.step_cases with ⟨hdone, hfits⟩ | ⟨hfault, hleft⟩
    · refine ⟨⟨fun ⟨f, h⟩ => absurd h (hdone f), fun ⟨key, h⟩ => absurd h (hfits key)⟩, ?_⟩
      exact fun ⟨f, h⟩ => absurd h (hdone f)
    · obtain ⟨key, hhalf⟩ := hleft.halfMerged
      exact ⟨⟨fun _ => ⟨key, hhalf.overflows⟩, fun _ => hfault⟩,
        fun _ => ⟨hleft, (Session.alike_unpoisoned _).runAll⟩⟩

/-- A worker merges three sums, of which the second is too long together with what was merged before. The group
before it has been added, the tag after it has not. -/
theorem merge_stops_at_second_of_three_sums :
    let longest : Duration := ⟨Duration.limit - 1, by decide⟩
    let short : Duration := ⟨1, by decide⟩
    let merged := (Collector.empty.set "g" "a" longest).set "g" "b" short
    let source := ((Collector.empty.set "f" "z" short).set "g" "a" short).set "g" "b" short
    let s : Session 0 1 := ⟨#v[], #v[⟨merged, false⟩], ⟨source, 0⟩⟩
    let after := (s.step (.collect 0)).2
    (∃ f, (s.step (.collect 0)).1 = .fault f) ∧ after.own = s.own ∧ (after.aggregators.get 0).poisoned = true ∧
      (after.runAll [.snapshot 0]).1 = (after.unpoisoned.runAll [.snapshot 0]).1 ∧
      (after.aggregators.get 0).collected.samples.map (fun s => (s.group, s.tag, s.elapsed)) =
        [("f", "z", short), ("g", "a", longest), ("g", "b", short)] := by
  intro longest short merged source s after
  obtain ⟨-, -, hsession⟩ := merge_stops_at_first_overflow merged source
  obtain ⟨hiff, hafter⟩ := hsession s 0 (.collect 0) rfl .collect
  have hfault := hiff.mpr ⟨("g", "a"), Duration.limit - 1, 1, by decide +kernel, by decide +kernel, by decide⟩
  obtain ⟨hleft, hanswers⟩ := hafter hfault
  exact ⟨hfault, hleft.own, hleft.poisoned, (hanswers [.snapshot 0]).1, by decide +kernel⟩

end SparseDot.Timing
