import Mathlib.Data.List.Infix
import SparseDot.Proofs.Timing.Sums
import SparseDot.Proofs.Timing.Threads

set_option autoImplicit false

/-!
# Sums under every interleaving

Threads record samples in their own collectors and merge these, or others, into an aggregator that they
share. Which sums there are to be follows from the history of calls alone: a thread's own collector has the
samples that the thread has recorded since it last reset it, and the aggregator has what the merges since the
last reset have contributed. As long as no sum gets too long, nothing is lost and nothing counts twice, in
whatever order the threads make their moves. If nobody resets the aggregator, not even the order of the calls
of different threads matters in the end.

## Main definitions

* `SparseDot.Timing.Threads.recorded` — the samples that a thread has recorded since its last reset.
* `SparseDot.Timing.Threads.contribution` — the samples that a call merges.
* `SparseDot.Timing.Threads.merged` — the samples that were merged since the last reset.
* `SparseDot.Timing.Threads.Fits` — no sum gets too long.

## Main results

* `SparseDot.Timing.Threads.exact_replay` — the collectors have these sums after every history.
* `SparseDot.Timing.Threads.merged_perm` — without resets the order of different threads does not matter.
* `SparseDot.Timing.Threads.nothing_lost_or_duplicated` — the sums of threads that run side by side.
-/

namespace SparseDot.Timing.Threads

/-! ## The sums that there are to be -/

/-- **The samples that a thread has recorded since it last reset its own collector**, by its calls. The
latest call is the first. -/
def recorded : List Action → List Sample
  | [] => []
  | .record sample :: earlier => recorded earlier ++ [sample]
  | .resetOwn :: _ => []
  | _ :: earlier => recorded earlier

/-- **The samples that a call merges** if these are the earlier calls of its thread: those of the thread's
own collector, or those of the collector that the call is given. -/
def contribution (earlier : List Action) : Action → List Sample
  | .collect => recorded earlier
  | .collectFrom source => source.samples
  | .record _ | .resetOwn | .own | .snapshot | .reset => []

variable {ι : Type} [DecidableEq ι]

/-- **The samples that were merged since the last reset** in a history, merge after merge. The latest call is
the first. -/
def merged : List (Event ι) → List Sample
  | [] => []
  | ⟨_, .reset, _⟩ :: _ => []
  | e :: earlier => merged earlier ++ contribution (actionsOf e.thread earlier) e.action

/-- **No sum has been too long** at any time of a history. -/
def Fits (history : List (Event ι)) : Prop :=
  ∀ earlier, earlier <:+ history → Bounded (merged earlier) ∧ ∀ i, Bounded (recorded (actionsOf i earlier))

/-- What fits in a history has fitted at every earlier time. -/
private lemma Fits.of_suffix {earlier history : List (Event ι)} (h : Fits history) (hsuffix : earlier <:+ history) :
    Fits earlier := fun part hpart => h part (hpart.trans hsuffix)

/-- No sum is ever too long if all samples together never are. -/
private lemma fits_of_sum_lt {history : List (Event ι)}
    (h : ∀ earlier ∈ history.tails,
      ((merged earlier).map fun s => s.elapsed.nanoseconds).sum < Duration.limit ∧
      ∀ i, ((recorded (actionsOf i earlier)).map fun s => s.elapsed.nanoseconds).sum < Duration.limit) :
    Fits history := by
  intro earlier hsuffix
  obtain ⟨hmerged, hrecorded⟩ := h earlier ((List.mem_tails _ _).mpr hsuffix)
  exact ⟨bounded_of_sum_lt hmerged, fun i => bounded_of_sum_lt (hrecorded i)⟩

/-! ## One call after the other -/

/-- **The memory has the sums that there are to be**, and nobody has stopped. -/
structure Exact (m : Memory ι) (history : List (Event ι)) : Prop where
  /-- A thread's own collector has what the thread has recorded. -/
  own : ∀ i, ∃ c : Collector, m.own i = ⟨c, 0⟩ ∧ c.Holds (recorded (actionsOf i history))
  /-- The aggregator has what was merged. -/
  aggregator : ∃ c : Collector, m.aggregator = ⟨c, false⟩ ∧ c.Holds (merged history)
  /-- No thread has stopped. -/
  stopped : ∀ i, m.stopped i = none

/-- At the start all sums are those of no samples. -/
private lemma exact_fresh : Exact (.fresh : Memory ι) [] :=
  ⟨fun _ => ⟨.empty, rfl, Collector.holds_empty⟩, ⟨.empty, rfl, Collector.holds_empty⟩, fun _ => rfl⟩

section Exact

variable {m : Memory ι} {earlier : List (Event ι)}

/-- A call that records nothing leaves what every thread has recorded. -/
private lemma recorded_actionsOf_cons {e : Event ι}
    (h : recorded (e.action :: actionsOf e.thread earlier) = recorded (actionsOf e.thread earlier)) (i : ι) :
    recorded (actionsOf i (e :: earlier)) = recorded (actionsOf i earlier) := by
  rw [actionsOf_cons]
  split_ifs with hi
  · subst hi
    exact h
  · rfl

/-- A thread that goes on changes nothing where none has stopped. -/
private lemma update_stopped {stopped : ι → Option Fault} (h : ∀ i, stopped i = none) (j : ι) :
    Function.update stopped j none = stopped := by
  rw [← h j]
  exact Function.update_eq_self j stopped

/-- Nothing changes. -/
lemma Exact.look (h : Exact m earlier) (e : Event ι)
    (hrecorded : recorded (e.action :: actionsOf e.thread earlier) = recorded (actionsOf e.thread earlier))
    (hmerged : merged (e :: earlier) = merged earlier) : Exact m (e :: earlier) := by
  refine ⟨fun i => ?_, hmerged ▸ h.aggregator, h.stopped⟩
  rw [recorded_actionsOf_cons hrecorded]
  exact h.own i

/-- A thread changes its own collector. -/
lemma Exact.changeOwn (h : Exact m earlier) (e : Event ι) {f : ThreadLocal → Outcome ThreadLocal}
    {c : Collector} (hf : f (m.own e.thread) = .done ⟨c, 0⟩)
    (hc : c.Holds (recorded (e.action :: actionsOf e.thread earlier)))
    (hmerged : merged (e :: earlier) = merged earlier) :
    Exact (m.changeOwn e.thread f) (e :: earlier) := by
  have hstopped : (m.changeOwn e.thread f).stopped = m.stopped := by
    simp only [Memory.changeOwn, hf, Outcome.fault?, update_stopped h.stopped]
  refine ⟨fun i => ?_, hmerged ▸ h.aggregator, hstopped ▸ h.stopped⟩
  rw [actionsOf_cons]
  by_cases hi : e.thread = i
  · subst hi
    exact ⟨c, by simp [Memory.changeOwn, hf, Outcome.state], by simpa using hc⟩
  · simpa [Memory.changeOwn, Ne.symm hi, hi] using h.own i

/-- A thread changes the aggregator. -/
lemma Exact.changeAggregator (h : Exact m earlier) (e : Event ι) {f : Aggregator → Outcome Aggregator}
    {c : Collector} (hf : f m.aggregator = .done ⟨c, false⟩) (hc : c.Holds (merged (e :: earlier)))
    (hrecorded : recorded (e.action :: actionsOf e.thread earlier) = recorded (actionsOf e.thread earlier)) :
    Exact (m.changeAggregator e.thread f) (e :: earlier) := by
  have hstopped : (m.changeAggregator e.thread f).stopped = m.stopped := by
    simp only [Memory.changeAggregator, hf, Outcome.fault?, update_stopped h.stopped]
  refine ⟨fun i => ?_, ⟨c, ?_, hc⟩, hstopped ▸ h.stopped⟩
  · rw [recorded_actionsOf_cons hrecorded]
    exact h.own i
  · simp only [Memory.changeAggregator, hf, Outcome.state]

/-- **A merge adds what it contributes.** -/
theorem Exact.collectFrom (h : Exact m earlier) (e : Event ι) {source : Collector} {l : List Sample}
    (hsource : ∀ key, sumOf key source.samples = sumOf key l)
    (hmerged : merged (e :: earlier) = merged earlier ++ l)
    (hrecorded : recorded (e.action :: actionsOf e.thread earlier) = recorded (actionsOf e.thread earlier))
    (hbound : Bounded (merged (e :: earlier))) :
    Exact (m.changeAggregator e.thread fun a => a.collectFrom source) (e :: earlier) := by
  obtain ⟨c, hc, hholds⟩ := h.aggregator
  rw [hmerged] at hbound
  obtain ⟨c', hcollect, hholds'⟩ := Aggregator.exists_collectFrom (a := ⟨c, false⟩) hholds hsource hbound
  refine h.changeAggregator e ?_ (hmerged ▸ hholds') hrecorded
  rw [hc]
  exact hcollect

/-- **Every call does to the sums what it is to do**, unless one gets too long.

**Proof sketch.** A case for each call. A record adds its sample to what the thread has recorded, a merge adds what its
source holds, and a reset leaves no samples. All other calls change nothing. -/
theorem Exact.perform (h : Exact m earlier) (e : Event ι) (hmerged : Bounded (merged (e :: earlier)))
    (hrecorded : Bounded (recorded (e.action :: actionsOf e.thread earlier))) :
    Exact (m.perform e.thread e.action) (e :: earlier) := by
  obtain ⟨c, hown, hholds⟩ := h.own e.thread
  obtain ⟨i, action, seen⟩ := e
  cases action with
  | record sample =>
    obtain ⟨c', hadd, hholds'⟩ := hholds.exists_add hrecorded
    refine h.changeOwn ⟨i, .record sample, seen⟩ (f := fun l => l.record sample) ?_ hholds'
      (List.append_nil _)
    simp [hown, ThreadLocal.record, ThreadLocal.change, hadd, Outcome.map]
  | resetOwn =>
    refine h.changeOwn ⟨i, .resetOwn, seen⟩ (f := fun l => l.reset) ?_ Collector.holds_empty
      (List.append_nil _)
    simp [hown, ThreadLocal.reset, ThreadLocal.change, Outcome.map]
  | own => exact h.look ⟨i, .own, seen⟩ rfl (List.append_nil _)
  | collect =>
    simp only [Memory.perform, Aggregator.collect, hown]
    exact h.collectFrom ⟨i, .collect, seen⟩ hholds.sumOf_samples rfl rfl hmerged
  | collectFrom source => exact h.collectFrom ⟨i, .collectFrom source, seen⟩ (fun _ => rfl) rfl rfl hmerged
  | snapshot => exact h.look ⟨i, .snapshot, seen⟩ rfl (List.append_nil _)
  | reset =>
    obtain ⟨c, hc, -⟩ := h.aggregator
    refine h.changeAggregator ⟨i, .reset, seen⟩ (f := fun a => .done a.reset) ?_ Collector.holds_empty rfl
    simp [hc, Aggregator.reset]

end Exact

/-- **The collectors have the sums that there are to be** after every history in which none gets too long.

**Proof sketch.** Induction on the history, where each call does what it is to do. -/
theorem exact_replay {history : List (Event ι)} (hfits : Fits history) : Exact (replay history) history := by
  induction history with
  | nil => exact exact_fresh
  | cons e earlier ih =>
    obtain ⟨hmerged, hrecorded⟩ := hfits _ List.suffix_rfl
    refine (ih (hfits.of_suffix (List.suffix_cons e earlier))).perform e hmerged ?_
    simpa [actionsOf_cons] using hrecorded e.thread

/-! ## The order of different threads -/

section Order

variable {e : Event ι} {earlier history first second : List (Event ι)} {i : ι}

/-- The calls of a thread in two histories, one after the other. -/
private lemma actionsOf_append (i : ι) (later earlier : List (Event ι)) :
    actionsOf i (later ++ earlier) = actionsOf i later ++ actionsOf i earlier := by simp [actionsOf]

/-- The calls of a thread in an earlier history are its earlier calls. -/
private lemma actionsOf_suffix (i : ι) (h : earlier <:+ history) : actionsOf i earlier <:+ actionsOf i history :=
  (h.filter _).map _

/-- Every call is one of its thread. -/
private lemma action_mem_actionsOf (h : e ∈ history) : e.action ∈ actionsOf e.thread history :=
  List.mem_map_of_mem (List.mem_filter.mpr ⟨h, by simp⟩)

/-- The latest call of a thread, before which only other threads have made calls. -/
private lemma exists_latest {action : Action} {rest : List Action} (h : actionsOf i history = action :: rest) :
    ∃ later e earlier, history = later ++ e :: earlier ∧ e.thread = i ∧ e.action = action ∧
      (∀ other ∈ later, other.thread ≠ i) ∧ actionsOf i earlier = rest := by
  obtain ⟨e, calls, hfilter, haction, hrest⟩ := List.map_eq_cons_iff.mp h
  obtain ⟨later, earlier, rfl, hlater, hthread, rfl⟩ := List.filter_eq_cons_iff.mp hfilter
  exact ⟨later, e, earlier, rfl, by simpa using hthread, haction, by simpa using hlater, hrest⟩

/-- The earlier calls of a thread are its calls in an earlier history.

**Proof sketch.** Induction on the history. The latest call is not among the earlier calls of its thread, and for other
threads it does not count. -/
private lemma exists_suffix_of_actionsOf {calls : List Action} (h : calls <:+ actionsOf i history) :
    ∃ earlier, earlier <:+ history ∧ actionsOf i earlier = calls := by
  induction history with
  | nil => exact ⟨[], List.suffix_rfl, (List.suffix_nil.mp h).symm⟩
  | cons e history ih =>
    rw [actionsOf_cons] at h
    have hearlier : calls <:+ actionsOf i history →
        ∃ earlier, earlier <:+ e :: history ∧ actionsOf i earlier = calls := fun h =>
      let ⟨earlier, hsuffix, hcalls⟩ := ih h
      ⟨earlier, hsuffix.trans (List.suffix_cons e history), hcalls⟩
    split_ifs at h with hi
    · rcases List.suffix_cons_iff.mp h with rfl | h
      · exact ⟨e :: history, List.suffix_rfl, by rw [actionsOf_cons, if_pos hi]⟩
      · exact hearlier h
    · exact hearlier h

/-- A call that is not a reset adds what it contributes. -/
private lemma merged_cons (h : e.action ≠ .reset) :
    merged (e :: earlier) = merged earlier ++ contribution (actionsOf e.thread earlier) e.action := by
  obtain ⟨i, action, seen⟩ := e
  cases action <;> first | rfl | exact absurd rfl h

/-- Without resets the samples that were merged stay merged. -/
private lemma exists_merged_eq_append (hreset : ∀ e ∈ history, e.action ≠ .reset) (h : earlier <:+ history) :
    ∃ l, merged history = merged earlier ++ l := by
  obtain ⟨later, rfl⟩ := h
  induction later with
  | nil => exact ⟨[], (List.append_nil _).symm⟩
  | cons e later ih =>
    obtain ⟨l, hl⟩ := ih fun e he => hreset e (List.mem_cons_of_mem _ he)
    refine ⟨l ++ contribution (actionsOf e.thread (later ++ earlier)) e.action, ?_⟩
    rw [List.cons_append, merged_cons (hreset e List.mem_cons_self), hl, List.append_assoc]

/-- **A call can be put off until after the later calls of other threads.**

**Proof sketch.** Induction on the later calls. They are of other threads, so that they contribute the same with or
without the call, and their contributions can be moved behind its own. -/
theorem merged_append_cons {later : List (Event ι)} (hreset : ∀ f ∈ later ++ e :: earlier, f.action ≠ .reset)
    (hlater : ∀ f ∈ later, f.thread ≠ e.thread) :
    (merged (later ++ e :: earlier)).Perm
      (merged (later ++ earlier) ++ contribution (actionsOf e.thread earlier) e.action) := by
  induction later with
  | nil => exact .of_eq (merged_cons (hreset e List.mem_cons_self))
  | cons f later ih =>
    have hf : f.action ≠ .reset := hreset f List.mem_cons_self
    have hcalls : actionsOf f.thread (later ++ e :: earlier) = actionsOf f.thread (later ++ earlier) := by
      rw [actionsOf_append, actionsOf_cons, if_neg (hlater f List.mem_cons_self).symm, actionsOf_append]
    have hrest := ih (fun g hg => hreset g (List.mem_cons_of_mem _ hg))
      (fun g hg => hlater g (List.mem_cons_of_mem _ hg))
    rw [List.cons_append, List.cons_append, merged_cons hf, merged_cons hf, hcalls]
    refine (hrest.append_right _).trans ?_
    rw [List.append_assoc, List.append_assoc]
    exact List.perm_append_comm.append_left _

/-- **Without resets the order of the calls of different threads does not matter.**

**Proof sketch.** Induction on the first history. Its latest call is in the second one the latest of the same thread,
and there it can be put off to the end. Without it both histories have the same calls of every thread, and it
contributes the same to both. -/
theorem merged_perm (hfirst : ∀ e ∈ first, e.action ≠ .reset) (hsecond : ∀ e ∈ second, e.action ≠ .reset)
    (h : ∀ i, actionsOf i first = actionsOf i second) : (merged first).Perm (merged second) := by
  induction first generalizing second with
  | nil =>
    cases second with
    | nil => rfl
    | cons e second =>
      have hmem : e.action ∈ actionsOf e.thread (e :: second) := action_mem_actionsOf List.mem_cons_self
      rw [← h] at hmem
      exact absurd hmem List.not_mem_nil
  | cons e first ih =>
    -- the latest call of the first history is also the latest one of its thread in the second
    have he := h e.thread
    rw [actionsOf_cons, if_pos rfl] at he
    obtain ⟨later, e', earlier, rfl, hthread, haction, hlater, hcalls⟩ := exists_latest he.symm
    have hrest : ∀ i, actionsOf i first = actionsOf i (later ++ earlier) := by
      intro i
      have hi := h i
      rw [actionsOf_append, actionsOf_cons, actionsOf_cons, hthread] at hi
      rw [actionsOf_append]
      split_ifs at hi with hsame
      · subst hsame
        have hnone : actionsOf e.thread later = [] := by simpa [actionsOf] using hlater
        rw [hnone] at hi ⊢
        exact (List.cons.inj hi).2
      · exact hi
    have hkept : ∀ f ∈ later ++ earlier, f.action ≠ .reset := by
      intro f hf
      apply hsecond f
      simp only [List.mem_append, List.mem_cons] at hf ⊢
      exact hf.imp_right .inr
    have hperm := ih (fun f hf => hfirst f (List.mem_cons_of_mem _ hf)) hkept hrest
    have hmove := merged_append_cons hsecond (hthread ▸ hlater)
    rw [hthread, haction, hcalls] at hmove
    rw [merged_cons (hfirst e List.mem_cons_self)]
    exact (hperm.append_right _).trans hmove.symm

/-- Without resets it does not depend on the order of different threads whether all sums fit. -/
private lemma Fits.of_actionsOf_eq (hfits : Fits first) (hfirst : ∀ e ∈ first, e.action ≠ .reset)
    (hsecond : ∀ e ∈ second, e.action ≠ .reset) (h : ∀ i, actionsOf i first = actionsOf i second) :
    Fits second := by
  intro earlier hsuffix
  constructor
  · obtain ⟨l, hl⟩ := exists_merged_eq_append hsecond hsuffix
    have hbound := (hfits first List.suffix_rfl).1.perm (merged_perm hfirst hsecond h)
    rw [hl] at hbound
    exact hbound.of_append_left
  · intro i
    have hcalls := actionsOf_suffix i hsuffix
    rw [← h i] at hcalls
    obtain ⟨part, hpart, heq⟩ := exists_suffix_of_actionsOf hcalls
    exact heq ▸ (hfits part hpart).2 i

end Order

/-! ## Threads that run side by side -/

/-- What was read at any time of a history. -/
private lemma Faithful.seen_eq {later earlier : List (Event ι)} {e : Event ι}
    (h : Faithful (later ++ e :: earlier)) : e.seen = (replay earlier).shown e.thread e.action := by
  induction later with
  | nil => exact h.1
  | cons _ later ih => exact ih h.2

section Linear

variable {programs : ι → List Action} {s : System ι}

/-- **A thread's own collector has what the thread has recorded**, at every time. -/
theorem Linear.own_holds (h : Linear programs s) (hfits : Fits s.history) (i : ι) :
    (s.memory.own i).collector.Holds (recorded (actionsOf i s.history)) := by
  obtain ⟨c, hc, hholds⟩ := (exact_replay hfits).own i
  have hown : s.memory.own i = (replay s.history).own i := by
    rw [← h.settled_eq, System.settled]
    cases s.holder <;> rfl
  rwa [hown, hc]

/-- **The aggregator has what was merged**, whenever nobody is merging. -/
theorem Linear.exists_aggregator (h : Linear programs s) (hfits : Fits s.history) (hfree : s.holder = none) :
    ∃ c : Collector, s.memory.aggregator = ⟨c, false⟩ ∧ c.Holds (merged s.history) :=
  h.memory_eq hfree ▸ (exact_replay hfits).aggregator

/-- **What a call reads are the sums of that moment.** -/
theorem Linear.seen_holds (h : Linear programs s) (hfits : Fits s.history) {later earlier : List (Event ι)}
    {e : Event ι} (hevent : s.history = later ++ e :: earlier) :
    (e.action = .own ∨ e.action = .collect →
      ∃ c, e.seen = some c ∧ c.Holds (recorded (actionsOf e.thread earlier))) ∧
    (e.action = .snapshot → ∃ c, e.seen = some c ∧ c.Holds (merged earlier)) := by
  have hseen := h.faithful
  rw [hevent] at hseen
  have hexact := exact_replay (hfits.of_suffix (hevent ▸ (List.suffix_cons e earlier).trans ⟨later, rfl⟩))
  rw [hseen.seen_eq]
  constructor
  · intro haction
    obtain ⟨c, hc, hholds⟩ := hexact.own e.thread
    refine ⟨c, ?_, hholds⟩
    rcases haction with haction | haction <;> simp [haction, Memory.shown, hc]
  · intro haction
    obtain ⟨c, hc, hholds⟩ := hexact.aggregator
    exact ⟨c, by simp [haction, Memory.shown, hc, Aggregator.snapshot_eq], hholds⟩

/-- No program resets the aggregator, so no call has. -/
private lemma Linear.action_ne_reset (h : Linear programs s) (hreset : ∀ i, .reset ∉ programs i) :
    ∀ e ∈ s.history, e.action ≠ .reset := by
  intro e he haction
  apply hreset e.thread
  rw [← h.program e.thread, ← haction]
  simp [action_mem_actionsOf he]

end Linear

/-- **Without resets all interleavings come to the same aggregator.**

**Proof sketch.** Both histories have the whole programs, so that the same samples were merged, in another order, and
collectors that hold the same samples are equal. -/
theorem aggregator_eq_of_finished {programs : ι → List Action} {schedule other : List ι}
    (hfits : Fits (run programs schedule).history) (hreset : ∀ i, .reset ∉ programs i)
    (hfinished : (run programs schedule).Finished) (hother : (run programs other).Finished) :
    (run programs other).memory.aggregator = (run programs schedule).memory.aggregator := by
  have hlinear := linear_run programs schedule
  have hlinear' := linear_run programs other
  -- both histories have the whole programs
  have hcalls : ∀ i,
      actionsOf i (run programs schedule).history = actionsOf i (run programs other).history := by
    intro i
    apply List.reverse_injective
    have hi := (hlinear.program i).trans (hlinear'.program i).symm
    rwa [hfinished.2, hother.2, List.append_nil, List.append_nil] at hi
  have hnone := hlinear.action_ne_reset hreset
  have hnone' := hlinear'.action_ne_reset hreset
  obtain ⟨c, hc, hholds⟩ := hlinear.exists_aggregator hfits hfinished.1
  obtain ⟨c', hc', hholds'⟩ :=
    hlinear'.exists_aggregator (hfits.of_actionsOf_eq hnone hnone' hcalls) hother.1
  rw [hc, hc', hholds.eq_of_perm hholds' (merged_perm hnone hnone' hcalls)]

/-- **Nothing is lost and nothing counts twice under any interleaving** in which no sum gets too long. No
thread stops, and each makes the calls of its program in order. A thread's own collector is the exact sum of
what the thread has recorded since it last reset it, also when the thread looks at it or merges it. A
snapshot of the aggregator is the exact sum of what the merges have contributed that took the lock since the
last reset. If nobody resets the aggregator then it is the same in the end for all interleavings.

**Proof sketch.** The threads have done one call after the other, and after every call the collectors have the sums
that there are to be. -/
theorem nothing_lost_or_duplicated {programs : ι → List Action} {schedule : List ι}
    (hfits : Fits (run programs schedule).history) :
    let s := run programs schedule
    (∀ i, s.memory.stopped i = none ∧ (actionsOf i s.history).reverse ++ s.todo i = programs i) ∧
    (∀ i, (s.memory.own i).collector.Holds (recorded (actionsOf i s.history))) ∧
    (∀ later e earlier, s.history = later ++ e :: earlier →
      (e.action = .own ∨ e.action = .collect →
        ∃ c, e.seen = some c ∧ c.Holds (recorded (actionsOf e.thread earlier))) ∧
      (e.action = .snapshot → ∃ c, e.seen = some c ∧ c.Holds (merged earlier))) ∧
    (s.holder = none → s.memory.aggregator.snapshot.Holds (merged s.history)) ∧
    ((∀ i, .reset ∉ programs i) → s.Finished → ∀ other, (run programs other).Finished →
      (run programs other).memory.aggregator = s.memory.aggregator) := by
  have hlinear := linear_run programs schedule
  refine ⟨fun i => ⟨?_, hlinear.program i⟩, hlinear.own_holds hfits,
    fun later e earlier hevent => hlinear.seen_holds hfits hevent, fun hfree => ?_,
    fun hreset hfinished other hother => aggregator_eq_of_finished hfits hreset hfinished hother⟩
  · exact hlinear.stopped_eq_none (exact_replay hfits).stopped i
  · obtain ⟨c, hc, hholds⟩ := hlinear.exists_aggregator hfits hfree
    rw [hc]
    exact hholds

/-- Two threads whose merges have to wait for each other. One of them merges the same sample twice, and the
other one records its samples while it cannot have the lock. -/
theorem nothing_lost_or_duplicated_two_threads :
    let programs : Bool → List Action := fun
      | false => [.record ⟨"g", "a", ⟨3, by decide⟩⟩, .collect, .collect, .snapshot]
      | true => [.record ⟨"g", "a", ⟨999999999, by decide⟩⟩, .record ⟨"g", "b", ⟨5, by decide⟩⟩, .collect,
          .resetOwn, .own]
    let schedule := [false, false, true, true, true, false, false, true, true, false, true, true, true, true,
      false, false, false, false]
    (∀ i, (run programs schedule).memory.stopped i = none) ∧
      ((run programs schedule).memory.aggregator.snapshot.get? "g" "a").map Duration.nanoseconds =
        some 1000000005 ∧
      ∀ other, (run programs other).Finished →
        (run programs other).memory.aggregator = (run programs schedule).memory.aggregator := by
  intro programs schedule
  have hfits : Fits (run programs schedule).history := fits_of_sum_lt (by decide +kernel)
  have hholder : (run programs schedule).holder = none := Option.isNone_iff_eq_none.mp (by decide +kernel)
  have htodo : ∀ i, (run programs schedule).todo i = [] := fun i =>
    List.isEmpty_iff.mp (by revert i; decide +kernel)
  have hsum : sumOf ("g", "a") (merged (run programs schedule).history) = some 1000000005 := by
    decide +kernel
  have hreset : ∀ i, .reset ∉ programs i := by
    intro i
    cases i <;> simp [programs]
  obtain ⟨hruns, -, -, hholds, hsame⟩ := nothing_lost_or_duplicated hfits
  exact ⟨fun i => (hruns i).1, ((hholds hholder).map_get? "g" "a").trans hsum,
    hsame hreset ⟨hholder, htodo⟩⟩

end SparseDot.Timing.Threads
