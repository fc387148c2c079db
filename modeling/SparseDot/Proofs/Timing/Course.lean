import Mathlib.Data.List.DropRight
import SparseDot.Proofs.Timing.Sums
import SparseDot.Timing.StopTimer

set_option autoImplicit false

/-!
# What a stop timer reports

A course is a sequence of marks and finishes. A stop timer reports every mark of it once, in order, at the
next finish, under the tag of the mark. The stop that closes the last interval is never reported.

To say what a reporter was given, whatever it does with it, the reporter is run together with a list of the
samples that it has taken. This changes nothing else.

## Main definitions

* `SparseDot.Timing.Traced` — a reporter with the samples that it has taken.
* `SparseDot.Timing.StopTimer.Step`, `SparseDot.Timing.StopTimer.step` — the steps of a course.
* `SparseDot.Timing.StopTimer.tags` — the tags that are marked in a course.

## Main results

* `SparseDot.Timing.map_key_intervals` — the tags of the intervals are those of the marks.
* `SparseDot.Timing.StopTimer.exists_finish` — what a finish reports.
* `SparseDot.Timing.StopTimer.reports_every_mark_once` — what a course reports.
-/

namespace SparseDot.Timing

/-! ## Intervals -/

section Intervals

variable (group : String)

/-- The first interval is from the first stop to the second one. -/
lemma intervals_cons_cons (first second : Stop) (rest : List Stop) :
    intervals group (first :: second :: rest) =
      ⟨group, first.tag, second.time.since first.time⟩ :: intervals group (second :: rest) := rfl

/-- Intervals on both sides of a stop have nothing to do with each other.

**Proof sketch.** Induction on the stops before the middle one, of which the first two are an interval. -/
lemma intervals_append (l : List Stop) (middle : Stop) (rest : List Stop) :
    intervals group (l ++ middle :: rest) =
      intervals group (l ++ [middle]) ++ intervals group (middle :: rest) := by
  induction l with
  | nil => rfl
  | cons first l ih =>
    cases l with
    | nil => rfl
    | cons second l =>
      simp only [List.cons_append, intervals_cons_cons] at ih ⊢
      rw [ih]

/-- **Every stop but the last one has an interval**, under its own tag. -/
theorem map_key_intervals (l : List Stop) (closing : Stop) :
    (intervals group (l ++ [closing])).map Sample.key = l.map fun stop => (group, stop.tag) := by
  induction l with
  | nil => rfl
  | cons first l ih =>
    cases l with
    | nil => rfl
    | cons second l =>
      simp only [List.cons_append, intervals_cons_cons, List.map_cons] at ih ⊢
      rw [ih]
      rfl

/-- There are as many intervals as stops before the closing one. -/
lemma length_intervals (l : List Stop) (closing : Stop) :
    (intervals group (l ++ [closing])).length = l.length := by
  simpa using congrArg List.length (map_key_intervals group l closing)

end Intervals

/-! ## Reporters with a trace -/

/-- Steps that agree through a view have runs that agree through it. -/
private lemma Outcome.map_run {σ τ α : Type} {step : σ → α → Outcome σ} {step' : τ → α → Outcome τ} {f : σ → τ}
    (h : ∀ s a, (step s a).map f = step' (f s) a) (s : σ) (l : List α) :
    (run step s l).map f = run step' (f s) l := by
  induction l generalizing s with
  | nil => rfl
  | cons a l ih =>
    simp only [run, ← h s a]
    cases step s a with
    | done next => exact ih next
    | failed fault next => rfl

/-- Steps that never stop have runs that never stop. -/
private lemma Outcome.fault?_run {σ α : Type} {step : σ → α → Outcome σ} (h : ∀ s a, (step s a).fault? = none)
    (s : σ) (l : List α) : (run step s l).fault? = none := by
  induction l generalizing s with
  | nil => rfl
  | cons a l ih =>
    have hstep := h s a
    simp only [run]
    cases hnext : step s a with
    | done next => exact ih next
    | failed fault next =>
      rw [hnext] at hstep
      cases hstep

/-- A reporter that takes every sample. -/
def Reliable (σ : Type) [Reporter σ] : Prop := ∀ (r : σ) (s : Sample), (Reporter.report r s).fault? = none

/-- **A reporter with the samples that it has taken**, in their order. A sample at which it stopped is not
among them. -/
structure Traced (σ : Type) where
  reporter : σ
  taken : List Sample

/-- A sample is noted if the reporter takes it. -/
instance {σ : Type} [Reporter σ] : Reporter (Traced σ) where
  report t s :=
    match Reporter.report t.reporter s with
    | .done r => .done ⟨r, t.taken ++ [s]⟩
    | .failed f r => .failed f ⟨r, t.taken⟩

namespace Traced

variable {σ : Type} [Reporter σ]

/-- The trace does not change what the reporter does. -/
private lemma map_report (t : Traced σ) (s : Sample) :
    (Reporter.report t s).map Traced.reporter = Reporter.report t.reporter s := by
  simp only [Reporter.report]
  cases Reporter.report t.reporter s <;> rfl

/-- **A reporter takes the first samples of a list**, up to one at which it stops.

**Proof sketch.** Induction on the samples. If the first one is not taken then none is; else the others are taken as
far as the reporter takes them. -/
theorem run_report (t : Traced σ) (l : List Sample) :
    (∃ r, Outcome.run Reporter.report t l = .done ⟨r, t.taken ++ l⟩) ∨
      ∃ f r k, k < l.length ∧ Outcome.run Reporter.report t l = .failed f ⟨r, t.taken ++ l.take k⟩ := by
  induction l generalizing t with
  | nil => exact .inl ⟨t.reporter, by simp [Outcome.run]⟩
  | cons s l ih =>
    simp only [Outcome.run]
    cases hreport : Reporter.report t.reporter s with
    | done r =>
      have hstep : Reporter.report t s = .done ⟨r, t.taken ++ [s]⟩ := by simp [Reporter.report, hreport]
      rw [hstep]
      rcases ih ⟨r, t.taken ++ [s]⟩ with ⟨r', hrun⟩ | ⟨f, r', k, hk, hrun⟩
      · exact .inl ⟨r', by simp [hrun]⟩
      · exact .inr ⟨f, r', k + 1, by simpa using hk, by simp [hrun]⟩
    | failed f r =>
      have hstep : Reporter.report t s = .failed f ⟨r, t.taken⟩ := by simp [Reporter.report, hreport]
      rw [hstep]
      exact .inr ⟨f, r, 0, by simp, by simp⟩

/-- A reliable reporter is still reliable if its samples are listed. -/
private lemma reliable (h : Reliable σ) : Reliable (Traced σ) := by
  intro t s
  rw [← Outcome.fault?_map Traced.reporter, t.map_report]
  exact h t.reporter s

/-- **A reliable reporter takes all samples of a list.** -/
theorem run_report_of_reliable (h : Reliable σ) (t : Traced σ) (l : List Sample) :
    ∃ r, Outcome.run Reporter.report t l = .done ⟨r, t.taken ++ l⟩ := by
  rcases t.run_report l with hrun | ⟨f, r, k, -, hrun⟩
  · exact hrun
  · have hnever := Outcome.fault?_run (reliable h) t l
    rw [hrun] at hnever
    cases hnever

end Traced

/-! ## Courses -/

namespace StopTimer

/-- **A step of a course.** -/
inductive Step where
  /-- Opens an interval. -/
  | mark (tag : String) (now : Instant)
  /-- Reports the intervals. -/
  | finish (now : Instant)

namespace Step

/-- Whether the step is a mark. -/
def isMark : Step → Bool
  | mark _ _ => true
  | finish _ => false

/-- The tag that the step marks. -/
def tag? : Step → Option String
  | mark tag _ => some tag
  | finish _ => none

end Step

/-- The tags that are marked in a course, in order. -/
def tags (steps : List Step) : List String := steps.filterMap Step.tag?

variable {σ : Type}

section Steps

variable [Reporter σ]

/-- **Takes a step of a course.** -/
def step (t : StopTimer σ) : Step → Outcome (StopTimer σ)
  | .mark tag now => .done (t.mark tag now)
  | .finish now => t.finish now

/-- The timer without the trace of its reporter. -/
def untraced (t : StopTimer (Traced σ)) : StopTimer σ := ⟨t.group, t.enabled, t.stops, t.reporter.reporter⟩

/-- The trace does not change what a timer does. -/
private lemma map_step (t : StopTimer (Traced σ)) (s : Step) : (t.step s).map untraced = t.untraced.step s := by
  obtain ⟨group, enabled, stops, reporter⟩ := t
  cases enabled with
  | false => cases s <;> rfl
  | true =>
    cases s with
    | mark tag now => rfl
    | finish now =>
      cases stops with
      | nil => rfl
      | cons stop stops =>
        have hreports := Outcome.map_run Traced.map_report reporter
          (intervals group (stop :: stops ++ [⟨now, endTag⟩]))
        simp only [step, untraced, finish, ← hreports]
        cases Outcome.run Reporter.report reporter _ <;> rfl

/-- A timer that is on reports its open intervals when it is finished, which may be none. -/
lemma finish_of_enabled {t : StopTimer σ} (h : t.enabled = true) (now : Instant) :
    t.finish now =
      match Outcome.run Reporter.report t.reporter (intervals t.group (t.stops ++ [⟨now, endTag⟩])) with
      | .done r => .done { t with stops := [], reporter := r }
      | .failed f r => .failed f { t with stops := t.stops ++ [⟨now, endTag⟩], reporter := r } := by
  obtain ⟨group, enabled, stops, reporter⟩ := t
  subst h
  cases stops <;> rfl

/-- **What a finish reports** to a reliable reporter: all open intervals, closed at that moment.

**Proof sketch.** The marks are closed and reported in one run, which does not stop as the reporter is reliable. -/
theorem exists_finish (hreliable : Reliable σ) {t : StopTimer (Traced σ)} (henabled : t.enabled = true)
    (now : Instant) :
    ∃ r, t.finish now = .done { t with
      stops := []
      reporter := ⟨r, t.reporter.taken ++ intervals t.group (t.stops ++ [⟨now, endTag⟩])⟩ } := by
  obtain ⟨r, hrun⟩ := t.reporter.run_report_of_reliable hreliable
    (intervals t.group (t.stops ++ [⟨now, endTag⟩]))
  exact ⟨r, by rw [finish_of_enabled henabled, hrun]⟩

/-- A finish without open intervals changes nothing. -/
lemma finish_of_pending_eq_zero {t : StopTimer σ} (h : t.pending = 0) (now : Instant) :
    t.finish now = .done t := by
  simp [finish, List.length_eq_zero_iff.mp h]

/-- A finish of a timer that is off changes nothing. -/
lemma finish_of_disabled {t : StopTimer σ} (h : t.enabled = false) (now : Instant) :
    t.finish now = .done t := by
  simp [finish, h]

end Steps

/-! ## Marks and reports -/

/-- **A timer within its course**: it has reported the marks before the last finish, and keeps the others. -/
structure Within (group : String) (steps : List Step) (t : StopTimer (Traced σ)) : Prop where
  group_eq : t.group = group
  enabled : t.enabled = true
  taken : t.reporter.taken.map Sample.key = (tags (steps.rdropWhile Step.isMark)).map (group, ·)
  stops : t.stops.map Stop.tag = tags (steps.rtakeWhile Step.isMark)

section Within

variable {group : String} {steps : List Step} {t : StopTimer (Traced σ)}

/-- The tags of two courses, one after the other. -/
private lemma tags_append (first second : List Step) : tags (first ++ second) = tags first ++ tags second := by
  simp [tags]

/-- A step that is a mark has a tag. -/
private lemma length_tags_of_isMark (h : ∀ s ∈ steps, s.isMark = true) : (tags steps).length = steps.length := by
  induction steps with
  | nil => rfl
  | cons s steps ih =>
    obtain ⟨hs, hsteps⟩ := List.forall_mem_cons.mp h
    cases s with
    | mark tag now => simpa [tags, Step.tag?] using ih hsteps
    | finish now => cases hs

/-- The marks that are kept are those since the last finish. -/
private lemma Within.pending_eq (h : Within group steps t) :
    t.pending = (steps.rtakeWhile Step.isMark).length := by
  rw [← length_tags_of_isMark fun s hs => List.mem_rtakeWhile_imp hs, ← h.stops, List.length_map]
  rfl

/-- One more mark. -/
lemma Within.mark (h : Within group steps t) (tag : String) (now : Instant) :
    Within group (steps ++ [.mark tag now]) (t.mark tag now) := by
  rw [StopTimer.mark, if_pos h.enabled]
  refine ⟨h.group_eq, h.enabled, ?_, ?_⟩
  · rw [List.rdropWhile_concat_pos _ _ _ rfl]
    exact h.taken
  · rw [List.rtakeWhile_concat_pos _ _ _ rfl, tags_append, ← h.stops, List.map_append]
    rfl

variable [Reporter σ]

/-- One more finish, after which all marks so far have been reported.

**Proof sketch.** What was reported before and the intervals that are reported now have the tags of the marks before
the last finish and of those since, which are all of them. -/
private lemma Within.exists_finish (h : Within group steps t) (hreliable : Reliable σ) (now : Instant) :
    ∃ t', t.finish now = .done t' ∧ Within group (steps ++ [.finish now]) t' ∧
      t'.reporter.taken.map Sample.key = (tags steps).map (group, ·) := by
  obtain ⟨r, hfinish⟩ := StopTimer.exists_finish hreliable h.enabled now
  have htaken : (t.reporter.taken ++ intervals t.group (t.stops ++ [⟨now, endTag⟩])).map Sample.key =
      (tags steps).map (group, ·) := by
    rw [List.map_append, h.taken, map_key_intervals, h.group_eq]
    have hsteps : tags (steps.rdropWhile Step.isMark) ++ t.stops.map Stop.tag = tags steps := by
      rw [h.stops, ← tags_append, List.rdropWhile_append_rtakeWhile]
    rw [← hsteps]
    simp
  refine ⟨_, hfinish, ⟨h.group_eq, h.enabled, ?_, ?_⟩, htaken⟩
  · rw [List.rdropWhile_concat_neg _ _ _ Bool.false_ne_true, tags_append]
    exact htaken.trans (by simp [tags, Step.tag?])
  · rw [List.rtakeWhile_concat_neg _ _ _ Bool.false_ne_true]
    rfl

/-- **Every step of a course** keeps to it.

**Proof sketch.** Induction on the steps that are left: a mark is kept, and a finish reports. -/
theorem Within.exists_run (h : Within group steps t) (hreliable : Reliable σ) (rest : List Step) :
    ∃ t', Outcome.run step t rest = .done t' ∧ Within group (steps ++ rest) t' := by
  induction rest generalizing steps t with
  | nil => exact ⟨t, rfl, by simpa using h⟩
  | cons s rest ih =>
    rw [List.append_cons]
    cases s with
    | mark tag now => exact ih (h.mark tag now)
    | finish now =>
      obtain ⟨next, hfinish, hnext, -⟩ := h.exists_finish hreliable now
      obtain ⟨last, hrun, hlast⟩ := ih hnext
      exact ⟨last, by simp only [Outcome.run, step, hfinish, hrun], hlast⟩

end Within

variable [Reporter σ]

/-- **A course of a timer that is off** is nothing. -/
theorem run_of_disabled {t : StopTimer σ} (h : t.enabled = false) (steps : List Step) :
    Outcome.run step t steps = .done t := by
  induction steps with
  | nil => rfl
  | cons s steps ih =>
    have hstep : t.step s = .done t := by
      cases s with
      | mark tag now => simp [step, mark, h]
      | finish now => exact finish_of_disabled h now
    simp only [Outcome.run, hstep, ih]

/-- **Every mark is reported once, in order.** In every course of a timer with a reliable reporter no step
stops, and the trace changes nothing. If the timer is on, then at every moment of the course it has reported
the marks before the last finish, each under its own tag, and keeps those since; a finish with nothing open
changes nothing, and dropping the timer, which finishes once more, leaves all marks reported. If the timer is
off then it reports nothing and keeps nothing.

**Proof sketch.** A timer that is on keeps to its course, from no steps at all to all of them. A timer that is off does
nothing. The run without a trace is the same run, looked at without it. -/
theorem reports_every_mark_once (hreliable : Reliable σ) (group : String) (enabled : Bool) (r : σ)
    (steps : List Step) :
    ∃ t : StopTimer (Traced σ), Outcome.run step (.begin group enabled ⟨r, []⟩) steps = .done t ∧
      Outcome.run step (.begin group enabled r) steps = .done t.untraced ∧
      (enabled = true →
        t.reporter.taken.map Sample.key = (tags (steps.rdropWhile Step.isMark)).map (group, ·) ∧
        t.pending = (steps.rtakeWhile Step.isMark).length ∧
        (t.pending = 0 → ∀ now, t.finish now = .done t) ∧
        ∀ now, ∃ dropped, t.finish now = .done dropped ∧
          dropped.reporter.taken.map Sample.key = (tags steps).map (group, ·)) ∧
      (enabled = false →
        t.pending = 0 ∧ t.reporter.taken = [] ∧ ∀ now, t.finish now = .done t) := by
  have huntraced := Outcome.map_run map_step (.begin group enabled ⟨r, []⟩ : StopTimer (Traced σ)) steps
  cases enabled with
  | true =>
    have hstart : Within group [] (.begin group true ⟨r, []⟩ : StopTimer (Traced σ)) := ⟨rfl, rfl, rfl, rfl⟩
    obtain ⟨t, hrun, hwithin⟩ := hstart.exists_run hreliable steps
    rw [hrun] at huntraced
    refine ⟨t, hrun, huntraced.symm, fun _ => ⟨hwithin.taken, hwithin.pending_eq, ?_, fun now => ?_⟩, nofun⟩
    · exact fun hpending now => finish_of_pending_eq_zero hpending now
    · obtain ⟨dropped, hfinish, -, htaken⟩ := hwithin.exists_finish hreliable now
      exact ⟨dropped, hfinish, htaken⟩
  | false =>
    have hrun := run_of_disabled (t := .begin group false (⟨r, []⟩ : Traced σ)) rfl steps
    rw [hrun] at huntraced
    exact ⟨_, hrun, huntraced.symm, nofun, fun _ => ⟨rfl, rfl, fun now => finish_of_disabled rfl now⟩⟩

/-- A course with the log as its reporter. Its second mark has the tag of the closing stop, its second finish
has nothing open, and its last mark waits for the timer to be dropped. -/
theorem reports_every_mark_once_log :
    let clock (n : Fin 9) : Instant := ⟨⟨n.val, n.isLt.trans (by decide)⟩⟩
    let steps : List Step :=
      [.mark "a" (clock 1), .mark endTag (clock 3), .finish (clock 4), .finish (clock 5), .mark "b" (clock 7)]
    ∃ t : StopTimer (Traced Log), Outcome.run step (.begin "g" true ⟨⟨[]⟩, []⟩) steps = .done t ∧
      t.reporter.taken.map Sample.key = [("g", "a"), ("g", "end")] ∧ t.pending = 1 ∧
      ∃ dropped, t.finish (clock 8) = .done dropped ∧
        dropped.reporter.taken.map Sample.key = [("g", "a"), ("g", "end"), ("g", "b")] := by
  intro clock steps
  have hreliable : Reliable Log := fun _ _ => rfl
  obtain ⟨t, hrun, -, hon, -⟩ := reports_every_mark_once hreliable "g" true ⟨[]⟩ steps
  obtain ⟨htaken, hpending, -, hdrop⟩ := hon rfl
  exact ⟨t, hrun, htaken, hpending, hdrop (clock 8)⟩

end StopTimer

end SparseDot.Timing
