import SparseDot.Proofs.Timing.Course

set_option autoImplicit false

/-!
# A finish that stops, and the next one

A reporter may stop at a sample. The finish then stops as well, and leaves the timer with all its marks and
with the stop that has closed the last interval, which counts like a mark from now on. So the next finish
starts over: it reports the intervals again that the reporter has taken already, and one more under the tag
of the closing stop.

## Main definitions

* `SparseDot.Timing.StopTimer.resumed` — more marks, while the reporter may change.

## Main results

* `SparseDot.Timing.StopTimer.finish_cases` — what an attempt to finish reports.
* `SparseDot.Timing.StopTimer.finish_starts_over` — what the next attempt reports.
-/

namespace SparseDot.Timing.StopTimer

variable {σ : Type}

/-- **The timer after more marks.** Its reporter may have been changed from outside in the meantime. -/
def resumed (t : StopTimer (Traced σ)) (marks : List Stop) (r : σ) : StopTimer (Traced σ) :=
  let marked := marks.foldl (fun t stop => t.mark stop.tag stop.time) t
  ⟨marked.group, marked.enabled, marked.stops, ⟨r, marked.reporter.taken⟩⟩

/-- A timer that is on keeps the marks behind those that it has. -/
private lemma resumed_of_enabled {t : StopTimer (Traced σ)} (h : t.enabled = true) (marks : List Stop) (r : σ) :
    t.resumed marks r = ⟨t.group, true, t.stops ++ marks, ⟨r, t.reporter.taken⟩⟩ := by
  induction marks generalizing t with
  | nil => simp [resumed, h]
  | cons stop marks ih =>
    have hmark : t.mark stop.tag stop.time = { t with stops := t.stops ++ [stop] } := by simp [mark, h]
    have hrest := ih (t := { t with stops := t.stops ++ [stop] }) h
    simp only [resumed, List.foldl_cons, hmark] at hrest ⊢
    simpa using hrest

variable [Reporter σ]

/-- **An attempt to finish a course.** It reports all open intervals and forgets the marks, or it reports some
of the first ones and keeps the marks, with the closing stop behind them. -/
theorem finish_cases {t : StopTimer (Traced σ)} (henabled : t.enabled = true) (now : Instant) :
    (∃ r, t.finish now = .done { t with
      stops := []
      reporter := ⟨r, t.reporter.taken ++ intervals t.group (t.stops ++ [⟨now, endTag⟩])⟩ }) ∨
    ∃ f r k, k < t.pending ∧ t.finish now = .failed f { t with
      stops := t.stops ++ [⟨now, endTag⟩]
      reporter := ⟨r, t.reporter.taken ++ (intervals t.group (t.stops ++ [⟨now, endTag⟩])).take k⟩ } := by
  rw [finish_of_enabled henabled]
  rcases t.reporter.run_report (intervals t.group (t.stops ++ [⟨now, endTag⟩])) with
    ⟨r, hrun⟩ | ⟨f, r, k, hk, hrun⟩
  · exact .inl ⟨r, by rw [hrun]⟩
  · rw [length_intervals] at hk
    exact .inr ⟨f, r, k, hk, by rw [hrun]⟩

/-- **A finish that gets through** has reported all open intervals. -/
theorem exists_of_finish_done {t t' : StopTimer (Traced σ)} (henabled : t.enabled = true) {now : Instant}
    (h : t.finish now = .done t') :
    ∃ r, t' = ⟨t.group, true, [],
      ⟨r, t.reporter.taken ++ intervals t.group (t.stops ++ [⟨now, endTag⟩])⟩⟩ := by
  rcases finish_cases henabled now with ⟨r, hdone⟩ | ⟨_, _, _, -, hfailed⟩
  · rw [hdone, henabled] at h
    cases h
    exact ⟨r, rfl⟩
  · rw [hfailed] at h
    cases h

/-- **A finish that stops** has reported some of the first intervals, and keeps all stops. -/
theorem exists_of_finish_failed {t t' : StopTimer (Traced σ)} {now : Instant} {f : Fault}
    (h : t.finish now = .failed f t') :
    ∃ r k, k < t.pending ∧ t' = ⟨t.group, true, t.stops ++ [⟨now, endTag⟩],
      ⟨r, t.reporter.taken ++ (intervals t.group (t.stops ++ [⟨now, endTag⟩])).take k⟩⟩ := by
  have henabled : t.enabled = true := by
    by_contra hdisabled
    rw [finish_of_disabled (by simpa using hdisabled)] at h
    cases h
  rcases finish_cases henabled now with ⟨r, hdone⟩ | ⟨_, r, k, hk, hfailed⟩
  · rw [hdone] at h
    cases h
  · rw [hfailed, henabled] at h
    cases h
    exact ⟨r, k, hk, rfl⟩

/-- **A finish after one that has stopped starts over.** The first one has reported some of the first
intervals. The next one, with more marks in between and whatever has happened to the reporter, reports all of
them again, and then goes on with an interval under the tag of the closing stop.

**Proof sketch.** The first attempt has reported some of the first intervals and has kept all stops, its own closing
stop included. So the next one reports the intervals of all stops, and these are those up to the closing stop and those
from it on. -/
theorem finish_starts_over {t t' t'' : StopTimer (Traced σ)} {now later : Instant} {f : Fault}
    {marks : List Stop} {r : σ} (hstop : t.finish now = .failed f t')
    (hagain : (t'.resumed marks r).finish later = .done t'') :
    ∃ k, k < t.pending ∧
      t'.reporter.taken =
        t.reporter.taken ++ (intervals t.group (t.stops ++ [⟨now, endTag⟩])).take k ∧
      t''.reporter.taken =
        t'.reporter.taken ++ intervals t.group (t.stops ++ [⟨now, endTag⟩]) ++
          intervals t.group (⟨now, endTag⟩ :: marks ++ [⟨later, endTag⟩]) ∧
      (t.group, endTag) ∈ t''.reporter.taken.map Sample.key ∧ t''.pending = 0 := by
  obtain ⟨_, k, hk, rfl⟩ := exists_of_finish_failed hstop
  rw [resumed_of_enabled rfl] at hagain
  obtain ⟨_, rfl⟩ := exists_of_finish_done rfl hagain
  -- the closing stop of the first attempt lies between the intervals of both
  have hsplit : intervals t.group (t.stops ++ [⟨now, endTag⟩] ++ marks ++ [⟨later, endTag⟩]) =
      intervals t.group (t.stops ++ [⟨now, endTag⟩]) ++
        intervals t.group (⟨now, endTag⟩ :: marks ++ [⟨later, endTag⟩]) := by
    simpa using intervals_append t.group t.stops ⟨now, endTag⟩ (marks ++ [⟨later, endTag⟩])
  have hend : (t.group, endTag) ∈
      (intervals t.group (⟨now, endTag⟩ :: marks ++ [⟨later, endTag⟩])).map Sample.key := by
    rw [map_key_intervals]
    exact List.mem_cons_self
  simp only [hsplit]
  refine ⟨k, hk, rfl, (List.append_assoc _ _ _).symm, ?_, rfl⟩
  simp only [List.map_append, List.mem_append]
  exact .inr (.inr hend)

/-- The timer is finished while its thread reads its own collector, and then once more. The second finish
reports the time between the two as well. -/
theorem finish_starts_over_after_reading :
    let clock (n : Fin 9) : Instant := ⟨⟨n.val, n.isLt.trans (by decide)⟩⟩
    let marked : StopTimer (Traced ThreadLocal) := (begin "g" true ⟨⟨.empty, 1⟩, []⟩).mark "a" (clock 0)
    ∃ stopped dropped, marked.finish (clock 1) = .failed .beingRead stopped ∧
      (stopped.resumed [] .fresh).finish (clock 3) = .done dropped ∧
      ("g", endTag) ∈ dropped.reporter.taken.map Sample.key := by
  intro clock marked
  have hstop : marked.finish (clock 1) = .failed .beingRead (marked.finish (clock 1)).state := rfl
  have hagain : ∃ dropped,
      ((marked.finish (clock 1)).state.resumed [] .fresh).finish (clock 3) = .done dropped := ⟨_, rfl⟩
  obtain ⟨dropped, hagain⟩ := hagain
  obtain ⟨-, -, -, -, hend, -⟩ := finish_starts_over hstop hagain
  exact ⟨_, dropped, hstop, hagain, hend⟩

/-- A collector whose sum for the second mark is as long as a duration can be. The first finish stops there,
and the timer is dropped: the interval of the first mark counts twice. -/
theorem finish_takes_interval_twice :
    let clock (n : Fin 9) : Instant := ⟨⟨n.val, n.isLt.trans (by decide)⟩⟩
    let full : Collector := Collector.empty.set "g" "b" ⟨Duration.limit - 1, by decide⟩
    let marked := ((begin "g" true (⟨full, []⟩ : Traced Collector)).mark "a" (clock 0)).mark "b" (clock 2)
    let stopped := (marked.finish (clock 3)).state
    let dropped := (stopped.finish (clock 5)).state
    (marked.finish (clock 3)).fault? = some .durationOverflow ∧
      dropped.reporter.taken.map Sample.key = [("g", "a"), ("g", "a")] ∧
      (dropped.reporter.reporter.get? "g" "a").map Duration.nanoseconds = some 4 := by
  decide +kernel

end SparseDot.Timing.StopTimer
