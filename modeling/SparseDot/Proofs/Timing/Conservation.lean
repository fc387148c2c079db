import Mathlib.Algebra.Order.Ring.Int
import SparseDot.Proofs.Timing.Course

set_option autoImplicit false

/-!
# Where the time of a course goes

Between two finishes the marks of a course make up a batch. Each of them opens a segment, which runs to the next
mark of the batch, or to the finish that closes it. A stop timer adds the time of every segment to the sum of its
tag, and nothing else. If the clock does not go back, the segments of a batch follow each other without a gap, so
all sums together are the time from the first mark of each batch to its end; what passes between a finish and the
next mark belongs to no tag. A clock that does go back is another matter: a segment that ends before it begins
then counts as no time.

## Main definitions

* `SparseDot.Timing.StopTimer.Batch` — the marks that are reported together, with the instant that closes them.
* `SparseDot.Timing.StopTimer.batches` — the batches of a course.
* `SparseDot.Timing.StopTimer.segments`, `SparseDot.Timing.StopTimer.elapsed` — the marks with the ends of their
  segments, and the time of a segment.
* `SparseDot.Timing.StopTimer.timeOf` — what the segments of a tag come to.
* `SparseDot.Timing.StopTimer.NonDecreasing` — a course whose clock does not go back.

## Main results

* `SparseDot.Timing.StopTimer.exists_run_closed` — a collector holds the segments of a course.
* `SparseDot.Timing.StopTimer.sum_elapsed_segments` — the segments of a batch make up its span.
* `SparseDot.Timing.StopTimer.conserves_time` — what the sums of a course are.
-/

namespace SparseDot.Timing

/-- The nanoseconds since the origin of the clock, to be subtracted in either order. -/
def Instant.nanos (i : Instant) : ℤ := i.sinceOrigin.nanoseconds

/-- The time since the origin of the clock is not too long. -/
private lemma Instant.nanos_lt (i : Instant) : i.nanos < Duration.limit :=
  Int.ofNat_lt.mpr i.sinceOrigin.bounded

/-- The time since the origin of the clock is not negative. -/
private lemma Instant.nanos_nonneg (i : Instant) : 0 ≤ i.nanos := Int.natCast_nonneg _

/-- The time since another instant is no time if that one is later. -/
private lemma Instant.nanoseconds_since (later earlier : Instant) :
    ((later.since earlier).nanoseconds : ℤ) = max 0 (later.nanos - earlier.nanos) := by
  simp only [Instant.since, Duration.sub, Instant.nanos]
  omega

namespace StopTimer

/-! ## Batches and segments -/

/-- **The marks that are reported together**, at least one, and the instant that closes them. -/
structure Batch where
  first : Stop
  others : List Stop
  closing : Instant

/-- A mark and the marks behind it, each with the end of its segment. -/
def segmentsFrom (first : Stop) : List Stop → Instant → List (Stop × Instant)
  | [], closing => [(first, closing)]
  | second :: rest, closing => (first, second.time) :: segmentsFrom second rest closing

namespace Batch

/-- **The marks of a batch, each with the end of its segment.** -/
def segments (b : Batch) : List (Stop × Instant) := segmentsFrom b.first b.others b.closing

/-- The time from the first mark of a batch to its end. -/
def span (b : Batch) : ℤ := b.closing.nanos - b.first.time.nanos

end Batch

/-- The open marks, closed at an instant. Without a mark there is no batch. -/
def close (closing : Instant) : List Stop → List Batch
  | [] => []
  | first :: others => [⟨first, others, closing⟩]

/-- The batches of a course that begins with some open marks. -/
def batchesFrom : List Stop → List Step → List Batch
  | _, [] => []
  | opened, .mark tag now :: rest => batchesFrom (opened ++ [⟨now, tag⟩]) rest
  | opened, .finish now :: rest => close now opened ++ batchesFrom [] rest

/-- **The batches of a course**, as far as they are closed. -/
def batches (course : List Step) : List Batch := batchesFrom [] course

/-- **The segments of a course**: its marks, each with the next mark of the same batch or with the instant that
closes the batch. -/
def segments (course : List Step) : List (Stop × Instant) := (batches course).flatMap Batch.segments

/-- The time from the beginning of a segment to its end. -/
def elapsed (segment : Stop × Instant) : ℤ := segment.2.nanos - segment.1.time.nanos

/-- **What the segments of a tag come to**, if each counts in this way. -/
def timeOf (count : ℤ → ℤ) (tag : String) (l : List (Stop × Instant)) : ℤ :=
  ((l.filter fun segment => segment.1.tag == tag).map fun segment => count (elapsed segment)).sum

/-- The marks of a course. -/
def marks (course : List Step) : List Stop :=
  course.filterMap fun
    | .mark tag now => some ⟨now, tag⟩
    | .finish _ => none

/-- The instant of a step. -/
def Step.now : Step → Instant
  | mark _ now => now
  | finish now => now

/-- **The clock does not go back** in a course. -/
def NonDecreasing (course : List Step) : Prop :=
  (course.map Step.now).Pairwise fun a b => a.nanos ≤ b.nanos

/-- Whether the clock goes back is decided mark by mark. -/
instance (course : List Step) : Decidable (NonDecreasing course) :=
  inferInstanceAs (Decidable (List.Pairwise _ _))

/-- The sample that is reported for a segment. -/
def sampleOf (group : String) (segment : Stop × Instant) : Sample :=
  ⟨group, segment.1.tag, segment.2.since segment.1.time⟩

/-! ## One batch -/

/-- **What is reported for a batch** are its segments.

**Proof sketch.** Induction on the marks: an interval runs to the next stop, and so does a segment. -/
theorem intervals_eq_map_segments (group : String) (first : Stop) (others : List Stop) (closing : Instant) :
    intervals group (first :: (others ++ [⟨closing, endTag⟩])) =
      (segmentsFrom first others closing).map (sampleOf group) := by
  induction others generalizing first with
  | nil => rfl
  | cons second rest ih =>
    rw [List.cons_append, intervals_cons_cons, ih]
    rfl

/-- What is reported for the open marks are the segments of the batch that they are closed to, if there is one. -/
private lemma intervals_eq_map_close (group : String) (opened : List Stop) (closing : Instant) :
    intervals group (opened ++ [⟨closing, endTag⟩]) =
      ((close closing opened).flatMap Batch.segments).map (sampleOf group) := by
  cases opened with
  | nil => rfl
  | cons first others => simp [intervals_eq_map_segments, close, Batch.segments]

/-- Every mark of a batch has a segment. -/
private lemma map_fst_segmentsFrom (first : Stop) (others : List Stop) (closing : Instant) :
    (segmentsFrom first others closing).map Prod.fst = first :: others := by
  induction others generalizing first with
  | nil => rfl
  | cons second rest ih => rw [segmentsFrom, List.map_cons, ih]

/-- **The segments of a batch make up its span**: the end of each is the beginning of the next.

**Proof sketch.** Induction on the marks. A segment and the span from its end on make up the span from its beginning
on. -/
theorem sum_elapsed_segments (b : Batch) : (b.segments.map elapsed).sum = b.span := by
  obtain ⟨first, others, closing⟩ := b
  simp only [Batch.segments, Batch.span]
  induction others generalizing first with
  | nil => simp [segmentsFrom, elapsed]
  | cons second rest ih =>
    rw [segmentsFrom, List.map_cons, List.sum_cons, ih]
    simp only [elapsed]
    omega

/-- No segment of a batch ends before it begins, if its marks and its end are in order. -/
private lemma elapsed_nonneg {first : Stop} {others : List Stop} {closing : Instant}
    (h : ((first :: others).map Stop.time ++ [closing]).Pairwise fun a b => a.nanos ≤ b.nanos) :
    ∀ segment ∈ segmentsFrom first others closing, 0 ≤ elapsed segment := by
  induction others generalizing first with
  | nil => simpa [segmentsFrom, elapsed] using h
  | cons second rest ih =>
    obtain ⟨hfirst, hrest⟩ := List.pairwise_cons.mp h
    refine List.forall_mem_cons.mpr ⟨?_, ih hrest⟩
    exact sub_nonneg.mpr (hfirst second.time List.mem_cons_self)

/-! ## The batches of a course -/

/-- **Every mark of a course that ends with a finish has a segment.**

**Proof sketch.** Induction on the course: a mark stays open until the next finish, at the latest until the one at the
end. -/
theorem map_fst_batchesFrom (opened : List Stop) (steps : List Step) (dropped : Instant) :
    ((batchesFrom opened (steps ++ [.finish dropped])).flatMap Batch.segments).map Prod.fst =
      opened ++ marks steps := by
  have hclose : ∀ (opened : List Stop) now, ((close now opened).flatMap Batch.segments).map Prod.fst = opened := by
    intro opened now
    cases opened with
    | nil => rfl
    | cons first others => simp [close, Batch.segments, map_fst_segmentsFrom]
  induction steps generalizing opened with
  | nil => simp [batchesFrom, hclose, marks]
  | cons s steps ih =>
    cases s with
    | mark tag now =>
      rw [List.cons_append, batchesFrom, ih, List.append_assoc]
      rfl
    | finish now =>
      rw [List.cons_append, batchesFrom, List.flatMap_append, List.map_append, hclose, ih]
      rfl

section Clock

variable (opened : List Stop) {steps : List Step}
  (h : (opened.map Stop.time ++ steps.map Step.now).Pairwise fun a b => a.nanos ≤ b.nanos)
include h

/-- If the clock does not go back, no segment ends before it begins.

**Proof sketch.** Induction on the course, in which the open marks and the instants still to come stay in order. -/
private lemma elapsed_nonneg_of_mem_batchesFrom :
    ∀ segment ∈ (batchesFrom opened steps).flatMap Batch.segments, 0 ≤ elapsed segment := by
  induction steps generalizing opened with
  | nil => simp [batchesFrom]
  | cons s steps ih =>
    cases s with
    | mark tag now =>
      refine ih (opened ++ [⟨now, tag⟩]) ?_
      simpa [Step.now] using h
    | finish now =>
      have hrest := ih [] (List.pairwise_append.mp h).2.1.tail
      rw [batchesFrom, List.flatMap_append]
      refine List.forall_mem_append.mpr ⟨?_, hrest⟩
      cases opened with
      | nil => simp [close]
      | cons first others =>
        have hbatch : ((first :: others).map Stop.time ++ [now]).Pairwise fun a b => a.nanos ≤ b.nanos :=
          h.sublist (List.Sublist.append_left (List.singleton_sublist.mpr List.mem_cons_self) _)
        simpa [close, Batch.segments] using elapsed_nonneg hbatch

/-- **The spans of all batches are less than the longest duration**, if the clock does not go back: they are
within the time from the first mark on.

**Proof sketch.** Induction on the course, with a lower bound `low` on all instants still to come. The span of a
batch takes the time from its first mark to its end, and that is a lower bound for the rest of the course. -/
theorem sum_span_lt {low : ℤ} (hlow : ∀ i ∈ opened.map Stop.time ++ steps.map Step.now, low ≤ i.nanos)
    (hlimit : low < Duration.limit) :
    ((batchesFrom opened steps).map Batch.span).sum < Duration.limit - low := by
  induction steps generalizing opened low with
  | nil => simpa [batchesFrom] using hlimit
  | cons s steps ih =>
    cases s with
    | mark tag now =>
      rw [batchesFrom]
      refine ih (opened ++ [⟨now, tag⟩]) ?_ ?_ hlimit
      · simpa [Step.now] using h
      · simpa [Step.now] using hlow
    | finish now =>
      obtain ⟨hnow, hrest⟩ := List.pairwise_cons.mp (List.pairwise_append.mp h).2.1
      have hspans := ih [] hrest hnow (Instant.nanos_lt now)
      have hlownow : low ≤ now.nanos := hlow now (by simp [Step.now])
      rw [batchesFrom, List.map_append, List.sum_append]
      cases opened with
      | nil =>
        simp only [close, List.map_nil, List.sum_nil, zero_add]
        exact hspans.trans_le (sub_le_sub_left hlownow _)
      | cons first others =>
        -- the span ends where the bound for the rest begins
        have hfirst : low ≤ first.time.nanos := hlow first.time (by simp)
        simp only [close, List.map_cons, List.map_nil, List.sum_cons, List.sum_nil, add_zero, Batch.span]
        simp only [Step.now] at hspans
        omega

end Clock

/-! ## What a collector is given -/

section Sums

variable (group : String) (l : List (Stop × Instant))

/-- The keys of the samples of segments. -/
private lemma mem_keys_samples_iff {key : String × String} :
    key ∈ (l.map (sampleOf group)).map Sample.key ↔
      key.1 = group ∧ key.2 ∈ l.map fun segment => segment.1.tag := by
  obtain ⟨name, tag⟩ := key
  simp only [List.mem_map, exists_exists_and_eq_and, sampleOf, Sample.key, Prod.mk.injEq]
  constructor
  · rintro ⟨segment, hsegment, rfl, rfl⟩
    exact ⟨rfl, segment, hsegment, rfl⟩
  · rintro ⟨rfl, segment, hsegment, rfl⟩
    exact ⟨segment, hsegment, rfl, rfl⟩

/-- **The exact sum of a tag** is what its segments come to, if one that ends before it begins counts as no
time.

**Proof sketch.** Induction on the segments. One of the tag counts with its time, and any other one not at all. -/
theorem total_map_sampleOf (tag : String) :
    (total (group, tag) (l.map (sampleOf group)) : ℤ) = timeOf (max 0) tag l := by
  induction l with
  | nil => rfl
  | cons segment l ih =>
    have hshare : (((sampleOf group segment).share (group, tag) : ℕ) : ℤ) =
        if segment.1.tag == tag then max 0 (elapsed segment) else 0 := by
      by_cases htag : segment.1.tag = tag
      · simp [Sample.share, Sample.key, sampleOf, htag, Instant.nanoseconds_since, elapsed]
      · simp [Sample.share, Sample.key, sampleOf, htag]
    rw [List.map_cons, total_cons, Int.natCast_add, ih, hshare, timeOf, timeOf, List.filter_cons]
    split_ifs with htag
    · rw [List.map_cons, List.sum_cons]
    · rw [zero_add]

/-- The sum of all samples of segments. -/
private lemma sum_map_sampleOf : ((((l.map (sampleOf group)).map fun s => s.elapsed.nanoseconds).sum : ℕ) : ℤ) =
    (l.map fun segment => max 0 (elapsed segment)).sum := by
  induction l with
  | nil => rfl
  | cons segment l ih =>
    simp only [List.map_cons, List.sum_cons, Int.natCast_add, ih]
    exact congrArg (· + _) (Instant.nanoseconds_since _ _)

/-- No sum is too long if no tag has too much time. -/
private lemma bounded_map_sampleOf (hfits : ∀ tag, timeOf (max 0) tag l < Duration.limit) :
    Bounded (l.map (sampleOf group)) := by
  rintro ⟨name, tag⟩
  by_cases hname : name = group
  · subst hname
    have h := hfits tag
    rw [← total_map_sampleOf name] at h
    exact_mod_cast h
  · rw [total_eq_zero fun hmem => hname ((mem_keys_samples_iff group l).mp hmem).1]
    decide

end Sums

section Run

variable {t : StopTimer Collector} {l : List Sample}

/-- A finish adds the segments of the open marks to the sums. -/
private lemma exists_finish_closed (henabled : t.enabled = true) (h : t.reporter.Holds l) (now : Instant)
    (hbound : Bounded (l ++ ((close now t.stops).flatMap Batch.segments).map (sampleOf t.group))) :
    ∃ c, t.finish now = .done { t with stops := [], reporter := c } ∧
      c.Holds (l ++ ((close now t.stops).flatMap Batch.segments).map (sampleOf t.group)) := by
  obtain ⟨c, hrun, hc⟩ := h.exists_run hbound
  refine ⟨c, ?_, hc⟩
  rw [← intervals_eq_map_close] at hrun
  have hreport : Outcome.run Reporter.report t.reporter (intervals t.group (t.stops ++ [⟨now, endTag⟩])) =
      .done c := hrun
  rw [finish_of_enabled henabled, hreport]

/-- **A course that ends with a finish adds all its segments to the sums**, unless one gets too long, and leaves
no mark open.

**Proof sketch.** Induction on the course. A mark stays open, and a finish closes the open marks to a batch. -/
theorem exists_run_closed (henabled : t.enabled = true) (h : t.reporter.Holds l) (steps : List Step)
    (dropped : Instant)
    (hbound : Bounded (l ++ ((batchesFrom t.stops (steps ++ [.finish dropped])).flatMap Batch.segments).map
      (sampleOf t.group))) :
    ∃ t', Outcome.run step t (steps ++ [.finish dropped]) = .done t' ∧ t'.pending = 0 ∧
      t'.reporter.Holds (l ++ ((batchesFrom t.stops (steps ++ [.finish dropped])).flatMap Batch.segments).map
        (sampleOf t.group)) := by
  induction steps generalizing t l with
  | nil =>
    simp only [List.nil_append, batchesFrom, List.append_nil] at hbound ⊢
    obtain ⟨c, hfinish, hc⟩ := exists_finish_closed henabled h dropped hbound
    exact ⟨{ t with stops := [], reporter := c }, by simp only [Outcome.run, step, hfinish], rfl, hc⟩
  | cons s steps ih =>
    cases s with
    | mark tag now =>
      have hmark : t.mark tag now = { t with stops := t.stops ++ [⟨now, tag⟩] } := if_pos henabled
      simp only [List.cons_append, batchesFrom] at hbound ⊢
      simp only [Outcome.run, step, hmark]
      exact ih henabled h hbound
    | finish now =>
      simp only [List.cons_append, batchesFrom, List.flatMap_append, List.map_append, ← List.append_assoc]
        at hbound ⊢
      obtain ⟨c, hfinish, hc⟩ := exists_finish_closed henabled h now hbound.of_append_left
      simp only [Outcome.run, step, hfinish]
      exact ih henabled hc hbound

end Run

/-! ## Where the time goes -/

/-- The time of a tag is at most that of all tags. -/
private lemma timeOf_le_sum (tag : String) (l : List (Stop × Instant)) :
    timeOf (max 0) tag l ≤ (l.map fun segment => max 0 (elapsed segment)).sum := by
  induction l with
  | nil => rfl
  | cons segment l ih =>
    have hnonneg : 0 ≤ max 0 (elapsed segment) := le_max_left 0 _
    rw [List.map_cons, List.sum_cons]
    rw [timeOf] at ih ⊢
    rw [List.filter_cons]
    split_ifs
    · rw [List.map_cons, List.sum_cons]
      omega
    · omega

/-- Where no segment ends before it begins, each counts as it is. -/
private lemma map_max_elapsed {l : List (Stop × Instant)} (h : ∀ segment ∈ l, 0 ≤ elapsed segment) :
    (l.map fun segment => max 0 (elapsed segment)) = l.map elapsed :=
  List.map_congr_left fun segment hsegment => max_eq_right (h segment hsegment)

/-- Where no segment ends before it begins, the time of a tag is exact. -/
private lemma timeOf_max_eq {l : List (Stop × Instant)} (h : ∀ segment ∈ l, 0 ≤ elapsed segment) (tag : String) :
    timeOf (max 0) tag l = timeOf id tag l := by
  rw [timeOf, map_max_elapsed fun segment hsegment => h segment (List.mem_of_mem_filter hsegment)]
  rfl

/-- **All segments of a course make up the spans of its batches.** -/
theorem sum_elapsed_course (course : List Step) :
    ((segments course).map elapsed).sum = ((batches course).map Batch.span).sum := by
  rw [segments]
  induction batches course with
  | nil => rfl
  | cons b bs ih =>
    rw [List.flatMap_cons, List.map_append, List.sum_append, ih, sum_elapsed_segments, List.map_cons, List.sum_cons]

/-- The tags of a course are those of its marks. -/
private lemma map_tag_marks (course : List Step) : (marks course).map Stop.tag = tags course := by
  rw [marks, tags, List.map_filterMap]
  congr 1
  funext s
  cases s <;> rfl

section Course

variable {course : List Step} (h : NonDecreasing course)
include h

/-- If the clock does not go back, no segment of the course ends before it begins. -/
private lemma NonDecreasing.elapsed_nonneg : ∀ segment ∈ segments course, 0 ≤ elapsed segment :=
  elapsed_nonneg_of_mem_batchesFrom [] h

/-- **A clock that does not go back leaves no time for a sum that is too long.**

**Proof sketch.** The time of a tag is at most that of all segments, which is that of all batches, and these are within
the time from the origin of the clock to its last instant. -/
theorem NonDecreasing.timeOf_lt (tag : String) : timeOf (max 0) tag (segments course) < Duration.limit := by
  have hspans : ((batches course).map Batch.span).sum < Duration.limit - 0 :=
    sum_span_lt [] h (fun i _ => i.nanos_nonneg) (by decide)
  calc timeOf (max 0) tag (segments course)
      ≤ ((segments course).map fun segment => max 0 (elapsed segment)).sum := timeOf_le_sum tag _
    _ = ((batches course).map Batch.span).sum := by rw [map_max_elapsed h.elapsed_nonneg, sum_elapsed_course]
    _ < Duration.limit := by rwa [sub_zero] at hspans

end Course

/-- **A stop timer conserves time.** Take a timer that is on, with an empty collector, and a course that ends with
the timer being dropped. Every mark has its segment, which ends at the next mark of its batch or with the batch. As
long as the segments of no tag come to more than the longest duration, which cannot happen if the clock does not
go back, the course succeeds and leaves no mark open. The collector then has a sum for the tags of the course and
for nothing else, which is what the segments of the tag come to, where one that ends before it begins counts as no
time. If the clock does not go back, that is their exact time, and all sums together are the time from the first
mark of each batch to its end.

**Proof sketch.** The collector holds the samples of the segments, in groups that are all the same, so that a sum is
that of the segments of its tag. If the clock does not go back then no segment is cut off at zero, and the segments of
a batch make up its span. -/
theorem conserves_time (group : String) (steps : List Step) (dropped : Instant) :
    let course := steps ++ [.finish dropped]
    (segments course).map Prod.fst = marks steps ∧
    (NonDecreasing course → ∀ tag, timeOf (max 0) tag (segments course) < Duration.limit) ∧
    ((∀ tag, timeOf (max 0) tag (segments course) < Duration.limit) →
      ∃ t, Outcome.run step (.begin group true Collector.empty) course = .done t ∧ t.pending = 0 ∧
        (∀ group' tag, (t.reporter.get? group' tag).isSome ↔ group' = group ∧ tag ∈ tags steps) ∧
        (∀ tag sum, t.reporter.get? group tag = some sum →
          (sum.nanoseconds : ℤ) = timeOf (max 0) tag (segments course)) ∧
        (NonDecreasing course →
          (∀ tag sum, t.reporter.get? group tag = some sum →
            (sum.nanoseconds : ℤ) = timeOf id tag (segments course)) ∧
          (((t.reporter.samples.map fun s => s.elapsed.nanoseconds).sum : ℕ) : ℤ) =
            ((batches course).map Batch.span).sum)) := by
  intro course
  have hmarks : (segments course).map Prod.fst = marks steps := map_fst_batchesFrom [] steps dropped
  have htags : (segments course).map (fun segment => segment.1.tag) = tags steps := by
    rw [← map_tag_marks, ← hmarks, List.map_map]
    rfl
  refine ⟨hmarks, NonDecreasing.timeOf_lt, fun hfits => ?_⟩
  obtain ⟨t, hrun, hpending, hholds⟩ := exists_run_closed (t := .begin group true .empty) rfl
    Collector.holds_empty steps dropped (bounded_map_sampleOf group (segments course) hfits)
  replace hholds : t.reporter.Holds ((segments course).map (sampleOf group)) := hholds
  have hsum : ∀ tag sum, t.reporter.get? group tag = some sum →
      (sum.nanoseconds : ℤ) = timeOf (max 0) tag (segments course) := by
    intro tag sum hget
    rw [← total_map_sampleOf group, ← hholds.nanoseconds_getD, hget]
    rfl
  refine ⟨t, hrun, hpending, fun group' tag => ?_, hsum, fun hclock => ⟨fun tag sum hget => ?_, ?_⟩⟩
  · rw [← Option.isSome_map, hholds.map_get?, Option.isSome_iff_ne_none, Ne, sumOf_eq_none_iff, not_not,
      mem_keys_samples_iff, htags]
  · rw [hsum tag sum hget, timeOf_max_eq hclock.elapsed_nonneg]
  · rw [hholds.sum_samples, sum_map_sampleOf, map_max_elapsed hclock.elapsed_nonneg, sum_elapsed_course]

/-- A time that is there has its nanoseconds. -/
private lemma map_nanoseconds_eq {sum? : Option Duration} {n : ℕ} (hsome : sum?.isSome)
    (hsum : ∀ sum, sum? = some sum → (sum.nanoseconds : ℤ) = n) : sum?.map Duration.nanoseconds = some n := by
  obtain ⟨sum, rfl⟩ := Option.isSome_iff_exists.mp hsome
  exact congrArg some (Int.ofNat_inj.mp (hsum sum rfl))

/-- Two batches with tags that repeat, and a long time between them. On another course the clock goes back in the
first segment, which then counts as no time. -/
theorem conserves_time_two_batches :
    let clock (n : Fin 2000) : Instant := ⟨⟨n.val, n.isLt.trans (by decide)⟩⟩
    let steps : List Step := [.mark "a" (clock 10), .mark "b" (clock 25), .mark "a" (clock 45), .finish (clock 60),
      .mark "b" (clock 1000), .mark "a" (clock 1007)]
    let back : List Step := [.mark "a" (clock 10), .mark "b" (clock 4)]
    (∃ t, Outcome.run step (.begin "g" true Collector.empty) (steps ++ [.finish (clock 1010)]) = .done t ∧
      (t.reporter.get? "g" "a").map Duration.nanoseconds = some 33 ∧
      (t.reporter.get? "g" "b").map Duration.nanoseconds = some 27 ∧
      (t.reporter.samples.map fun s => s.elapsed.nanoseconds).sum = 60) ∧
      ∃ t, Outcome.run step (.begin "g" true Collector.empty) (back ++ [.finish (clock 9)]) = .done t ∧
        (t.reporter.get? "g" "a").map Duration.nanoseconds = some 0 ∧
        (t.reporter.get? "g" "b").map Duration.nanoseconds = some 5 := by
  intro clock steps back
  constructor
  · obtain ⟨-, hfits, hrun⟩ := conserves_time "g" steps (clock 1010)
    have hclock : NonDecreasing (steps ++ [.finish (clock 1010)]) := by decide
    obtain ⟨t, ht, -, hsome, -, hexact⟩ := hrun (hfits hclock)
    obtain ⟨hsum, htotal⟩ := hexact hclock
    refine ⟨t, ht, ?_, ?_, Int.ofNat_inj.mp (htotal.trans (by decide))⟩
    · exact map_nanoseconds_eq ((hsome "g" "a").mpr (by decide)) fun a ha => (hsum "a" a ha).trans (by decide)
    · exact map_nanoseconds_eq ((hsome "g" "b").mpr (by decide)) fun b hb => (hsum "b" b hb).trans (by decide)
  · obtain ⟨-, -, hrun⟩ := conserves_time "g" back (clock 9)
    obtain ⟨t, ht, -, hsome, hsum, -⟩ := hrun fun tag => (timeOf_le_sum tag _).trans_lt (by decide)
    refine ⟨t, ht, ?_, ?_⟩
    · exact map_nanoseconds_eq ((hsome "g" "a").mpr (by decide)) fun a ha => (hsum "a" a ha).trans (by decide)
    · exact map_nanoseconds_eq ((hsome "g" "b").mpr (by decide)) fun b hb => (hsum "b" b hb).trans (by decide)

end StopTimer

end SparseDot.Timing
