import SparseDot.Proofs.Bench.Arguments
import SparseDot.Proofs.Bench.Schedule
import SparseDot.Proofs.Bench.Vectors
import SparseDot.Proofs.Timing.Milliseconds
import SparseDot.Proofs.Timing.Percentages

set_option autoImplicit false

/-!
# The total time of a run

A run times all of its calls together, and tells the average of a call. For that it counts the calls before it
makes any of them, and the count has 64 bits. Each of its two factors fits, since it has been read from a command
line, but their product need not. A command line that asks for too many calls is read and prepared like any other
one, and the run breaks off when it comes to count. Every other run is timed with the number of calls that the
pool makes for it, and the average that it tells is the total time divided by this number, up to roundings.

## Main results

* `SparseDot.Bench.exists_prepareWith` — what is read from a command line is prepared.
* `SparseDot.Bench.Options.Fits.two_le_of_size_le` — too many calls need two workers, and two calls of each.
* `SparseDot.Bench.Job.totalTimer?_eq_none_iff` — the runs without a timer.
* `SparseDot.Bench.Job.log_finish_begin` — what a run with a timer tells.
* `SparseDot.Bench.near_average` — the error of an average.
* `SparseDot.Bench.Job.total_time_counts_every_call` — the timer for every command line.

## Design

The timer is made when there is a pool of workers already, so all of this is about runs that have one.
-/

namespace SparseDot.Bench

open Timing

/-! ## From the command line to the count -/

/-- **What is read from a command line is prepared**, whatever vectors it asks for and however it is read. -/
theorem exists_prepareWith {read : List String → Except Ending Options} {arguments : List String} {options : Options}
    (h : read arguments = .ok options) (switchValue : Option String) (level : Kernel.LaneLevel) :
    ∃ job, prepareWith read arguments switchValue level = .ok job ∧ job.options = options ∧
      job.timing = (options.timing || parseFlag switchValue) := by
  obtain ⟨inputs, hinputs, -⟩ := Inputs.exists_ofOptions options
  refine ⟨⟨options, inputs, options.timing || parseFlag switchValue, level⟩, ?_, rfl, rfl⟩
  simp only [prepareWith, h, hinputs]
  rfl

/-- **Too many calls** need at least two workers, and at least two calls of each.

**Proof sketch.** With one worker, or with one call of each, there are no more calls than one of the two numbers, which
fits. -/
theorem Options.Fits.two_le_of_size_le {options : Options} (h : options.Fits)
    (hcalls : UInt64.size ≤ max options.threads 1 * options.iterations) :
    2 ≤ options.threads ∧ 2 ≤ options.iterations := by
  have hiterations := h.iterations
  have hthreads : max options.threads 1 < UInt64.size := max_lt h.threads (by decide)
  constructor
  · by_contra hfew
    rw [max_eq_right (by omega), Nat.one_mul] at hcalls
    omega
  · by_contra hfew
    have hle : max options.threads 1 * options.iterations ≤ max options.threads 1 * 1 :=
      Nat.mul_le_mul_left _ (by omega)
    omega

namespace Job

variable (job : Job)

/-- **A run has no timer** exactly if it has too many calls. -/
theorem totalTimer?_eq_none_iff (started : Instant) :
    job.totalTimer? started = none ↔ UInt64.size ≤ job.calls := by
  rw [totalTimer?]
  split_ifs with h
  · simp [h]
  · simpa using h

/-- **What a run with a timer tells**: what is run, the total time if there is timing, and the checksum. -/
theorem log_finish_begin (count : ℕ) (started : Instant) (execution : Execution) (ended : Instant)
    (colours : Bool) :
    (job.finish (.begin "dp-bench total" count job.timing started) execution ended colours).log =
      job.header ::
        (if job.timing then [⟨.info, timingLine "dp-bench total" (ended.since started).millis count⟩] else []) ++
        [⟨.info, "checksum=" ++ Decimal.fixed 4 execution.checksum⟩] := by
  have htimer : (Timer.begin "dp-bench total" count job.timing started).finish ended =
      if job.timing then some ⟨.info, timingLine "dp-bench total" (ended.since started).millis count⟩
      else none := by
    cases job.timing <;> rfl
  rw [finish, htimer]
  cases job.gather execution <;> cases job.timing <;> rfl

end Job

/-! ## Averages -/

section Average

open Format Binary

/-- A count is rounded once, and keeps at least half of its value.

**Proof sketch.** A count has at most 64 bits, so it does not overflow and is rounded once, by at most one part in `2 ^
53`. Half of the count is far below that. -/
private lemma count_bounds {n : ℕ} (hlt : n < 2 ^ 64) :
    (Binary.ofNat n : Binary64).isFinite ∧ (n : ℚ) / 2 ≤ (Binary.ofNat n : Binary64).toRat ∧
      |(Binary.ofNat n : Binary64).toRat - n| ≤ 2 ^ (-53 : ℤ) * n := by
  have hn : (n : ℚ) < 2 ^ 64 := by exact_mod_cast hlt
  have hsmall : 2 * |((n : ℤ) : ℚ)| < double.overflowBound := by
    rw [Int.cast_natCast, Nat.abs_cast]
    calc 2 * (n : ℚ) < 2 ^ 65 := by linarith
      _ < double.overflowBound := lt_overflowBound_double (by decide)
  have hwithin : (Binary.ofNat n : Binary64).Within ((n : ℤ) : ℚ) (1 + double.unitRoundoff) :=
    within_ofInt (by decide) hsmall
  have herror := hwithin.abs_sub_le
  rw [add_sub_cancel_left, Int.cast_natCast, Nat.abs_cast, unitRoundoff_double] at herror
  refine ⟨hwithin.isFinite, ?_, herror⟩
  have hlow := (abs_le.mp herror).1
  norm_num at hlow ⊢
  linarith

/-- A quotient by a count that is a little off is a little off itself. -/
private lemma div_bounds_of_count {m n c ε : ℚ} (hm : 0 ≤ m) (hn : 0 < n) (hhalf : n / 2 ≤ c)
    (herror : |c - n| ≤ ε * n) : m / c ≤ 2 * (m / n) ∧ |m / c - m / n| ≤ ε * (m / c) := by
  have hc : 0 < c := (half_pos hn).trans_le hhalf
  constructor
  · calc m / c ≤ m / (n / 2) := div_le_div_of_nonneg_left hm (half_pos hn) hhalf
      _ = 2 * (m / n) := by field_simp
  · have heq : m / c - m / n = m / c * ((n - c) / n) := by field_simp
    rw [heq, abs_mul, abs_of_nonneg (div_nonneg hm hc.le), mul_comm, abs_div, abs_of_pos hn, abs_sub_comm]
    gcongr
    exact (div_le_iff₀ hn).mpr herror

/-- **The error of an average**: the count is rounded, and so is the quotient.

**Proof sketch.** The rounded count differs from the count by a small part of it, so the quotient by the one differs
from that by the other by a small part of either, which is at most twice the average. The quotient is rounded once
more. Neither overflows, as milliseconds are less than `2 ^ 75`. -/
theorem near_average (d : Duration) {n : ℕ} (hpos : 0 < n) (hlt : n < 2 ^ 64) :
    (d.millis / Binary.ofNat n).Near (d.millis.toRat / n)
      (2 ^ (-51 : ℤ) * (d.millis.toRat / n) + double.underflowError) := by
  obtain ⟨hfinite, hnonneg, -⟩ := d.millis_bounds
  obtain ⟨hcount, hhalf, herror⟩ := count_bounds hlt
  have hmax := d.millis_le
  have hn : (1 : ℚ) ≤ n := by exact_mod_cast hpos
  set m := d.millis.toRat
  set c := (Binary.ofNat n : Binary64).toRat
  have hc : 0 < c := by linarith
  have hquotient₀ : 0 ≤ m / c := div_nonneg hnonneg hc.le
  -- the quotient by the rounded count is not much larger than the one by the count, and close to it
  obtain ⟨hquotient, hrounded⟩ := div_bounds_of_count hnonneg (by linarith) hhalf herror
  have hroom : |m / c| + (double.unitRoundoff * |m / c| + double.underflowError) < double.overflowBound := by
    have hle : m / n ≤ 2 ^ 75 := (div_le_self hnonneg hn).trans hmax
    have hη := underflowError_double_le
    rw [abs_of_nonneg hquotient₀, unitRoundoff_double]
    refine lt_trans ?_ (lt_overflowBound_double (n := 78) (by decide))
    norm_num at hη hquotient hle ⊢
    linarith
  have hdiv := near_div hfinite hcount hc.ne' hroom
  rw [abs_of_nonneg hquotient₀, unitRoundoff_double] at hdiv
  refine ⟨hdiv.isFinite, ?_⟩
  calc |(d.millis / Binary.ofNat n : Binary64).toRat - m / n|
      ≤ |(d.millis / Binary.ofNat n : Binary64).toRat - m / c| + |m / c - m / n| := abs_sub_le _ _ _
    _ ≤ 2 ^ (-53 : ℤ) * (m / c) + double.underflowError + 2 ^ (-53 : ℤ) * (m / c) :=
      add_le_add hdiv.abs_sub_le hrounded
    _ ≤ 2 ^ (-51 : ℤ) * (m / n) + double.underflowError := by
      norm_num at hquotient ⊢
      linarith

end Average

/-! ## The timer -/

namespace Job

/-- **The total time counts every call, unless there are too many of them.** This holds of every reader that reads
command lines as it is asked of one, and the bench has such a reader. The options that command lines give are those
whose numbers fit 64 bits each, and every command line that is read is prepared. If the number of
workers, of which there is at least one, times the number of iterations fits 64 bits as well, then there is a timer
with exactly this count. It is the number of calls that a pool makes, whatever its schedule, and the line of the
timer tells the total time divided by it. Otherwise there is no timer, and the run breaks off. That takes at least
two workers, and two iterations.

**Proof sketch.** The run is prepared from the options that were read. Its timer is made if the number of calls fits,
which is the number that every complete execution has, and the line of the timer is computed from it. That it takes two
workers and two iterations is because each number fits by itself. -/
theorem total_time_counts_every_call (options : Options) :
    ReadsOptions parse ∧
    ∀ read, ReadsOptions read →
      ((∃ arguments, read arguments = .ok options) ↔ options.Fits) ∧
      ∀ arguments switchValue level, read arguments = .ok options → ∃ job,
        prepareWith read arguments switchValue level = .ok job ∧ job.options = options ∧
        job.timing = (options.timing || parseFlag switchValue) ∧
        (max options.threads 1 * options.iterations < 2 ^ 64 → ∀ started, ∃ timer,
          job.totalTimer? started = some timer ∧ timer.count = max options.threads 1 * options.iterations ∧
          ∀ execution : Execution, execution.Complete job → execution.calls.length = timer.count ∧
            ∀ ended colours,
              let total := (ended.since started).millis
              (job.finish timer execution ended colours).log =
                job.header ::
                  (if job.timing then [⟨.info, timingLine "dp-bench total" total timer.count⟩] else []) ++
                  [⟨.info, "checksum=" ++ Decimal.fixed 4 execution.checksum⟩] ∧
              (1 ≤ options.iterations → ∃ average : Binary64,
                timingLine "dp-bench total" total timer.count =
                  "dp-bench total" ++ " time: " ++ Decimal.fixed 3 total ++ " ms" ++
                    ", average time: " ++ Decimal.fixed 6 average ++ " ms" ∧
                average.Near (total.toRat / execution.calls.length)
                  (2 ^ (-51 : ℤ) * (total.toRat / execution.calls.length) + Format.double.underflowError))) ∧
        (2 ^ 64 ≤ max options.threads 1 * options.iterations →
          2 ≤ options.threads ∧ 2 ≤ options.iterations ∧ ∀ started, job.totalTimer? started = none) := by
  refine ⟨readsOptions_parse, fun read hreader => ⟨hreader.exists_eq_ok_iff, ?_⟩⟩
  intro arguments switchValue level hread
  obtain ⟨job, hprepare, hoptions, htiming⟩ := exists_prepareWith hread switchValue level
  have hcalls : job.calls = max options.threads 1 * options.iterations := by rw [calls, threads, hoptions]
  refine ⟨job, hprepare, hoptions, htiming, fun hlt started => ?_, fun hle => ?_⟩
  · refine ⟨.begin "dp-bench total" job.calls job.timing started, if_pos (hcalls.trans_lt hlt), hcalls, ?_⟩
    intro execution hcomplete
    refine ⟨hcomplete.length_calls_eq, fun ended colours => ⟨log_finish_begin .., fun hiterations => ?_⟩⟩
    have hpos : 0 < job.calls := by
      rw [hcalls]
      exact Nat.mul_pos (lt_of_lt_of_le Nat.one_pos (le_max_right _ _)) hiterations
    refine ⟨(ended.since started).millis / Binary.ofNat job.calls, if_pos hpos, ?_⟩
    rw [hcomplete.length_calls_eq]
    exact near_average _ hpos (hcalls.trans_lt hlt)
  · obtain ⟨hthreads, hiterations⟩ := (hreader.fits arguments options hread).two_le_of_size_le hle
    exact ⟨hthreads, hiterations, fun started => (job.totalTimer?_eq_none_iff started).mpr (hle.trans_eq hcalls.symm)⟩

/-- There is a complete execution of every run, by one worker for instance. -/
private lemma exists_complete (job : Job) : ∃ execution : Execution, execution.Complete job := by
  let call : Call := ⟨Binary.zero false, .origin, .origin⟩
  let task : Task := ⟨0, List.replicate job.options.iterations call⟩
  refine ⟨⟨1, List.replicate job.threads task, .leftToRight job.threads, [0]⟩, ?_, ?_, ?_, .refl _⟩
  · exact List.length_replicate
  · intro t ht
    rw [List.eq_of_mem_replicate ht]
    exact List.length_replicate
  · intro t ht
    rw [List.eq_of_mem_replicate ht]
    exact Nat.one_pos

/-- Three workers: the largest number of iterations that can be counted, and one more. -/
theorem total_time_counts_every_call_at_the_limit :
    (∃ job timer, prepare ["--threads=3", "--iters=6148914691236517205", "--timing"] none .avx2 = .ok job ∧
      job.totalTimer? .origin = some timer ∧ timer.count = 2 ^ 64 - 1 ∧
      ∃ execution : Execution, execution.Complete job ∧ execution.calls.length = 2 ^ 64 - 1 ∧
        ∀ ended colours, (job.finish timer execution ended colours).log[1]? =
          some ⟨.info, timingLine "dp-bench total" (ended.since .origin).millis (2 ^ 64 - 1)⟩) ∧
    ∃ job, prepare ["--threads=3", "--iters=6148914691236517206"] (some "1") .scalar = .ok job ∧
      ∀ started, job.totalTimer? started = none := by
  constructor
  · let options : Options := { threads := 3, iterations := 6148914691236517205, timing := true }
    obtain ⟨hreads, hcounts⟩ := total_time_counts_every_call options
    obtain ⟨job, hprepare, hoptions, htiming, hcounted, -⟩ := (hcounts parse hreads).2
      ["--threads=3", "--iters=6148914691236517205", "--timing"] none .avx2 rfl
    have hmax : max options.threads 1 * options.iterations = 2 ^ 64 - 1 := by norm_num [options]
    obtain ⟨timer, htimer, hcount, hexecution⟩ := hcounted (hmax.trans_lt (by norm_num)) .origin
    rw [hmax] at hcount
    obtain ⟨execution, hcomplete⟩ := job.exists_complete
    obtain ⟨hlength, htold⟩ := hexecution execution hcomplete
    refine ⟨job, timer, hprepare, htimer, hcount, execution, hcomplete, hlength.trans hcount, ?_⟩
    intro ended colours
    rw [(htold ended colours).1, htiming, hcount]
    rfl
  · let options : Options := { threads := 3, iterations := 6148914691236517206 }
    obtain ⟨hreads, hcounts⟩ := total_time_counts_every_call options
    obtain ⟨job, hprepare, -, -, -, hnone⟩ := (hcounts parse hreads).2
      ["--threads=3", "--iters=6148914691236517206"] (some "1") .scalar rfl
    have hle : 2 ^ 64 ≤ max options.threads 1 * options.iterations := by norm_num [options]
    exact ⟨job, hprepare, (hnone hle).2.2⟩

/-- Two workers with `2 ^ 63` iterations each, which is one call more than can be counted. The command line is read
and prepared, and there is no timer with that count. -/
theorem total_time_uncounted_two_workers :
    ∃ job, prepare ["--sparse-len", "0", "--threads", "2", "--iters", "9223372036854775808", "--timing"]
        none .avx2 = .ok job ∧
      max job.options.threads 1 * job.options.iterations = 2 ^ 64 ∧
      ∀ started, ¬∃ timer, job.totalTimer? started = some timer ∧
        timer.count = max job.options.threads 1 * job.options.iterations := by
  let options : Options := { sparseLength := 0, threads := 2, iterations := 2 ^ 63, timing := true }
  have hparse : parse ["--sparse-len", "0", "--threads", "2", "--iters", "9223372036854775808", "--timing"] =
    .ok options := rfl
  obtain ⟨job, hprepare, hoptions, -⟩ := exists_prepareWith hparse none .avx2
  have hcalls : max job.options.threads 1 * job.options.iterations = 2 ^ 64 := by
    rw [hoptions]
    norm_num [options]
  refine ⟨job, hprepare, hcalls, ?_⟩
  rintro started ⟨timer, htimer, -⟩
  have hnone : job.totalTimer? started = none := (job.totalTimer?_eq_none_iff started).mpr hcalls.ge
  rw [hnone] at htimer
  cases htimer

end Job

end SparseDot.Bench
