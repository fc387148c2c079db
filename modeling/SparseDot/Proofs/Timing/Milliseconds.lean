import SparseDot.Proofs.Numeric.Absorption
import SparseDot.Proofs.Timing.Shares

set_option autoImplicit false

/-!
# The order of milliseconds

A longer time never has fewer milliseconds. Within a second this is the order of the parts of a second. From one
second to the next there are two cases: seconds of at most 53 bits are exact, and the part of a second behind them
does not reach the next one; longer seconds are rounded to even numbers, and the part of a second gets lost.

## Main results

* `SparseDot.Timing.Duration.inSeconds_le_inSeconds`, `SparseDot.Timing.Duration.millis_le_millis` — the order of
  times is that of their seconds and milliseconds.
* `SparseDot.Timing.Duration.millis_le`, `SparseDot.Timing.Duration.near_millis_zero` — the longest time, and no
  time.
-/

namespace SparseDot.Timing

open Format Binary

/-- The part of a second closest to a whole one is a double precision number below one. -/
private lemma representable_double_one_sub_nano : double.Representable (1 - 2 ^ (-30 : ℤ)) := by
  have habs : |(1 : ℚ) - 2 ^ (-30 : ℤ)| = (2 ^ 30 - 1 : ℕ) * 2 ^ (-30 : ℤ) := by norm_num
  refine ⟨?_, 2 ^ 30 - 1, -30, by decide, by decide, habs⟩
  calc |(1 : ℚ) - 2 ^ (-30 : ℤ)| ≤ 2 ^ 0 := by norm_num
    _ < double.overflowBound := lt_overflowBound_double (by decide)

namespace Duration

variable {d e : Duration}

/-! ## Parts of a second -/

/-- The part of a second stays below a whole one, also when it is rounded. -/
private lemma fraction_le (d : Duration) :
    (Binary.ofNat d.subsecond / Binary.ofNat nanosPerSecond : Binary64).toRat ≤ 1 - 2 ^ (-30 : ℤ) := by
  refine d.rounds_fraction.toRat_le d.fraction_bounds.1 representable_double_one_sub_nano ?_
  have hsub : (d.subsecond : ℚ) ≤ 999999999 := by exact_mod_cast Nat.le_of_lt_succ d.subsecond_lt
  have hunit : (nanosPerSecond : ℚ) = 1000000000 := by norm_num [nanosPerSecond]
  rw [hunit]
  calc (d.subsecond : ℚ) / 1000000000 ≤ 999999999 / 1000000000 := by gcongr
    _ ≤ 1 - 2 ^ (-30 : ℤ) := by norm_num

/-- The part of a second, rounded, grows with its nanoseconds. -/
private lemma fraction_le_fraction (h : d.subsecond ≤ e.subsecond) :
    (Binary.ofNat d.subsecond / Binary.ofNat nanosPerSecond : Binary64).toRat ≤
      (Binary.ofNat e.subsecond / Binary.ofNat nanosPerSecond : Binary64).toRat := by
  refine d.rounds_fraction.toRat_le_toRat e.rounds_fraction d.fraction_bounds.1 e.fraction_bounds.1 ?_
  gcongr

/-! ## Seconds -/

/-- Seconds are at least the whole seconds, rounded. -/
private lemma seconds_le_inSeconds (d : Duration) : (Binary.ofNat d.seconds : Binary64).toRat ≤ d.inSeconds.toRat := by
  refine d.rounds_inSeconds.le_toRat d.inSeconds_bounds.1 (representable_toRat d.seconds_bounds.1) ?_
  exact le_add_of_nonneg_right d.fraction_bounds.2.1

/-- The part of a second gets lost behind seconds that need more than 53 bits.

**Proof sketch.** Behind so many seconds numbers of the format are at least two apart, and the part of a second is less
than half of that. -/
private lemma toRat_inSeconds_of_le (h : 2 ^ 53 ≤ d.seconds) :
    d.inSeconds.toRat = (Binary.ofNat d.seconds : Binary64).toRat := by
  have hlarge : (2 : ℚ) ^ ((1 : ℤ) + double.precision - 1) ≤ (Binary.ofNat d.seconds : Binary64).toRat := by
    have hexponent : (2 : ℚ) ^ ((1 : ℤ) + double.precision - 1) = 2 ^ 53 := by norm_num [double]
    rw [hexponent]
    refine (rounds_ofNat d.seconds).le_toRat d.seconds_bounds.1 (representable_double_two_pow (by decide)) ?_
    exact_mod_cast h
  refine d.rounds_inSeconds.toRat_eq_of_absorbed d.inSeconds_bounds.1 (representable_toRat d.seconds_bounds.1)
    hlarge (le_add_of_nonneg_right d.fraction_bounds.2.1) ?_
  rw [add_sub_cancel_left]
  calc (Binary.ofNat d.subsecond / Binary.ofNat nanosPerSecond : Binary64).toRat
      ≤ 1 - 2 ^ (-30 : ℤ) := d.fraction_le
    _ < 2 ^ (1 : ℤ) / 2 := by norm_num

/-- The part of a second does not reach the next second, as long as seconds are exact. -/
private lemma toRat_inSeconds_le_of_lt (h : d.seconds < 2 ^ 53) : d.inSeconds.toRat ≤ (d.seconds + 1 : ℕ) := by
  have hexact := near_ofNat h.le
  have hnext : double.Representable ((d.seconds + 1 : ℕ) : ℚ) := by
    have := near_ofNat (n := d.seconds + 1) h
    rw [← this.toRat_eq]
    exact representable_toRat this.isFinite
  refine d.rounds_inSeconds.toRat_le d.inSeconds_bounds.1 hnext ?_
  have hfraction := d.fraction_bounds.2.2
  rw [pow_zero] at hfraction
  rw [hexact.toRat_eq]
  push_cast
  linarith

/-- **A time with fewer whole seconds does not have more seconds.**

**Proof sketch.** As long as seconds are exact the next whole second is in between. Afterwards the part of a second
gets lost, and the whole seconds, rounded, are in order. -/
theorem inSeconds_le_inSeconds_of_lt (h : d.seconds < e.seconds) : d.inSeconds.toRat ≤ e.inSeconds.toRat := by
  refine le_trans ?_ e.seconds_le_inSeconds
  rcases lt_or_ge d.seconds (2 ^ 53) with hsmall | hlarge
  · have hnext := near_ofNat (n := d.seconds + 1) hsmall
    calc d.inSeconds.toRat ≤ (d.seconds + 1 : ℕ) := toRat_inSeconds_le_of_lt hsmall
      _ = (Binary.ofNat (d.seconds + 1) : Binary64).toRat := hnext.toRat_eq.symm
      _ ≤ (Binary.ofNat e.seconds : Binary64).toRat :=
        (rounds_ofNat _).toRat_le_toRat (rounds_ofNat _) hnext.isFinite e.seconds_bounds.1
          (by exact_mod_cast Nat.succ_le_of_lt h)
  · rw [toRat_inSeconds_of_le hlarge]
    exact (rounds_ofNat _).toRat_le_toRat (rounds_ofNat _) d.seconds_bounds.1 e.seconds_bounds.1
      (by exact_mod_cast h.le)

/-- **Seconds grow with the time.**

**Proof sketch.** Either there are fewer whole seconds, or as many, and then the parts of a second decide. -/
theorem inSeconds_le_inSeconds (h : d.nanoseconds ≤ e.nanoseconds) : d.inSeconds.toRat ≤ e.inSeconds.toRat := by
  have hseconds : d.seconds ≤ e.seconds := Nat.div_le_div_right h
  rcases hseconds.lt_or_eq with hlt | heq
  · exact inSeconds_le_inSeconds_of_lt hlt
  · have hsub : d.subsecond ≤ e.subsecond := by
      have hd : nanosPerSecond * d.seconds + d.subsecond = d.nanoseconds := Nat.div_add_mod ..
      have he : nanosPerSecond * e.seconds + e.subsecond = e.nanoseconds := Nat.div_add_mod ..
      rw [heq] at hd
      omega
    refine d.rounds_inSeconds.toRat_le_toRat e.rounds_inSeconds d.inSeconds_bounds.1 e.inSeconds_bounds.1 ?_
    rw [heq]
    linarith [fraction_le_fraction hsub]

/-! ## Milliseconds -/

/-- **Milliseconds grow with the time.** -/
theorem millis_le_millis (h : d.nanoseconds ≤ e.nanoseconds) : d.millis.toRat ≤ e.millis.toRat :=
  d.rounds_millis.toRat_le_toRat e.rounds_millis d.millis_bounds.1 e.millis_bounds.1
    (mul_le_mul_of_nonneg_right (inSeconds_le_inSeconds h) (by norm_num))

/-- The longest time has less than `2 ^ 75` milliseconds. -/
theorem millis_le (d : Duration) : d.millis.toRat ≤ 2 ^ 75 := by
  obtain ⟨-, hlow, hhigh, -⟩ := d.inSeconds_bounds
  refine d.rounds_millis.toRat_le d.millis_bounds.1 (representable_double_two_pow (by decide)) ?_
  calc d.inSeconds.toRat * 1000 ≤ 2 ^ 65 * 1000 := by gcongr
    _ ≤ 2 ^ 75 := by norm_num

/-- No time has no milliseconds. -/
theorem near_millis_zero : zero.millis.Near 0 0 := by
  have hvalue : zero.millis = Binary.zero false := by decide +kernel
  rw [hvalue]
  exact near_zero false

end Duration

end SparseDot.Timing
