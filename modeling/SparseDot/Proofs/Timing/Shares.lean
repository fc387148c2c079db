import SparseDot.Proofs.Numeric.Monotone
import SparseDot.Timing.Report

set_option autoImplicit false

/-!
# Milliseconds and shares

Milliseconds are computed in four roundings. None of them overflows, and since numbers of the format are kept by
rounding, no time that passes is rounded to zero. So a tag that is alone in its group has all of the time of the
group, unless no time has passed.

## Main results

* `SparseDot.Timing.Duration.millis_bounds` — milliseconds are finite, and positive if any time passes.
* `SparseDot.Timing.percentOf_only_tag` — the share of a tag that is alone in its group.
-/

namespace SparseDot.Timing

open Format Binary

/-! ## Numbers of the format -/

/-- Powers of two of ordinary size do not overflow. -/
lemma lt_overflowBound_double {n : ℕ} (hn : n < 1024) : (2 : ℚ) ^ n < double.overflowBound :=
  pow_lt_pow_right₀ (by norm_num) hn

/-- Powers of two of ordinary size are double precision numbers. -/
lemma representable_double_two_pow {n : ℕ} (hn : n < 1024) : double.Representable (2 ^ n) := by
  have h : double.Representable (2 ^ (n : ℤ)) :=
    representable_two_zpow ((by decide : double.minExponent ≤ 0).trans (Int.natCast_nonneg n)) (by
      rw [zpow_natCast]
      exact lt_overflowBound_double hn)
  rwa [zpow_natCast] at h

/-- The largest power of two that is at most a nanosecond, in seconds. -/
private lemma representable_double_nano : double.Representable (2 ^ (-30 : ℤ)) :=
  representable_two_zpow (by decide) ((by norm_num : (2 : ℚ) ^ (-30 : ℤ) < 2 ^ 0).trans
    (lt_overflowBound_double (by decide)))

/-- Natural numbers of at most 53 bits are double precision numbers. -/
lemma near_ofNat {n : ℕ} (hn : n ≤ 2 ^ 53) : (Binary.ofNat n : Binary64).Near n 0 := by
  have hrep : double.Representable (n : ℤ) := representable_double (by
    rw [Nat.abs_cast]
    exact_mod_cast hn)
  have hnear : (Binary.ofNat n : Binary64).Near ((n : ℤ) : ℚ) 0 := near_ofInt hrep
  rwa [Int.cast_natCast] at hnear

/-- A natural number is rounded once. -/
lemma rounds_ofNat (n : ℕ) : (Binary.ofNat n : Binary64).Rounds n := by
  have hval : (Exact.ofInt n).toRat = n := by
    rw [Exact.ofInt, Exact.toRat_natAbs, zpow_zero, mul_one, Int.cast_natCast]
  have hround : (Binary.ofNat n : Binary64).Rounds _ := rounds_round (x := Exact.ofInt n) rfl
  rwa [hval] at hround

namespace Duration

variable (d : Duration)

/-! ## Milliseconds -/

/-- The whole seconds of a duration fit in 64 bits. -/
private lemma seconds_lt : d.seconds < 2 ^ 64 := by
  have hlimit : limit = 2 ^ 64 * nanosPerSecond := rfl
  exact Nat.div_lt_of_lt_mul (by rw [mul_comm, ← hlimit]; exact d.bounded)

/-- The part of a second is less than a second. -/
lemma subsecond_lt : d.subsecond < nanosPerSecond := Nat.mod_lt _ (by decide)

/-- The whole seconds, rounded. -/
lemma seconds_bounds : (Binary.ofNat d.seconds : Binary64).isFinite ∧
    0 ≤ (Binary.ofNat d.seconds : Binary64).toRat ∧ (Binary.ofNat d.seconds : Binary64).toRat ≤ 2 ^ 64 := by
  refine (rounds_ofNat d.seconds).between (representable_zero _) (representable_double_two_pow (by decide))
    (Nat.cast_nonneg _) ?_
  exact_mod_cast d.seconds_lt.le

/-- The part of a second behind them, rounded. -/
lemma rounds_fraction : (Binary.ofNat d.subsecond / Binary.ofNat nanosPerSecond : Binary64).Rounds
    (d.subsecond / nanosPerSecond) := by
  have hsub := near_ofNat (n := d.subsecond) (d.subsecond_lt.le.trans (by decide))
  have hunit := near_ofNat (n := nanosPerSecond) (by decide)
  have hdiv := rounds_div hsub.isFinite hunit.isFinite (by
    rw [hunit.toRat_eq]
    exact_mod_cast (by decide : nanosPerSecond ≠ 0))
  rwa [hsub.toRat_eq, hunit.toRat_eq] at hdiv

/-- The part of a second, rounded, is a number between zero and one. -/
lemma fraction_bounds :
    let fraction : Binary64 := Binary.ofNat d.subsecond / Binary.ofNat nanosPerSecond
    fraction.isFinite ∧ 0 ≤ fraction.toRat ∧ fraction.toRat ≤ 2 ^ 0 := by
  have hunit : (0 : ℚ) < nanosPerSecond := by exact_mod_cast (by decide : 0 < nanosPerSecond)
  refine d.rounds_fraction.between (representable_zero _) (representable_double_two_pow (by decide))
    (by positivity) ?_
  rw [pow_zero, div_le_one hunit]
  exact_mod_cast d.subsecond_lt.le

/-- Seconds are the sum of the two, rounded. -/
lemma rounds_inSeconds : d.inSeconds.Rounds ((Binary.ofNat d.seconds : Binary64).toRat +
    (Binary.ofNat d.subsecond / Binary.ofNat nanosPerSecond : Binary64).toRat) :=
  rounds_add d.seconds_bounds.1 d.fraction_bounds.1

/-- **Seconds are finite, and positive if any time passes**: there is a whole second, or at least a nanosecond
behind the whole seconds, and none of the two is rounded to zero.

**Proof sketch.** The two parts are numbers between zero and `2 ^ 64`, and zero and one, so that their sum does not
overflow. If time has passed then one of them is at least `2 ^ -30`, a number of the format, below which rounding does
not bring it. -/
theorem inSeconds_bounds : d.inSeconds.isFinite ∧ 0 ≤ d.inSeconds.toRat ∧ d.inSeconds.toRat ≤ 2 ^ 65 ∧
    (0 < d.nanoseconds → 2 ^ (-30 : ℤ) ≤ d.inSeconds.toRat) := by
  obtain ⟨hseconds, hseconds₀, hseconds₁⟩ := d.seconds_bounds
  obtain ⟨hfraction, hfraction₀, hfraction₁⟩ := d.fraction_bounds
  have hsum := d.rounds_inSeconds
  obtain ⟨hfinite, hlow, hhigh⟩ := hsum.between (representable_zero _)
    (representable_double_two_pow (n := 65) (by decide)) (by positivity) (by
      have : (2 : ℚ) ^ 64 + 2 ^ 0 ≤ 2 ^ 65 := by norm_num
      linarith)
  refine ⟨hfinite, hlow, hhigh, fun hpos => hsum.le_toRat hfinite representable_double_nano ?_⟩
  rcases Nat.eq_zero_or_pos d.seconds with hzero | hwhole
  · have hsub : 1 ≤ d.subsecond := by
      have := Nat.div_add_mod d.nanoseconds nanosPerSecond
      unfold seconds at hzero
      unfold subsecond
      rw [hzero] at this
      omega
    have hnano : (2 : ℚ) ^ (-30 : ℤ) ≤ d.subsecond / nanosPerSecond := by
      have hcast : (1 : ℚ) ≤ d.subsecond := by exact_mod_cast hsub
      have hunit : (nanosPerSecond : ℚ) = 1000000000 := by norm_num [nanosPerSecond]
      rw [hunit]
      calc (2 : ℚ) ^ (-30 : ℤ) ≤ 1 / 1000000000 := by norm_num
        _ ≤ d.subsecond / 1000000000 := by gcongr
    have := d.rounds_fraction.le_toRat hfraction representable_double_nano hnano
    linarith
  · have hone : (2 : ℚ) ^ 0 ≤ d.seconds := by
      rw [pow_zero]
      exact_mod_cast hwhole
    have := (rounds_ofNat d.seconds).le_toRat hseconds (representable_double_two_pow (by decide)) hone
    have : (2 : ℚ) ^ (-30 : ℤ) ≤ 2 ^ 0 := by norm_num
    linarith

/-- Milliseconds are a thousand times the seconds, rounded. -/
lemma rounds_millis : d.millis.Rounds (d.inSeconds.toRat * 1000) := by
  have hunit := near_ofNat (n := 1000) (by decide)
  have hmul := rounds_mul d.inSeconds_bounds.1 hunit.isFinite
  rwa [hunit.toRat_eq] at hmul

/-- **Milliseconds are finite, and positive if any time passes.**

**Proof sketch.** Rounding keeps the bounds of the exact product, which are numbers of the format. -/
theorem millis_bounds : d.millis.isFinite ∧ 0 ≤ d.millis.toRat ∧
    (0 < d.nanoseconds → 0 < d.millis.toRat) := by
  obtain ⟨hseconds, hlow, hhigh, hpos⟩ := d.inSeconds_bounds
  have hmul := d.rounds_millis
  obtain ⟨hfinite, hnonneg, -⟩ := hmul.between (representable_zero _)
    (representable_double_two_pow (n := 75) (by decide)) (by positivity) (by
      calc d.inSeconds.toRat * 1000 ≤ 2 ^ 65 * 1000 := by gcongr
        _ ≤ 2 ^ 75 := by norm_num)
  refine ⟨hfinite, hnonneg, fun h => lt_of_lt_of_le (by positivity)
    (hmul.le_toRat hfinite representable_double_nano ?_)⟩
  calc (2 : ℚ) ^ (-30 : ℤ) ≤ d.inSeconds.toRat := hpos h
    _ ≤ d.inSeconds.toRat * 1000 := by linarith

end Duration

/-! ## Shares -/

/-- A sum of one term is the term, as a number. -/
private lemma near_sum_singleton {x : Binary64} (hx : x.isFinite) : (Binary.sum [x]).Near x.toRat 0 := by
  have hzero : (zero true : Binary64).Near 0 0 := near_zero true
  have hsum : (Binary.sum [x]).Rounds _ := rounds_add hzero.isFinite hx
  rw [hzero.toRat_eq, zero_add] at hsum
  exact hsum.near_of_representable (representable_toRat hx)

/-- **A tag that is alone in its group has all of the time**, unless no time has passed.

**Proof sketch.** The total of one term is the term. If it is not zero, the quotient is exactly one and the product
exactly a hundred. No time at all is a single case, which is computed. -/
theorem percentOf_only_tag (d : Duration) : percentOf d.millis (Binary.sum [d.millis]) =
    if 0 < d.nanoseconds then Binary.ofNat 100 else zero false := by
  obtain ⟨hmillis, hnonneg, hpos⟩ := d.millis_bounds
  have htotal := near_sum_singleton hmillis
  have hzero : (zero false : Binary64).Near 0 0 := near_zero false
  split_ifs with h
  · have hlt : (zero false).lt (Binary.sum [d.millis]) := by
      rw [lt_iff hzero.isFinite htotal.isFinite, hzero.toRat_eq, htotal.toRat_eq]
      exact hpos h
    have hne : d.millis.toRat ≠ 0 := (hpos h).ne'
    have hhundred := near_ofNat (n := 100) (by decide)
    have hone : double.Representable 1 := by
      have := representable_double_two_pow (n := 0) (by decide)
      rwa [pow_zero] at this
    have hdiv := rounds_div hmillis htotal.isFinite (htotal.toRat_eq ▸ hne)
    rw [htotal.toRat_eq, div_self hne] at hdiv
    have hquotient := hdiv.near_of_representable hone
    have hmul := rounds_mul hquotient.isFinite hhundred.isFinite
    rw [hquotient.toRat_eq, one_mul] at hmul
    have hshare := hmul.near_of_representable (representable_toRat hhundred.isFinite)
    rw [percentOf, if_pos hlt]
    refine eq_of_toRat_eq hshare.isFinite hhundred.isFinite hshare.toRat_eq ?_
    rw [hshare.toRat_eq, hhundred.toRat_eq]
    norm_num
  · obtain ⟨n, hn⟩ := d
    obtain rfl : n = 0 := Nat.eq_zero_of_not_pos h
    exact (by decide +kernel :
      percentOf Duration.zero.millis (Binary.sum [Duration.zero.millis]) = zero false)

end SparseDot.Timing
