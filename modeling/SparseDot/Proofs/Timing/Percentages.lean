import Mathlib.Algebra.BigOperators.Ring.List
import SparseDot.Proofs.Numeric.Accumulate
import SparseDot.Proofs.Timing.Figures

set_option autoImplicit false

/-!
# Shares add up to the whole

The shares of a group are rounded quotients of rounded milliseconds and a rounded total, so they need not add up to
a hundred. Three errors come together: every tag brings one rounding to the total, which is off by that part of
it; every share is rounded twice; and where a share underflows, next to nothing is lost. In a group with a time that
is not zero, of less than `2 ^ 50` tags, the sum of the shares is as close to a hundred as these roundings allow.

## Main results

* `SparseDot.Timing.abs_sum_millis_sub_le` — the error of a total.
* `SparseDot.Timing.IsPartOf.abs_percentOf_sub_le`, `SparseDot.Timing.abs_sum_percentOf_sub_le` — the error of a
  share, and of a sum of shares.
* `SparseDot.Timing.Aggregator.summary_shares_add_up` — the shares of a group add up to a hundred.
-/

namespace SparseDot.Timing

open Format Binary

/-- A rounding in double precision is off by at most one part in `2 ^ 53`. -/
lemma unitRoundoff_double : double.unitRoundoff = 2 ^ (-53 : ℤ) := rfl

/-- What a share can lose by underflow is next to nothing. -/
lemma underflowError_double_le : double.underflowError ≤ 2 ^ (-73 : ℤ) :=
  zpow_le_zpow_right₀ (by norm_num) (by decide)

/-! ## The error of a total -/

section Total

variable {times : List Duration}

/-- The roundings of a total, relative to it. -/
private lemma roundings_le (hlength : times.length < 2 ^ 50) : (times.length : ℚ) * 2 ^ (-53 : ℤ) ≤ 1 / 8 := by
  have hk : (times.length : ℚ) ≤ 2 ^ 50 := by exact_mod_cast hlength.le
  calc (times.length : ℚ) * 2 ^ (-53 : ℤ) ≤ 2 ^ 50 * 2 ^ (-53 : ℤ) := by gcongr
    _ = 1 / 8 := by norm_num

/-- The exact sum of milliseconds is not negative, and not more than that of as many longest times. -/
private lemma sum_toRat_millis_bounds (times : List Duration) :
    0 ≤ (times.map fun d => d.millis.toRat).sum ∧
      (times.map fun d => d.millis.toRat).sum ≤ times.length * 2 ^ 75 := by
  induction times with
  | nil => simp
  | cons d times ih =>
    obtain ⟨hlow, hhigh⟩ := ih
    simp only [List.map_cons, List.sum_cons, List.length_cons, Nat.cast_succ]
    constructor
    · linarith [d.millis_bounds.2.1]
    · linarith [d.millis_le]

/-- Twice the exact total is far from overflow. -/
private lemma headroom_double {M : ℚ} (hM₀ : 0 ≤ M) (hM : M ≤ 2 ^ 126) : Headroom double M := by
  refine ⟨hM₀, ?_⟩
  have hη := underflowError_double_le
  calc M + (double.unitRoundoff * M + double.underflowError) ≤ 2 ^ 128 := by
        rw [unitRoundoff_double]
        norm_num at hη hM ⊢
        linarith
    _ < double.overflowBound := lt_overflowBound_double (by decide)

/-- There is room for the exact total and an error of a seventh of it. -/
private lemma headroom_total (hlength : times.length < 2 ^ 50) :
    Headroom double (8 / 7 * (times.map fun d => d.millis.toRat).sum) := by
  obtain ⟨hS₀, hS⟩ := sum_toRat_millis_bounds times
  have hk : (times.length : ℚ) ≤ 2 ^ 50 := by exact_mod_cast hlength.le
  refine headroom_double (by positivity) ?_
  calc 8 / 7 * (times.map fun d => d.millis.toRat).sum ≤ 8 / 7 * (2 ^ 50 * 2 ^ 75) := by
        gcongr
        exact hS.trans (by gcongr)
    _ ≤ 2 ^ 126 := by norm_num

/-- The roundings of a total that has grown by a seventh take no more than that seventh. -/
private lemma roundings_total_le (hlength : times.length < 2 ^ 50) :
    (times.length : ℚ) * (double.unitRoundoff * (8 / 7 * (times.map fun d => d.millis.toRat).sum)) ≤
      1 / 7 * (times.map fun d => d.millis.toRat).sum := by
  have hS₀ := (sum_toRat_millis_bounds times).1
  have hpart := roundings_le hlength
  set S := (times.map fun d => d.millis.toRat).sum
  calc (times.length : ℚ) * (double.unitRoundoff * (8 / 7 * S))
      = times.length * 2 ^ (-53 : ℤ) * (8 / 7 * S) := by rw [unitRoundoff_double, mul_assoc]
    _ ≤ 1 / 8 * (8 / 7 * S) := by gcongr
    _ = 1 / 7 * S := by ring

/-- **The error of a total**: a rounding for each of its terms.

**Proof sketch.** Every addition is off by a rounding of what the total is by then, which is at most the exact sum and
a seventh of it. Together these roundings are less than that seventh, so that the total does not get further. -/
theorem abs_sum_millis_sub_le (hlength : times.length < 2 ^ 50) :
    |(Binary.sum (times.map Duration.millis)).toRat - (times.map fun d => d.millis.toRat).sum| ≤
      8 / 7 * (times.length * 2 ^ (-53 : ℤ)) * (times.map fun d => d.millis.toRat).sum := by
  have hroom := headroom_total hlength
  have hrounds := roundings_total_le hlength
  have hterms : ∀ t ∈ times.map Duration.millis, t.isFinite := by
    intro t ht
    obtain ⟨d, -, rfl⟩ := List.mem_map.mp ht
    exact d.millis_bounds.1
  have habs : ((times.map Duration.millis).map fun t => |t.toRat|).sum =
      (times.map fun d => d.millis.toRat).sum := by
    rw [List.map_map]
    congr 1
    exact List.map_congr_left fun d _ => abs_of_nonneg d.millis_bounds.2.1
  have hsum : ((times.map Duration.millis).map Binary.toRat).sum = (times.map fun d => d.millis.toRat).sum := by
    rw [List.map_map]
    rfl
  have hzero : (zero true : Binary64).Near 0 0 := near_zero true
  have htotal := near_foldl_add hroom hterms hzero (by
    rw [habs, List.length_map, abs_zero]
    linarith)
  rw [hsum, List.length_map, zero_add, zero_add, unitRoundoff_double] at htotal
  exact htotal.abs_sub_le.trans_eq (by ring)

end Total

/-! ## The error of shares -/

section Share

variable {millis total : Binary64}

/-- **The error of a share**: two roundings, and what underflows.

**Proof sketch.** The quotient is off by one rounding, which the product multiplies by a hundred and to which it adds a
rounding of its own, of a number that is a little more than a hundred times the quotient. -/
theorem IsPartOf.abs_percentOf_sub_le (h : IsPartOf millis total) (hpos : 0 < total.toRat) :
    |(percentOf millis total).toRat - 100 * (millis.toRat / total.toRat)| ≤
      225 * 2 ^ (-53 : ℤ) * (millis.toRat / total.toRat) + 102 * double.underflowError := by
  obtain ⟨-, hquotient₀, hquotient₁⟩ := h.div_bounds hpos
  have hη₀ := double.underflowError_pos
  have hη := underflowError_double_le
  have hpart₀ : 0 ≤ millis.toRat / total.toRat := div_nonneg h.nonneg hpos.le
  have hpart₁ : millis.toRat / total.toRat ≤ 1 := div_le_one_of_le₀ h.le_total hpos.le
  have hroom : ∀ q : ℚ, 0 ≤ q → q ≤ 100 →
      |q| + (double.unitRoundoff * |q| + double.underflowError) < double.overflowBound := by
    intro q hq₀ hq₁
    have hhundred := (headroom_double (M := 100) (by norm_num) (by norm_num)).lt_overflowBound
    rw [abs_of_nonneg hq₀]
    linarith [mul_le_mul_of_nonneg_left hq₁ double.unitRoundoff_pos.le]
  have hdiv := ((h.rounds_div hpos).near (hroom _ hpart₀ (by linarith))).abs_sub_le
  have hmul := ((h.rounds_percentOf hpos).near (hroom _ (by linarith) (by linarith))).abs_sub_le
  rw [abs_of_nonneg hpart₀] at hdiv
  rw [abs_of_nonneg (by linarith : 0 ≤ (millis / total).toRat * 100)] at hmul
  rw [unitRoundoff_double, abs_le] at hdiv hmul
  norm_num at hdiv hmul ⊢
  rw [abs_le]
  constructor <;> linarith

/-- Errors add up, where each is a part of a term and something else. -/
private lemma abs_sum_sub_mul_sum_le {α : Type} {l : List α} {f g : α → ℚ} {b c t : ℚ}
    (h : ∀ a ∈ l, |f a - c * g a| ≤ b * g a + t) :
    |(l.map f).sum - c * (l.map g).sum| ≤ b * (l.map g).sum + l.length * t := by
  induction l with
  | nil => simp
  | cons a l ih =>
    obtain ⟨ha, hl⟩ := List.forall_mem_cons.mp h
    simp only [List.map_cons, List.sum_cons, List.length_cons, Nat.cast_succ]
    rw [mul_add, add_sub_add_comm]
    exact (abs_add_le _ _).trans (by linarith [ih hl])

/-- **The error of a sum of shares**: that of each share. -/
theorem abs_sum_percentOf_sub_le {times : List Duration} (hparts : ∀ d ∈ times, IsPartOf d.millis total)
    (hpos : 0 < total.toRat) :
    |(times.map fun d => (percentOf d.millis total).toRat).sum -
        100 * ((times.map fun d => d.millis.toRat).sum / total.toRat)| ≤
      225 * 2 ^ (-53 : ℤ) * ((times.map fun d => d.millis.toRat).sum / total.toRat) +
        times.length * (102 * double.underflowError) := by
  have hdiv : (times.map fun d => d.millis.toRat).sum / total.toRat =
      (times.map fun d => d.millis.toRat / total.toRat).sum := by
    simp only [div_eq_mul_inv]
    exact (List.sum_map_mul_right ..).symm
  rw [hdiv]
  exact abs_sum_sub_mul_sum_le fun d hd => (hparts d hd).abs_percentOf_sub_le hpos

end Share

/-! ## The whole -/

section Whole

variable {times : List Duration} (hlength : times.length < 2 ^ 50)
include hlength

/-- **The exact sum and the total agree**: their ratio is off by the roundings of the total, so it is at most seven
sixths.

**Proof sketch.** The error of the total is at most a seventh of the exact sum, so that the exact sum is at most seven
sixths of the total. With that the error, divided by the total, is the one that is stated. -/
theorem sum_div_total_bounds (hpos : 0 < (Binary.sum (times.map Duration.millis)).toRat) :
    (times.map fun d => d.millis.toRat).sum / (Binary.sum (times.map Duration.millis)).toRat ≤ 7 / 6 ∧
      |(times.map fun d => d.millis.toRat).sum / (Binary.sum (times.map Duration.millis)).toRat - 1| ≤
        4 / 3 * (times.length * 2 ^ (-53 : ℤ)) := by
  have herror := abs_sum_millis_sub_le hlength
  have hS₀ := (sum_toRat_millis_bounds times).1
  set total := (Binary.sum (times.map Duration.millis)).toRat
  set S := (times.map fun d => d.millis.toRat).sum
  have hratio : S / total ≤ 7 / 6 := by
    have hpart : 8 / 7 * (times.length * 2 ^ (-53 : ℤ)) * S ≤ 1 / 7 * S := by
      refine mul_le_mul_of_nonneg_right ?_ hS₀
      linarith [roundings_le hlength]
    rw [div_le_iff₀ hpos]
    linarith [(abs_le.mp herror).1]
  refine ⟨hratio, ?_⟩
  calc |S / total - 1| = |total - S| / total := by
        rw [← div_self hpos.ne', ← sub_div, abs_div, abs_of_pos hpos, abs_sub_comm]
    _ ≤ 8 / 7 * (times.length * 2 ^ (-53 : ℤ)) * S / total := div_le_div_of_nonneg_right herror hpos.le
    _ = 8 / 7 * (times.length * 2 ^ (-53 : ℤ)) * (S / total) := mul_div_assoc ..
    _ ≤ 8 / 7 * (times.length * 2 ^ (-53 : ℤ)) * (7 / 6) := by gcongr
    _ = 4 / 3 * (times.length * 2 ^ (-53 : ℤ)) := by ring

/-- **The shares of some times add up to a hundred**, unless no time has passed.

**Proof sketch.** The error of the shares is bounded by the ratio of the exact sum and the total, and that ratio is
itself off from one by the roundings of the total. The bound leaves enough for both, and for what underflows, since
there is at least one time. -/
theorem abs_sum_percentOf_sub_hundred_le (hpassed : ∃ d ∈ times, d ≠ .zero) :
    |(times.map fun d => (percentOf d.millis (Binary.sum (times.map Duration.millis))).toRat).sum - 100| ≤
      100 * (times.length + 1) * 2 ^ (-52 : ℤ) := by
  have hne : (Binary.sum (times.map Duration.millis)).toRat ≠ 0 := by
    rw [Ne, sum_millis_eq_zero_iff]
    push Not
    exact hpassed
  have hpos := (sum_millis_bounds times).2.1.lt_of_ne hne.symm
  have hshares := abs_sum_percentOf_sub_le (fun d hd => isPartOf_sum_millis hd) hpos
  obtain ⟨hratio, hwhole⟩ := sum_div_total_bounds hlength hpos
  have hone : (1 : ℚ) ≤ times.length := by
    obtain ⟨d, hd, -⟩ := hpassed
    exact_mod_cast List.length_pos_of_mem hd
  have hunderflow : times.length * (102 * double.underflowError) ≤ times.length * (102 * 2 ^ (-73 : ℤ)) := by
    have := underflowError_double_le
    gcongr
  rw [abs_le] at hshares hwhole ⊢
  norm_num at hshares hwhole hunderflow ⊢
  constructor <;> linarith

end Whole

namespace GroupReport

variable (group : String) (sums : NameMap Duration)

/-- The shares of a group, in the order of its times. -/
private lemma map_percent_tags_ofSums : ((ofSums group sums).tags.map fun s => s.percent.toRat) =
    (times sums).map fun d =>
      (percentOf d.millis (Binary.sum ((times sums).map Duration.millis))).toRat := by
  rw [← totalMillis_ofSums group sums, times, List.map_map, ofSums, List.map_map]
  rfl

/-- A group has as many shares as times. -/
private lemma length_tags_ofSums : (ofSums group sums).tags.length = (times sums).length := by
  rw [ofSums, times, List.length_map, List.length_map]

end GroupReport

/-- **The shares of every group of a report add up to a hundred**, up to the roundings of the total and of the
shares: a group with `k` tags, of which one has a time that is not zero, has shares that are all numbers, and
their exact sum is off by at most `100 · (k + 1) · 2 ^ -52`.

**Proof sketch.** The shares of a group are those of its times, of which one is not zero. -/
theorem Aggregator.summary_shares_add_up (a : Aggregator) :
    ∀ r ∈ a.summary.groups, r.tags.length < 2 ^ 50 →
      (∃ tag d, a.snapshot.get? r.group tag = some d ∧ d ≠ .zero) →
      (∀ s ∈ r.tags, s.percent.isFinite) ∧
        |(r.tags.map fun s => s.percent.toRat).sum - 100| ≤ 100 * (r.tags.length + 1) * 2 ^ (-52 : ℤ) := by
  rintro r hr hlength ⟨tag, d, hd, hne⟩
  obtain ⟨sums, hsums, heq⟩ := Collector.mem_report_groups_iff.mp hr
  have horder := GroupReport.inOrder_ofSums r.group sums
  rw [← heq] at horder
  refine ⟨fun s hs => (horder.percent s hs).1, ?_⟩
  rw [Collector.get?, hsums, Option.bind_some] at hd
  rw [heq, GroupReport.length_tags_ofSums] at hlength
  rw [heq, GroupReport.map_percent_tags_ofSums, GroupReport.length_tags_ofSums]
  exact abs_sum_percentOf_sub_hundred_le hlength ⟨d, get?_mem_times hd, hne⟩

/-- Three thirds, none of which is a double precision number, and no time beside them. -/
theorem Aggregator.summary_shares_add_up_thirds :
    let third : Duration := ⟨1000000000, by decide⟩
    let sums := (((NameMap.empty.insert "a" third).insert "b" third).insert "c" third).insert "d" .zero
    let a : Aggregator := ⟨⟨NameMap.empty.insert "g" sums⟩, false⟩
    let r := GroupReport.ofSums "g" sums
    r ∈ a.summary.groups ∧ r.tags.length = 4 ∧ (∀ s ∈ r.tags, s.percent.isFinite) ∧
      |(r.tags.map fun s => s.percent.toRat).sum - 100| ≤ 100 * (4 + 1) * 2 ^ (-52 : ℤ) := by
  intro third sums a r
  have hr : r ∈ a.summary.groups := List.mem_singleton_self r
  have hlength : r.tags.length = 4 := by decide +kernel
  obtain ⟨hfinite, hsum⟩ := a.summary_shares_add_up r hr (by rw [hlength]; decide)
    ⟨"a", third, by decide +kernel, by decide⟩
  rw [hlength] at hsum
  exact ⟨hr, hlength, hfinite, hsum⟩

end SparseDot.Timing
