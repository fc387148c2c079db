import SparseDot.Proofs.Timing.Milliseconds
import SparseDot.Proofs.Timing.Sums

set_option autoImplicit false

/-!
# The figures of a report

A report gives milliseconds and shares, which are computed in double precision from times of any length, and a
group may have any number of tags. Its figures are in order all the same. The total of a group does not overflow:
it is a running total of non-negative terms, which get lost in it long before it is as large as that. It is at
least each of its terms, and rounding keeps order, so that no share is more than the whole.

## Main definitions

* `SparseDot.Timing.IsPartOf` — a time that is part of a total.
* `SparseDot.Timing.GroupReport.InOrder` — the figures of a group are in order.

## Main results

* `SparseDot.Timing.isPartOf_sum_millis` — every time is part of the total.
* `SparseDot.Timing.IsPartOf.percentOf_bounds`, `SparseDot.Timing.IsPartOf.percentOf_le_percentOf` — the share of
  a part.
* `SparseDot.Timing.Collector.mem_report_groups_iff`, `SparseDot.Timing.GroupReport.mem_tags_ofSums_iff` — what a
  report lists.
* `SparseDot.Timing.Aggregator.summary_inOrder` — the figures of every report are in order.
-/

namespace SparseDot.Timing

open Format Binary

/-! ## Totals -/

section Total

variable (times : List Duration)

/-- A total of milliseconds of any number of times, with what it is at least.

**Proof sketch.** Every term is less than `2 ^ 75`. A running total that has come as far as `2 ^ 129` does not grow any
more, as these terms get lost in it, so it never overflows. -/
lemma sum_millis_bounds :
    (Binary.sum (times.map Duration.millis)).isFinite ∧ 0 ≤ (Binary.sum (times.map Duration.millis)).toRat ∧
      ∀ d ∈ times, d.millis.toRat ≤ (Binary.sum (times.map Duration.millis)).toRat := by
  have hzero : (zero true : Binary64).Near 0 0 := near_zero true
  have htop : double.Representable (2 ^ ((77 : ℤ) + double.precision - 1)) :=
    representable_double_two_pow (n := 129) (by decide)
  have hroom : double.Representable (2 ^ ((77 : ℤ) + double.precision)) :=
    representable_double_two_pow (n := 130) (by decide)
  have hterms : ∀ t ∈ times.map Duration.millis, t.isFinite ∧ 0 ≤ t.toRat ∧ t.toRat < 2 ^ (77 : ℤ) / 2 := by
    intro t ht
    obtain ⟨d, -, rfl⟩ := List.mem_map.mp ht
    obtain ⟨hfinite, hnonneg, -⟩ := d.millis_bounds
    exact ⟨hfinite, hnonneg, d.millis_le.trans_lt (by norm_num)⟩
  obtain ⟨hfinite, hgrows, hall⟩ := foldl_add_bounds htop hroom hterms hzero.isFinite hzero.toRat_eq.ge
    (hzero.toRat_eq.trans_le (by positivity))
  rw [hzero.toRat_eq] at hgrows
  exact ⟨hfinite, hgrows, fun d hd => hall _ (List.mem_map_of_mem hd)⟩

/-- **The total is zero exactly if no time has passed.**

**Proof sketch.** The total is at least each of its terms, and the milliseconds of a time that is not zero are not
zero. The other way round, zeros add up to zero. -/
theorem sum_millis_eq_zero_iff :
    (Binary.sum (times.map Duration.millis)).toRat = 0 ↔ ∀ d ∈ times, d = .zero := by
  constructor
  · intro hzero d hd
    have hle := (sum_millis_bounds times).2.2 d hd
    by_contra hne
    have hpos : 0 < d.nanoseconds := Nat.pos_of_ne_zero fun h => hne (Duration.nanoseconds_injective h)
    linarith [d.millis_bounds.2.2 hpos]
  · intro hall
    refine (foldl_add_of_zero (fun t ht => ?_) (near_zero true)).toRat_eq
    obtain ⟨d, hd, rfl⟩ := List.mem_map.mp ht
    rw [hall d hd]
    exact Duration.near_millis_zero

end Total

/-! ## Shares of a total -/

/-- **A time that is part of a total**, both in milliseconds. -/
structure IsPartOf (millis total : Binary64) : Prop where
  isFinite : millis.isFinite
  total_isFinite : total.isFinite
  nonneg : 0 ≤ millis.toRat
  le_total : millis.toRat ≤ total.toRat

/-- **Every time is part of the total.** -/
theorem isPartOf_sum_millis {times : List Duration} {d : Duration} (hd : d ∈ times) :
    IsPartOf d.millis (Binary.sum (times.map Duration.millis)) := by
  obtain ⟨hfinite, hnonneg, -⟩ := d.millis_bounds
  obtain ⟨htotal, -, hle⟩ := sum_millis_bounds times
  exact ⟨hfinite, htotal, hnonneg, hle d hd⟩

section Share

variable {millis other total : Binary64}

/-- In a group without any time all shares are zero. -/
private lemma percentOf_of_toRat_eq_zero (htotal : total.isFinite) (hzero : total.toRat = 0) :
    percentOf millis total = zero false := by
  have hnear : (zero false : Binary64).Near 0 0 := near_zero false
  refine if_neg fun hlt => ?_
  rw [lt_iff hnear.isFinite htotal, hnear.toRat_eq, hzero] at hlt
  exact lt_irrefl _ hlt

/-- Otherwise a share is a quotient, in percent. -/
private lemma percentOf_of_pos (htotal : total.isFinite) (hpos : 0 < total.toRat) :
    percentOf millis total = millis / total * Binary.ofNat 100 := by
  have hnear : (zero false : Binary64).Near 0 0 := near_zero false
  refine if_pos ?_
  rwa [lt_iff hnear.isFinite htotal, hnear.toRat_eq]

namespace IsPartOf

/-- The quotient of a part and its total is rounded once. -/
lemma rounds_div (h : IsPartOf millis total) (hpos : 0 < total.toRat) :
    (millis / total).Rounds (millis.toRat / total.toRat) :=
  Binary.rounds_div h.isFinite h.total_isFinite hpos.ne'

/-- The quotient of a part and its total is at most one. -/
lemma div_bounds (h : IsPartOf millis total) (hpos : 0 < total.toRat) :
    (millis / total).isFinite ∧ 0 ≤ (millis / total).toRat ∧ (millis / total).toRat ≤ 1 := by
  have hquotient := (h.rounds_div hpos).between (representable_zero _)
    (representable_double_two_pow (n := 0) (by decide)) (div_nonneg h.nonneg hpos.le) (by
      rw [pow_zero]
      exact div_le_one_of_le₀ h.le_total hpos.le)
  rwa [pow_zero] at hquotient

/-- The share of a part is a hundred times the quotient, rounded. -/
lemma rounds_percentOf (h : IsPartOf millis total) (hpos : 0 < total.toRat) :
    (percentOf millis total).Rounds ((millis / total).toRat * 100) := by
  have hhundred := near_ofNat (n := 100) (by decide)
  have hmul := rounds_mul (h.div_bounds hpos).1 hhundred.isFinite
  rw [hhundred.toRat_eq, ← percentOf_of_pos h.total_isFinite hpos] at hmul
  exact hmul

/-- A total with a part is not negative. -/
private lemma total_nonneg (h : IsPartOf millis total) : 0 ≤ total.toRat := h.nonneg.trans h.le_total

/-- **The share of a part is between nothing and the whole.**

**Proof sketch.** The quotient is between zero and one, and rounding keeps this, as it then keeps that a hundred times
the quotient is between zero and a hundred. If the total is zero then the share is zero by definition. -/
theorem percentOf_bounds (h : IsPartOf millis total) : (percentOf millis total).isFinite ∧
    0 ≤ (percentOf millis total).toRat ∧ (percentOf millis total).toRat ≤ 100 := by
  rcases h.total_nonneg.lt_or_eq with hpos | hzero
  · obtain ⟨-, hlow, hhigh⟩ := h.div_bounds hpos
    have hhundred : double.Representable (100 : ℤ) := representable_double (by norm_num)
    exact (h.rounds_percentOf hpos).between (representable_zero _) hhundred (by positivity)
      (by linarith)
  · have hnear : (zero false : Binary64).Near 0 0 := near_zero false
    rw [percentOf_of_toRat_eq_zero h.total_isFinite hzero.symm]
    exact ⟨hnear.isFinite, hnear.toRat_eq.ge, hnear.toRat_eq.trans_le (by norm_num)⟩

/-- **A longer part has a share that is at least as large.**

**Proof sketch.** The two shares are computed with the same total, in a quotient and a product, each of which is
rounded, and rounding keeps order. -/
theorem percentOf_le_percentOf (h : IsPartOf millis total) (h' : IsPartOf other total)
    (hle : millis.toRat ≤ other.toRat) : (percentOf millis total).toRat ≤ (percentOf other total).toRat := by
  rcases h.total_nonneg.lt_or_eq with hpos | hzero
  · have hquotient : (millis / total).toRat ≤ (other / total).toRat :=
      (h.rounds_div hpos).toRat_le_toRat (h'.rounds_div hpos) (h.div_bounds hpos).1 (h'.div_bounds hpos).1
        (div_le_div_of_nonneg_right hle hpos.le)
    exact (h.rounds_percentOf hpos).toRat_le_toRat (h'.rounds_percentOf hpos) h.percentOf_bounds.1
      h'.percentOf_bounds.1 (mul_le_mul_of_nonneg_right hquotient (by norm_num))
  · rw [percentOf_of_toRat_eq_zero h.total_isFinite hzero.symm,
      percentOf_of_toRat_eq_zero h.total_isFinite hzero.symm]

end IsPartOf

end Share

/-! ## What a report lists -/

/-- The times of a map, in the order of their names. -/
def times (sums : NameMap Duration) : List Duration := sums.entries.map (·.2)

/-- A time that is looked up is one of the times of the map. -/
lemma get?_mem_times {sums : NameMap Duration} {tag : String} {d : Duration} (h : sums.get? tag = some d) :
    d ∈ times sums :=
  List.mem_map_of_mem (sums.get?_eq_some_iff.mp h)

/-- The times of a map are those that are looked up. -/
private lemma mem_times_iff {sums : NameMap Duration} {d : Duration} :
    d ∈ times sums ↔ ∃ tag, sums.get? tag = some d := by
  simp [times, NameMap.get?_eq_some_iff]

namespace GroupReport

variable {group : String} {sums : NameMap Duration} {s : TagShare}

/-- The total of a group is that of its times. -/
lemma totalMillis_ofSums (group : String) (sums : NameMap Duration) :
    (ofSums group sums).totalMillis = Binary.sum ((times sums).map Duration.millis) := by
  rw [times, List.map_map]
  rfl

/-- **A group has a share for every time**, and no others. -/
theorem mem_tags_ofSums_iff : s ∈ (ofSums group sums).tags ↔ ∃ d, sums.get? s.tag = some d ∧
    s.millis = d.millis ∧ s.percent = percentOf d.millis (ofSums group sums).totalMillis := by
  obtain ⟨tag, millis, percent⟩ := s
  simp only [ofSums, List.mem_map, Prod.exists, TagShare.mk.injEq, NameMap.get?_eq_some_iff]
  constructor
  · rintro ⟨_, d, hmem, rfl, rfl, rfl⟩
    exact ⟨d, hmem, rfl, rfl⟩
  · rintro ⟨d, hmem, rfl, rfl⟩
    exact ⟨tag, d, hmem, rfl, rfl, rfl⟩

/-- A time of a group is part of its total. -/
private lemma isPartOf_totalMillis {tag : String} {d : Duration} (h : sums.get? tag = some d) :
    IsPartOf d.millis (ofSums group sums).totalMillis := by
  rw [totalMillis_ofSums]
  exact isPartOf_sum_millis (get?_mem_times h)

end GroupReport

/-- **A report has a group for every group of the collector**, and no others. -/
theorem Collector.mem_report_groups_iff {c : Collector} {r : GroupReport} :
    r ∈ c.report.groups ↔ ∃ sums, c.groups.get? r.group = some sums ∧ r = GroupReport.ofSums r.group sums := by
  simp only [report, List.mem_map, Prod.exists, NameMap.get?_eq_some_iff]
  constructor
  · rintro ⟨group, sums, hmem, rfl⟩
    exact ⟨sums, hmem, rfl⟩
  · rintro ⟨sums, hmem, heq⟩
    exact ⟨r.group, sums, hmem, heq.symm⟩

/-! ## The figures are in order -/

/-- **The figures of a group are in order**, where the times of its tags are given. -/
structure GroupReport.InOrder (r : GroupReport) (timeOf : String → Option Duration) : Prop where
  /-- The total is a number that is not negative. -/
  total : r.totalMillis.isFinite ∧ 0 ≤ r.totalMillis.toRat
  /-- The tags are those with a time. -/
  mem_tags : ∀ tag, tag ∈ r.tags.map TagShare.tag ↔ ∃ d, timeOf tag = some d
  /-- Milliseconds are numbers between zero and the total. -/
  millis : ∀ s ∈ r.tags, s.millis.isFinite ∧ 0 ≤ s.millis.toRat ∧ s.millis.toRat ≤ r.totalMillis.toRat
  /-- Shares are numbers between zero and a hundred. -/
  percent : ∀ s ∈ r.tags, s.percent.isFinite ∧ 0 ≤ s.percent.toRat ∧ s.percent.toRat ≤ 100
  /-- The total is zero exactly if no time has passed. -/
  total_eq_zero : r.totalMillis.toRat = 0 ↔ ∀ tag d, timeOf tag = some d → d = .zero
  /-- Then all shares are zero. -/
  percent_eq_zero : r.totalMillis.toRat = 0 → ∀ s ∈ r.tags, s.percent.toRat = 0
  /-- A longer time has at least as many milliseconds, and a share that is at least as large. -/
  le_of_le : ∀ s ∈ r.tags, ∀ t ∈ r.tags, ∀ d e, timeOf s.tag = some d → timeOf t.tag = some e →
    d.nanoseconds ≤ e.nanoseconds → s.millis.toRat ≤ t.millis.toRat ∧ s.percent.toRat ≤ t.percent.toRat

/-- **The figures of a group are in order.** -/
theorem GroupReport.inOrder_ofSums (group : String) (sums : NameMap Duration) :
    (ofSums group sums).InOrder sums.get? where
  total := by
    rw [totalMillis_ofSums]
    exact ⟨(sum_millis_bounds _).1, (sum_millis_bounds _).2.1⟩
  mem_tags tag := by
    simp only [List.mem_map, mem_tags_ofSums_iff]
    constructor
    · rintro ⟨s, ⟨d, hd, -⟩, rfl⟩
      exact ⟨d, hd⟩
    · rintro ⟨d, hd⟩
      exact ⟨⟨tag, d.millis, percentOf d.millis (ofSums group sums).totalMillis⟩, ⟨d, hd, rfl, rfl⟩, rfl⟩
  millis s hs := by
    obtain ⟨d, hd, hmillis, -⟩ := mem_tags_ofSums_iff.mp hs
    have hpart : IsPartOf d.millis (ofSums group sums).totalMillis := isPartOf_totalMillis hd
    rw [hmillis]
    exact ⟨hpart.isFinite, hpart.nonneg, hpart.le_total⟩
  percent s hs := by
    obtain ⟨d, hd, -, hpercent⟩ := mem_tags_ofSums_iff.mp hs
    rw [hpercent]
    exact (isPartOf_totalMillis hd).percentOf_bounds
  total_eq_zero := by
    rw [totalMillis_ofSums, sum_millis_eq_zero_iff]
    simp only [mem_times_iff, forall_exists_index]
    exact forall_comm
  percent_eq_zero hzero s hs := by
    obtain ⟨d, hd, -, hpercent⟩ := mem_tags_ofSums_iff.mp hs
    rw [hpercent, percentOf_of_toRat_eq_zero (isPartOf_totalMillis hd).total_isFinite hzero]
    exact (near_zero false).toRat_eq
  le_of_le s hs t ht d e hd he hle := by
    obtain ⟨d', hd', hmillis, hpercent⟩ := mem_tags_ofSums_iff.mp hs
    obtain ⟨e', he', hmillis', hpercent'⟩ := mem_tags_ofSums_iff.mp ht
    obtain rfl : d' = d := Option.some.inj (hd'.symm.trans hd)
    obtain rfl : e' = e := Option.some.inj (he'.symm.trans he)
    have hmono := Duration.millis_le_millis hle
    rw [hmillis, hmillis', hpercent, hpercent']
    exact ⟨hmono, (isPartOf_totalMillis hd).percentOf_le_percentOf (isPartOf_totalMillis he) hmono⟩

/-- **The figures of every report are in order**, whatever groups, tags and times an aggregator has. In every
group the total is a finite number and at least the milliseconds of every tag, which are at least zero; shares are
finite numbers between zero and a hundred; the total is zero exactly if no time of the group has passed, and then
so are all shares; and a longer time has at least as many milliseconds and at least as large a share. -/
theorem Aggregator.summary_inOrder (a : Aggregator) :
    ∀ r ∈ a.summary.groups, r.InOrder fun tag => a.snapshot.get? r.group tag := by
  intro r hr
  obtain ⟨sums, hsums, heq⟩ := Collector.mem_report_groups_iff.mp hr
  have hget : (fun tag => a.snapshot.get? r.group tag) = sums.get? := by
    funext tag
    rw [Collector.get?, hsums, Option.bind_some]
  rw [hget, heq]
  exact GroupReport.inOrder_ofSums r.group sums

/-- Three times: one nanosecond less than a second, a second, and the longest time there is, in which the other two
get lost. The total is that of the longest one, which has all of the group as its share, but the other two have a
share that is not zero. -/
theorem Aggregator.summary_inOrder_longest_time :
    let almost : Duration := ⟨999999999, by decide⟩
    let second : Duration := ⟨1000000000, by decide⟩
    let longest : Duration := ⟨Duration.limit - 1, by decide⟩
    let sums := ((NameMap.empty.insert "a" almost).insert "b" second).insert "c" longest
    let a : Aggregator := ⟨⟨NameMap.empty.insert "g" sums⟩, true⟩
    let r := GroupReport.ofSums "g" sums
    r ∈ a.summary.groups ∧ (r.InOrder fun tag => a.snapshot.get? "g" tag) ∧
      r.tags.map (fun s => (s.tag, s.millis.toRat, s.percent.toRat)) =
        [("a", 8796093013411907 / 2 ^ 43, 3518437205364763 / 2 ^ 109), ("b", 1000, 25 / 2 ^ 62),
          ("c", 1000 * 2 ^ 64, 100)] ∧
      r.totalMillis.toRat = 1000 * 2 ^ 64 := by
  intro almost second longest sums a r
  have hr : r ∈ a.summary.groups := List.mem_singleton_self r
  exact ⟨hr, a.summary_inOrder r hr, by decide +kernel, by decide +kernel⟩

end SparseDot.Timing
