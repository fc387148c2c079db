import SparseDot.Proofs.Numeric.Monotone

set_option autoImplicit false

/-!
# Terms that get lost

The numbers of a format lie on a grid: those that are not small against a unit are whole multiples of it. So the
nearest value of a number is at least as near as any number of the format, and a number that is less than half a
unit above a number of the format is rounded to that. A term that is too small to be seen gets lost in a sum, and
a running total of such terms stops growing before it overflows, however many there are.

## Main results

* `SparseDot.Format.Representable.grid` — the grid that the numbers of a format lie on.
* `SparseDot.Binary.Rounds.abs_sub_le` — no number of the format is nearer than the nearest value.
* `SparseDot.Binary.Rounds.toRat_eq_of_absorbed` — a term below half a unit gets lost.
* `SparseDot.Binary.foldl_add_bounds` — a running total grows, and does not overflow.
-/

namespace SparseDot

namespace Format

variable {fmt : Format} [fmt.Valid] {x y : ℚ}

omit [fmt.Valid] in
/-- A format has the negative of every number that it has. -/
lemma Representable.neg (h : fmt.Representable x) : fmt.Representable (-x) := by
  rwa [Representable, abs_neg]

/-- A number with few bits in a unit is a multiple of a smaller unit. -/
private lemma exists_eq_mul_two_zpow {m : ℕ} {j e : ℤ} (hej : e ≤ j) (hx : |x| = m * 2 ^ j) :
    ∃ n : ℤ, x = n * 2 ^ e := by
  have hpow : (2 : ℚ) ^ j = 2 ^ (j - e).toNat * 2 ^ e := by
    rw [← zpow_natCast, ← zpow_add₀ (by norm_num)]
    congr 1
    omega
  rw [hpow, ← mul_assoc] at hx
  rcases abs_choice x with hpos | hneg
  · exact ⟨(m * 2 ^ (j - e).toNat : ℕ), by rw [← hpos, hx]; push_cast; rfl⟩
  · refine ⟨-(m * 2 ^ (j - e).toNat : ℕ), ?_⟩
    rw [← neg_eq_iff_eq_neg.mpr hneg, hx]
    push_cast
    ring

omit [fmt.Valid] in
/-- **The grid of a format.** A number of the format is a whole multiple of a unit, or it has less than
`precision` bits in it.

**Proof sketch.** If the last bit of the number is not below the unit then it is a whole multiple of it. Else its
coefficient, which has at most `precision` bits, counts a smaller unit. -/
theorem Representable.grid (hx : fmt.Representable x) (e : ℤ) :
    (∃ n : ℤ, x = n * 2 ^ e) ∨ |x| < 2 ^ (e + fmt.precision - 1) := by
  obtain ⟨-, m, j, hm, -, habs⟩ := hx
  rcases le_or_gt e j with hej | hje
  · exact .inl (exists_eq_mul_two_zpow hej habs)
  · right
    have hm' : (m : ℚ) < 2 ^ fmt.precision := by exact_mod_cast hm
    calc |x| = m * 2 ^ j := habs
      _ < 2 ^ fmt.precision * 2 ^ j := by gcongr
      _ = 2 ^ (fmt.precision + j : ℤ) := by rw [zpow_add₀ (by norm_num), zpow_natCast]
      _ ≤ 2 ^ (e + fmt.precision - 1) := zpow_le_zpow_right₀ (by norm_num) (by omega)

omit [fmt.Valid] in
/-- Every number of the format is a whole multiple of the subnormal unit. -/
private lemma Representable.exists_eq_mul_minExponent (hx : fmt.Representable x) :
    ∃ n : ℤ, x = n * 2 ^ fmt.minExponent := by
  obtain ⟨-, m, j, -, hj, habs⟩ := hx
  exact exists_eq_mul_two_zpow hj habs

/-- Multiples of a unit that are closer than the unit are equal. -/
private lemma eq_of_abs_sub_lt_unit {m n e : ℤ} (h : |m * (2 : ℚ) ^ e - n * 2 ^ e| < 2 ^ e) : m = n := by
  have hunit : (0 : ℚ) < 2 ^ e := by positivity
  rw [← sub_mul, abs_mul, abs_of_pos hunit, mul_lt_iff_lt_one_left hunit] at h
  have hlt : |m - n| < 1 := by exact_mod_cast h
  exact sub_eq_zero.mp (Int.abs_lt_one_iff.mp hlt)

omit [fmt.Valid] in
/-- **Large numbers of a format that are close are equal.**

**Proof sketch.** Both numbers are too large to have all of their bits below the unit, so both are whole multiples of
it, and multiples closer than the unit are equal. -/
theorem Representable.eq_of_abs_sub_lt (hx : fmt.Representable x) (hy : fmt.Representable y) {e : ℤ}
    (hxe : 2 ^ (e + fmt.precision - 1) ≤ |x|) (hye : 2 ^ (e + fmt.precision - 1) ≤ |y|)
    (h : |x - y| < 2 ^ e) : x = y := by
  obtain ⟨m, rfl⟩ := (hx.grid e).resolve_right hxe.not_gt
  obtain ⟨n, rfl⟩ := (hy.grid e).resolve_right hye.not_gt
  rw [eq_of_abs_sub_lt_unit h]

/-- **The counted number is nearest.** No number of the format is nearer to `x` than the count of units.

**Proof sketch.** Among the multiples of the unit the count is nearest. A number of the format that is none of
them lies below the binade, and the first number of the binade is a multiple that is between it and `x`. -/
theorem abs_count_sub_le {k c : ℕ} (h : fmt.Counted x k c) (hy : fmt.Representable y) :
    |c * (2 : ℚ) ^ (fmt.minExponent + k) - x| ≤ |y - x| := by
  have hmultiple : ∀ n : ℤ,
      |c * (2 : ℚ) ^ (fmt.minExponent + k) - x| ≤ |n * (2 : ℚ) ^ (fmt.minExponent + k) - x| := by
    intro n
    by_contra hlt
    have hclose : |((c : ℤ) : ℚ) * 2 ^ (fmt.minExponent + k) - n * 2 ^ (fmt.minExponent + k)| <
        2 ^ (fmt.minExponent + k) := by
      have htriangle := abs_sub_le ((c : ℚ) * 2 ^ (fmt.minExponent + k)) x (n * 2 ^ (fmt.minExponent + k))
      rw [abs_sub_comm x] at htriangle
      rw [Int.cast_natCast]
      linarith [h.abs_sub_le]
    have heq := eq_of_abs_sub_lt_unit hclose
    rw [← heq, Int.cast_natCast] at hlt
    exact hlt le_rfl
  rcases hy.grid (fmt.minExponent + k) with ⟨n, rfl⟩ | hsmall
  · exact hmultiple n
  rcases h.binade_le with rfl | hbinade
  · obtain ⟨n, rfl⟩ := hy.exists_eq_mul_minExponent
    simpa using hmultiple n
  · have hfirst : ((2 ^ (fmt.precision - 1) : ℕ) : ℤ) * (2 : ℚ) ^ (fmt.minExponent + k) =
        2 ^ (fmt.minExponent + k + fmt.precision - 1) := by
      have hp : 0 < fmt.precision := Valid.precision_pos
      push_cast
      rw [← zpow_natCast, ← zpow_add₀ (by norm_num)]
      congr 1
      omega
    have hbetween := hmultiple (2 ^ (fmt.precision - 1) : ℕ)
    rw [hfirst, abs_sub_comm (2 ^ _) x, abs_of_nonneg (sub_nonneg.mpr hbinade)] at hbetween
    rw [abs_sub_comm y]
    linarith [le_abs_self (x - y), le_abs_self y]

end Format

namespace Binary

open Format

variable {fmt : Format} [fmt.Valid] {x y acc : Binary fmt} {q r : ℚ}

/-! ## The nearest value -/

/-- **No number of the format is nearer than the nearest value**, unless that overflows.

**Proof sketch.** The rank of the nearest value comes from the nearest count of units, which is nearest among all
numbers of the format. The sign goes to both distances. -/
theorem Rounds.abs_sub_le (hx : x.Rounds q) (hxf : x.isFinite) (hr : fmt.Representable r) :
    |x.toRat - q| ≤ |r - q| := by
  obtain ⟨s, num, den, e, hden, rfl, rfl⟩ := hx
  have hrank : fmt.nearestRank num den e < fmt.infinityRank := by
    by_contra h
    rw [nearest, ofRank, dif_neg h] at hxf
    cases hxf
  have hnearest : ∀ {r : ℚ}, fmt.Representable r →
      |fmt.rankValue (fmt.nearestRank num den e) - num / den * 2 ^ e| ≤ |r - num / den * 2 ^ e| := by
    intro r hr
    rcases Nat.eq_zero_or_pos num with rfl | hnum
    · simp
    · obtain ⟨k, c, heq, hcount⟩ := counted_nearestRank fmt e hnum hden
      rw [heq, rankValue_shift_add hcount.count_le hcount.leading_le]
      exact abs_count_sub_le hcount hr
  rw [nearest, ofRank, dif_pos hrank, toRat_finite]
  cases s with
  | false => exact hnearest hr
  | true =>
    have h := hnearest hr.neg
    rwa [← abs_neg, ← abs_neg (-r - _), neg_sub', neg_sub', neg_neg] at h

/-- **A term below half a unit gets lost**: a number of the format is what is left.

**Proof sketch.** The value is at least the number and no further from the exact one than that number is. So the two
are closer than one unit, and both are large enough to be multiples of it. -/
theorem Rounds.toRat_eq_of_absorbed (hx : x.Rounds q) (hxf : x.isFinite) (hr : fmt.Representable r) {e : ℤ}
    (hre : 2 ^ (e + fmt.precision - 1) ≤ r) (hrq : r ≤ q) (hclose : q - r < 2 ^ e / 2) : x.toRat = r := by
  have hnear := hx.abs_sub_le hxf hr
  rw [abs_sub_comm r, abs_of_nonneg (sub_nonneg.mpr hrq)] at hnear
  have hrx : r ≤ x.toRat := hx.le_toRat hxf hr hrq
  have habs : |x.toRat - r| < 2 ^ e := by
    rw [abs_of_nonneg (sub_nonneg.mpr hrx)]
    linarith [(abs_le.mp hnear).2]
  exact (representable_toRat hxf).eq_of_abs_sub_lt hr ((hre.trans hrx).trans (le_abs_self _))
    (hre.trans (le_abs_self _)) habs

/-! ## Running totals -/

section Total

variable {e : ℤ} (htop : fmt.Representable (2 ^ (e + fmt.precision - 1)))
  (hroom : fmt.Representable (2 ^ (e + fmt.precision)))
include htop hroom

/-- **One more term.** The total does not get smaller than it was, nor smaller than the term, and at the top it
does not get larger.

**Proof sketch.** The exact sum is at most twice the top, where there is room, so it does not overflow. It is at least
each of its terms, and rounding keeps that. Past the top it is closer than half a unit to it, so the term gets lost. -/
theorem add_bounds (hacc : acc.isFinite) (hx : x.isFinite) (hacc₀ : 0 ≤ acc.toRat) (hx₀ : 0 ≤ x.toRat)
    (hacc₁ : acc.toRat ≤ 2 ^ (e + fmt.precision - 1)) (hx₁ : x.toRat < 2 ^ e / 2) :
    (acc + x).isFinite ∧ acc.toRat ≤ (acc + x).toRat ∧ x.toRat ≤ (acc + x).toRat ∧
      (acc + x).toRat ≤ 2 ^ (e + fmt.precision - 1) := by
  have hround := rounds_add hacc hx
  have hp : 0 < fmt.precision := Valid.precision_pos
  have hunit : (2 : ℚ) ^ e ≤ 2 ^ (e + fmt.precision - 1) := zpow_le_zpow_right₀ (by norm_num) (by omega)
  have htwice : (2 : ℚ) ^ (e + fmt.precision) = 2 * 2 ^ (e + fmt.precision - 1) := by
    rw [← zpow_one_add₀ (by norm_num), add_sub_cancel]
  have hfinite : (acc + x).isFinite :=
    hround.isFinite_of_between (representable_zero _) hroom (by positivity) (by linarith)
  refine ⟨hfinite, hround.le_toRat hfinite (representable_toRat hacc) (by linarith),
    hround.le_toRat hfinite (representable_toRat hx) (by linarith), ?_⟩
  rcases le_or_gt (acc.toRat + x.toRat) (2 ^ (e + fmt.precision - 1)) with hle | hgt
  · exact hround.toRat_le hfinite htop hle
  · exact (hround.toRat_eq_of_absorbed hfinite htop le_rfl hgt.le (by linarith)).le

/-- **A running total of non-negative terms grows and does not overflow**, however many terms there are, as long
as each of them gets lost at the top.

**Proof sketch.** Induction on the terms. After each of them the total is between what it was and the top, so the next
one finds the same bounds. -/
theorem foldl_add_bounds {terms : List (Binary fmt)}
    (hterms : ∀ t ∈ terms, t.isFinite ∧ 0 ≤ t.toRat ∧ t.toRat < 2 ^ e / 2) (hacc : acc.isFinite)
    (hacc₀ : 0 ≤ acc.toRat) (hacc₁ : acc.toRat ≤ 2 ^ (e + fmt.precision - 1)) :
    (terms.foldl add acc).isFinite ∧ acc.toRat ≤ (terms.foldl add acc).toRat ∧
      ∀ t ∈ terms, t.toRat ≤ (terms.foldl add acc).toRat := by
  induction terms generalizing acc with
  | nil => exact ⟨hacc, le_rfl, fun t ht => absurd ht List.not_mem_nil⟩
  | cons t terms ih =>
    obtain ⟨⟨ht, ht₀, ht₁⟩, hrest⟩ := List.forall_mem_cons.mp hterms
    obtain ⟨hfinite, hle, hterm, htop'⟩ := add_bounds htop hroom hacc ht hacc₀ ht₀ hacc₁ ht₁
    obtain ⟨htotal, hgrows, hall⟩ := ih hrest hfinite (hacc₀.trans hle) htop'
    refine ⟨htotal, hle.trans hgrows, fun u hu => ?_⟩
    rcases List.mem_cons.mp hu with rfl | hu
    · exact hterm.trans hgrows
    · exact hall u hu

end Total

/-- A running total of zeros stays where it was.

**Proof sketch.** Induction on the terms. The exact sum with a zero is the total itself, a number of the format, which
is not rounded. -/
lemma foldl_add_of_zero {terms : List (Binary fmt)} (hterms : ∀ t ∈ terms, t.Near 0 0) (hacc : acc.Near q 0) :
    (terms.foldl add acc).Near q 0 := by
  induction terms generalizing acc with
  | nil => exact hacc
  | cons t terms ih =>
    obtain ⟨ht, hrest⟩ := List.forall_mem_cons.mp hterms
    refine ih hrest ?_
    have hround := rounds_add hacc.isFinite ht.isFinite
    rw [ht.toRat_eq, add_zero] at hround
    have hnear := hround.near_of_representable (representable_toRat hacc.isFinite)
    rwa [hacc.toRat_eq] at hnear

end Binary

end SparseDot
