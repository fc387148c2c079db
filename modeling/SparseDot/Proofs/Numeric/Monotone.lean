import SparseDot.Proofs.Numeric.Order
import SparseDot.Proofs.Numeric.Quotient

set_option autoImplicit false

/-!
# Rounding keeps the order

A larger number is never rounded to a smaller value. For the two positive numbers of a comparison this has two
cases: in the same binade their counts are compared, and in different binades already the first count of the
higher one is at least every count of the lower one. Signs are put on afterwards. It follows that a number
between two values of a format is rounded to a value between them, without overflow.

## Main results

* `SparseDot.roundDiv_le_roundDiv` — the nearest integer grows with the quotient.
* `SparseDot.Format.nearestRank_le_nearestRank` — the nearest rank grows with the number.
* `SparseDot.Binary.Rounds.le` — the nearest value grows with the number.
* `SparseDot.Binary.Rounds.between` — a number between two numbers of the format is rounded to a value between
  them.
* `SparseDot.Binary.nearestInt_le_nearestInt` — the nearest integer grows with the value.
-/

namespace SparseDot

/-! ## Nearest integers -/

variable {tie : Tie} {num den num' den' : ℕ} {e e' : ℤ}

/-- A common factor of numerator and denominator does not matter. -/
private lemma roundDiv_mul_mul_right (tie : Tie) (num den : ℕ) {k : ℕ} (hk : 0 < k) :
    roundDiv tie (num * k) (den * k) = roundDiv tie num den := by
  have hbelow : 2 * (num % den * k) < den * k ↔ 2 * (num % den) < den := by
    rw [← mul_assoc, Nat.mul_lt_mul_right hk]
  have habove : den * k < 2 * (num % den * k) ↔ den < 2 * (num % den) := by
    rw [← mul_assoc, Nat.mul_lt_mul_right hk]
  simp only [roundDiv, Nat.mul_div_mul_right _ _ hk, Nat.mul_mod_mul_right, hbelow, habove]

/-- Equal quotients have the same nearest integer, also half way between two integers.

**Proof sketch.** Bring both quotients to a common denominator. The numerators are then the same, and a common factor
does not matter. -/
private lemma roundDiv_congr (hd : 0 < den) (hd' : 0 < den') (h : (num / den : ℚ) = num' / den') :
    roundDiv tie num den = roundDiv tie num' den' := by
  rw [div_eq_div_iff (by positivity) (by positivity)] at h
  have hcross : num * den' = num' * den := by exact_mod_cast h
  calc roundDiv tie num den = roundDiv tie (num * den') (den * den') :=
        (roundDiv_mul_mul_right tie num den hd').symm
    _ = roundDiv tie (num' * den) (den' * den) := by rw [hcross, mul_comm den]
    _ = roundDiv tie num' den' := roundDiv_mul_mul_right tie num' den' hd

/-- **The nearest integer grows with the quotient.**

**Proof sketch.** Each integer is within one half of its quotient. Were the first one larger by one, both quotients
would be half way between the same two integers, hence equal, and equal quotients have the same nearest integer. -/
theorem roundDiv_le_roundDiv (hd : 0 < den) (hd' : 0 < den') (h : (num / den : ℚ) ≤ num' / den') :
    roundDiv tie num den ≤ roundDiv tie num' den' := by
  by_contra hfall
  have hsucc : (roundDiv tie num' den' : ℚ) + 1 ≤ roundDiv tie num den := by
    exact_mod_cast not_le.mp hfall
  have hnear : |(roundDiv tie num den : ℚ) - num / den| ≤ 1 / 2 := abs_roundDiv_sub_le tie hd
  have hnear' : |(roundDiv tie num' den' : ℚ) - num' / den'| ≤ 1 / 2 := abs_roundDiv_sub_le tie hd'
  replace hnear := (abs_le.mp hnear).2
  replace hnear' := (abs_le.mp hnear').1
  have heq : (num / den : ℚ) = num' / den' := by linarith
  exact hfall (roundDiv_congr hd hd' heq).le

/-! ## Nearest ranks -/

/-- A larger number lies in the same binade or in a higher one.

**Proof sketch.** The smaller number is at least the power of two of its binade, and the larger one is below the next
power of its own. -/
private lemma floorLog2_add_le_floorLog2_add (hn : 0 < num) (hd : 0 < den) (hn' : 0 < num') (hd' : 0 < den')
    (h : (num / den * 2 ^ e : ℚ) ≤ num' / den' * 2 ^ e') :
    floorLog2 num den + e ≤ floorLog2 num' den' + e' := by
  have hlow := two_zpow_floorLog2_le hn hd
  have hhigh := lt_two_zpow_floorLog2 hn' hd'
  have hlt : (2 : ℚ) ^ (floorLog2 num den + e) < 2 ^ (floorLog2 num' den' + 1 + e') :=
    calc (2 : ℚ) ^ (floorLog2 num den + e) = 2 ^ floorLog2 num den * 2 ^ e := zpow_add₀ (by norm_num) _ _
      _ ≤ num / den * 2 ^ e := by gcongr
      _ ≤ num' / den' * 2 ^ e' := h
      _ < 2 ^ (floorLog2 num' den' + 1) * 2 ^ e' := by gcongr
      _ = 2 ^ (floorLog2 num' den' + 1 + e') := (zpow_add₀ (by norm_num) _ _).symm
  have := (zpow_lt_zpow_iff_right₀ (by norm_num : (1 : ℚ) < 2)).mp hlt
  omega

namespace Format

variable {fmt : Format}

/-- A larger number is counted in the same binade or in a higher one. -/
private lemma binade_le_binade (fmt : Format) (hn : 0 < num) (hd : 0 < den) (hn' : 0 < num') (hd' : 0 < den')
    (h : (num / den * 2 ^ e : ℚ) ≤ num' / den' * 2 ^ e') :
    fmt.binade num den e ≤ fmt.binade num' den' e' := by
  have := floorLog2_add_le_floorLog2_add hn hd hn' hd' h
  unfold binade
  omega

/-- In the same binade a larger number has a larger count. -/
private lemma count_le_count (hd : 0 < den) (hd' : 0 < den')
    (h : (num / den * 2 ^ e : ℚ) ≤ num' / den' * 2 ^ e')
    (hk : fmt.binade num den e = fmt.binade num' den' e') :
    fmt.count num den e ≤ fmt.count num' den' e' := by
  have hunit : (0 : ℚ) < 2 ^ (fmt.minExponent + fmt.binade num' den' e') := by positivity
  refine roundDiv_le_roundDiv ?_ ?_ ?_
  · rw [Nat.shiftLeft_eq]
    positivity
  · rw [Nat.shiftLeft_eq]
    positivity
  · rw [shiftLeft_div_shiftLeft, shiftLeft_div_shiftLeft, ← mul_le_mul_iff_left₀ hunit, shifted_mul_unit,
      ← hk, shifted_mul_unit]
    exact h

/-- **The nearest rank grows with the number**, however the numbers are written.

**Proof sketch.** A count in a lower binade is at most `2 ^ precision`, twice the first count of the next
binade; so the leading bit of the larger number makes up for it. -/
theorem nearestRank_le_nearestRank (fmt : Format) [fmt.Valid] (hd : 0 < den) (hd' : 0 < den')
    (h : (num / den * 2 ^ e : ℚ) ≤ num' / den' * 2 ^ e') :
    fmt.nearestRank num den e ≤ fmt.nearestRank num' den' e' := by
  rcases Nat.eq_zero_or_pos num with rfl | hn
  · simp
  have hpos : (0 : ℚ) < num / den * 2 ^ e := by positivity
  have hn' : 0 < num' := by
    refine Nat.pos_of_ne_zero fun hzero => hpos.not_ge ?_
    simpa [hzero] using h
  rw [nearestRank_of_pos hn, nearestRank_of_pos hn', Nat.shiftLeft_eq, Nat.shiftLeft_eq]
  rcases (binade_le_binade fmt hn hd hn' hd' h).lt_or_eq with hlt | heq
  · have hcount := (counted_count fmt e hn hd).count_le
    have hcount' := (counted_count fmt e' hn' hd').leading_le.resolve_left (Nat.ne_zero_of_lt hlt)
    rw [← two_mul_two_pow_precision] at hcount
    have := Nat.mul_le_mul_right (2 ^ (fmt.precision - 1)) (Nat.succ_le_of_lt hlt)
    rw [Nat.succ_mul] at this
    omega
  · have := count_le_count hd hd' h heq
    rw [heq]
    omega

end Format

/-! ## Signed numbers -/

/-- Signs on what grows with a magnitude, and vanishes with it, keep the order of the signed numbers.

**Proof sketch.** With two positive signs the magnitudes are in order, and with two negative ones in the opposite
order. A number that is at least zero is at most one that is at most zero only if both are zero. -/
private lemma signed_le_signed {s t : Bool} {p q : ℚ} {m n : ℕ} (hp : 0 ≤ p) (hq : 0 ≤ q)
    (hle : p ≤ q → m ≤ n) (hge : q ≤ p → n ≤ m) (hm : p = 0 → m = 0) (hn : q = 0 → n = 0)
    (h : (if s then -p else p) ≤ if t then -q else q) :
    (if s then -(m : ℤ) else m) ≤ if t then -(n : ℤ) else n := by
  cases s <;> cases t <;> simp only [Bool.false_eq_true, if_true, if_false] at h ⊢
  · exact_mod_cast hle h
  · -- only zeros are both at least and at most zero
    have := hm (by linarith)
    have := hn (by linarith)
    omega
  · omega
  · exact neg_le_neg (by exact_mod_cast hge (neg_le_neg_iff.mp h))

namespace Binary

open Format

variable {fmt : Format}

/-- Infinity is placed as the rank past all finite ones. -/
private lemma place?_ofRank (s : Bool) (r : ℕ) : (ofRank s r : Binary fmt).place? =
    some (if s then -((Min.min r fmt.infinityRank : ℕ) : ℤ) else (Min.min r fmt.infinityRank : ℕ)) := by
  unfold ofRank
  split
  · rw [Nat.min_eq_left (by omega)]
    rfl
  · rw [Nat.min_eq_right (by omega)]
    rfl

variable [fmt.Valid] {x y l u : Binary fmt} {p q : ℚ}

/-- What a finite value stands for is a number of the format. -/
lemma representable_toRat (hx : x.isFinite) : fmt.Representable x.toRat := by
  cases x with
  | infinity s => cases hx
  | nan => cases hx
  | finite s r h =>
    have habs : |(finite s r h).toRat| = fmt.rankValue r := by
      rw [toRat_finite]
      cases s <;> simp [abs_of_nonneg (rankValue_nonneg fmt r)]
    rw [Representable, habs]
    refine ⟨?_, fmt.coefficient r, fmt.exponent r, coefficient_lt fmt r, ?_, rfl⟩
    · rw [← rankValue_infinityRank]
      exact rankValue_strictMono fmt h
    · exact le_add_of_nonneg_right (Int.natCast_nonneg _)

/-- Finite values are below the overflow bound. -/
lemma toRat_lt_overflowBound (hx : x.isFinite) : x.toRat < fmt.overflowBound :=
  (le_abs_self _).trans_lt (representable_toRat hx).1

/-- A finite value is nearest to the number that it stands for.

**Proof sketch.** A finite value is a coefficient times a power of two, and the nearest rank of that is its own, since
ranks with the same number are equal. -/
private lemma Rounds.self (hx : x.isFinite) : x.Rounds x.toRat := by
  cases x with
  | infinity s => cases hx
  | nan => cases hx
  | finite s r h =>
    have hrank : fmt.nearestRank (fmt.coefficient r) 1 (fmt.exponent r) = r := by
      apply (rankValue_strictMono fmt).injective
      refine rankValue_nearestRank_eq Nat.one_pos (coefficient_lt fmt r) ?_ (by simp)
      exact le_add_of_nonneg_right (Int.natCast_nonneg _)
    refine ⟨s, fmt.coefficient r, 1, fmt.exponent r, Nat.one_pos, ?_, ?_⟩
    · rw [toRat_finite, rankValue, Nat.cast_one, div_one]
    · rw [nearest, hrank, ofRank, dif_pos h]

/-- **The nearest value grows with the number.**

**Proof sketch.** The place of a nearest value is its rank, cut off at that of infinity, with the sign. Ranks grow with
the size of the number and vanish with it, so the places are ordered as the signed numbers. -/
theorem Rounds.le (hx : x.Rounds p) (hy : y.Rounds q) (hpq : p ≤ q) : x.le y := by
  obtain ⟨s, num, den, e, hd, rfl, rfl⟩ := hx
  obtain ⟨t, num', den', e', hd', rfl, rfl⟩ := hy
  have hzero : ∀ {num den : ℕ} {e : ℤ}, 0 < den → (num / den * 2 ^ e : ℚ) = 0 →
      Min.min (fmt.nearestRank num den e) fmt.infinityRank = 0 := by
    intro num den e hd h
    have hnum : num = 0 := by
      have : (den : ℚ) ≠ 0 := by positivity
      simpa [this, zpow_ne_zero] using h
    simp [hnum]
  rw [Binary.le, nearest, nearest, place?_ofRank, place?_ofRank]
  refine decide_eq_true (signed_le_signed (by positivity) (by positivity) ?_ ?_ (hzero hd) (hzero hd') hpq)
  · exact fun h => min_le_min_right _ (nearestRank_le_nearestRank fmt hd hd' h)
  · exact fun h => min_le_min_right _ (nearestRank_le_nearestRank fmt hd' hd h)

/-- Among finite values the number that a value stands for grows with the number that was rounded. -/
lemma Rounds.toRat_le_toRat (hx : x.Rounds p) (hy : y.Rounds q) (hxf : x.isFinite) (hyf : y.isFinite)
    (hpq : p ≤ q) : x.toRat ≤ y.toRat :=
  (le_iff hxf hyf).mp (hx.le hy hpq)

omit [fmt.Valid] in
/-- Only finite values lie between two finite ones. -/
lemma isFinite_of_le_of_le (hl : l.isFinite) (hu : u.isFinite) (hlx : l.le x) (hxu : x.le u) :
    x.isFinite := by
  obtain ⟨m, hm, -, hlow, -⟩ := exists_place hl
  obtain ⟨n, hn, -, -, hhigh⟩ := exists_place hu
  rw [Binary.le, hm] at hlx
  rw [Binary.le, hn] at hxu
  cases x with
  | finite s r h => rfl
  | infinity s =>
    cases s with
    | false => exact absurd (of_decide_eq_true hxu) (not_le.mpr hhigh)
    | true => exact absurd (of_decide_eq_true hlx) (not_le.mpr hlow)
  | nan => cases hlx

/-- Every number of the format has a value. -/
lemma exists_near_of_representable (hq : fmt.Representable q) : ∃ x : Binary fmt, x.Near q 0 := by
  obtain ⟨-, m, j, -, -, habs⟩ := id hq
  have hval : Exact.toRat (.finite (decide (q < 0)) m j) = q := by
    rw [Exact.toRat_finite]
    rcases lt_or_ge q 0 with hneg | hnonneg
    · rw [abs_of_neg hneg] at habs
      simp [hneg, ← habs]
    · rw [abs_of_nonneg hnonneg] at habs
      simp [hnonneg.not_gt, ← habs]
  rw [← hval] at hq ⊢
  exact ⟨_, near_round_of_representable rfl hq⟩

section Bounds

variable {low high : ℚ}

/-- **A number between two numbers of the format is rounded to a finite value.**

**Proof sketch.** Each of the two numbers is a value, which is nearest to itself. So the rounded value lies between two
finite values. -/
theorem Rounds.isFinite_of_between (hx : x.Rounds q) (hlow : fmt.Representable low)
    (hhigh : fmt.Representable high) (hlq : low ≤ q) (hqh : q ≤ high) : x.isFinite := by
  obtain ⟨l, hl⟩ := exists_near_of_representable hlow
  obtain ⟨u, hu⟩ := exists_near_of_representable hhigh
  rw [← hl.toRat_eq] at hlq
  rw [← hu.toRat_eq] at hqh
  exact isFinite_of_le_of_le hl.isFinite hu.isFinite ((Rounds.self hl.isFinite).le hx hlq)
    (hx.le (Rounds.self hu.isFinite) hqh)

/-- A number that is at least a number of the format is not rounded below it. -/
lemma Rounds.le_toRat (hx : x.Rounds q) (hxf : x.isFinite) (hlow : fmt.Representable low) (h : low ≤ q) :
    low ≤ x.toRat := by
  obtain ⟨l, hl⟩ := exists_near_of_representable hlow
  rw [← hl.toRat_eq] at h ⊢
  exact (Rounds.self hl.isFinite).toRat_le_toRat hx hl.isFinite hxf h

/-- A number that is at most a number of the format is not rounded above it. -/
lemma Rounds.toRat_le (hx : x.Rounds q) (hxf : x.isFinite) (hhigh : fmt.Representable high) (h : q ≤ high) :
    x.toRat ≤ high := by
  obtain ⟨u, hu⟩ := exists_near_of_representable hhigh
  rw [← hu.toRat_eq] at h ⊢
  exact hx.toRat_le_toRat (Rounds.self hu.isFinite) hxf hu.isFinite h

/-- **A number between two numbers of the format is rounded to a value between them.** -/
theorem Rounds.between (hx : x.Rounds q) (hlow : fmt.Representable low) (hhigh : fmt.Representable high)
    (hlq : low ≤ q) (hqh : q ≤ high) : x.isFinite ∧ low ≤ x.toRat ∧ x.toRat ≤ high := by
  have hxf := hx.isFinite_of_between hlow hhigh hlq hqh
  exact ⟨hxf, hx.le_toRat hxf hlow hlq, hx.toRat_le hxf hhigh hqh⟩

end Bounds

/-- Values of the same number are the same, but for the zeros.

**Proof sketch.** Both ranks are positive. With the same sign the ranks have the same number and are equal, and with
different signs the numbers would differ. -/
lemma eq_of_toRat_eq (hx : x.isFinite) (hy : y.isFinite) (h : x.toRat = y.toRat) (hne : x.toRat ≠ 0) :
    x = y := by
  cases x with
  | infinity s => cases hx
  | nan => cases hx
  | finite s a ha =>
  cases y with
  | infinity t => cases hy
  | nan => cases hy
  | finite t b hb =>
  have hnonneg := rankValue_nonneg fmt
  have ha₀ : fmt.rankValue a ≠ 0 := by
    intro hzero
    simp [hzero] at hne
  have hpos : 0 < fmt.rankValue a := lt_of_le_of_ne (hnonneg a) ha₀.symm
  have hrank : fmt.rankValue a = fmt.rankValue b → a = b := fun h => (rankValue_strictMono fmt).injective h
  rw [toRat_finite, toRat_finite] at h
  cases s <;> cases t <;> simp only [Bool.false_eq_true, if_true, if_false] at h
  · simp only [hrank h]
  · linarith [hnonneg b]
  · linarith [hnonneg b]
  · simp only [hrank (neg_inj.mp h)]

/-! ## Nearest integers of values -/

/-- **The nearest integer grows with the value**, halves going away from zero.

**Proof sketch.** The nearest integer of the size grows with the size and vanishes with it, so with the signs it grows
with the value. -/
theorem nearestInt_le_nearestInt {m n : ℤ} (hm : x.nearestInt? = some m) (hn : y.nearestInt? = some n)
    (h : x.toRat ≤ y.toRat) : m ≤ n := by
  cases x with
  | infinity s => cases hm
  | nan => cases hm
  | finite s a ha =>
  cases y with
  | infinity t => cases hn
  | nan => cases hn
  | finite t b hb =>
  obtain rfl := Option.some.inj hm
  obtain rfl := Option.some.inj hn
  have hden : ∀ r : ℕ, 0 < 1 <<< (-fmt.exponent r).toNat := by
    intro r
    rw [Nat.shiftLeft_eq]
    positivity
  have hquot : ∀ r : ℕ, (((fmt.coefficient r <<< (fmt.exponent r).toNat : ℕ) : ℚ) /
      ((1 <<< (-fmt.exponent r).toNat : ℕ) : ℚ)) = fmt.rankValue r := by
    intro r
    rw [shiftLeft_div_shiftLeft, Nat.cast_one, div_one, rankValue]
  have hmono : ∀ {r r' : ℕ}, fmt.rankValue r ≤ fmt.rankValue r' →
      roundDiv .away (fmt.coefficient r <<< (fmt.exponent r).toNat) (1 <<< (-fmt.exponent r).toNat) ≤
        roundDiv .away (fmt.coefficient r' <<< (fmt.exponent r').toNat) (1 <<< (-fmt.exponent r').toNat) :=
    fun hle => roundDiv_le_roundDiv (hden _) (hden _) (by rwa [hquot, hquot])
  have hzero : ∀ {r : ℕ}, fmt.rankValue r = 0 →
      roundDiv .away (fmt.coefficient r <<< (fmt.exponent r).toNat) (1 <<< (-fmt.exponent r).toNat) = 0 :=
    fun hr => Nat.le_zero.mp (roundDiv_le _ (hden _) (by rw [hquot, hr, Nat.cast_zero]))
  rw [toRat_finite, toRat_finite] at h
  exact signed_le_signed (rankValue_nonneg fmt a) (rankValue_nonneg fmt b) hmono hmono hzero hzero h

end Binary

end SparseDot
