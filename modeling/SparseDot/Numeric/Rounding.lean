set_option autoImplicit false

/-!
# Rounding a quotient to an integer

Every number this library rounds is at some point a quotient of two natural numbers that has to become
a natural number: the coefficient of a binary value, the last printed decimal digit, the code of a
quantized weight. They share one function, which takes the nearest integer and leaves the choice between
two equally near ones to a rule.

## Main definitions

* `SparseDot.Tie` — what to do with a quotient half way between two integers.
* `SparseDot.roundDiv` — the quotient `num / den`, rounded to a nearest integer.

## Main results

* `SparseDot.roundDiv_mul_right` — a whole quotient is kept.
* `SparseDot.two_mul_roundDiv_le`, `SparseDot.two_mul_le_roundDiv` — the result is within half a unit.
-/

namespace SparseDot

/-- The rule for a quotient that lies half way between two integers. -/
inductive Tie where
  /-- Take the even one of the two. -/
  | toEven
  /-- Take the larger one, the one further from zero. -/
  | away
  deriving DecidableEq, Repr

/-- **The quotient `num / den` rounded to a nearest natural number**, with `tie` deciding between two
that are equally near. -/
def roundDiv (tie : Tie) (num den : Nat) : Nat :=
  let q := num / den
  let twice := 2 * (num % den)
  if twice < den then q
  else if den < twice then q + 1
  else
    match tie with
    | .toEven => q + q % 2
    | .away => q + 1

section Laws

variable (tie : Tie) (num den k : Nat)

/-- The rounded quotient is the truncated one or its successor. -/
theorem roundDiv_eq_or : roundDiv tie num den = num / den ∨ roundDiv tie num den = num / den + 1 := by
  unfold roundDiv
  dsimp only
  split
  · exact .inl rfl
  · split
    · exact .inr rfl
    · cases tie
      · dsimp only
        omega
      · exact .inr rfl

/-- A whole quotient is kept as it is. -/
theorem roundDiv_mul_right (h : 0 < den) : roundDiv tie (k * den) den = k := by
  simp [roundDiv, Nat.mul_mod_left, Nat.mul_div_cancel k h, h]

/-- The rounded quotient is at most half a unit above the exact one. -/
theorem two_mul_roundDiv_le : 2 * (roundDiv tie num den * den) ≤ 2 * num + den := by
  have hsplit : num / den * den + num % den = num := by
    rw [Nat.mul_comm]
    exact Nat.div_add_mod num den
  have hsucc : (num / den + 1) * den = num / den * den + den := Nat.succ_mul _ _
  have hlow : 2 * (num / den * den) ≤ 2 * num + den := by omega
  by_cases hlt : 2 * (num % den) < den
  · simpa [roundDiv, hlt] using hlow
  · rcases roundDiv_eq_or tie num den with h | h
    · rw [h]
      exact hlow
    · rw [h, hsucc]
      omega

/-- The rounded quotient is at most half a unit below the exact one. -/
theorem two_mul_le_roundDiv (h : 0 < den) : 2 * num ≤ 2 * (roundDiv tie num den * den) + den := by
  have hsplit : num / den * den + num % den = num := by
    rw [Nat.mul_comm]
    exact Nat.div_add_mod num den
  have hsucc : (num / den + 1) * den = num / den * den + den := Nat.succ_mul _ _
  have hmod : num % den < den := Nat.mod_lt _ h
  by_cases hgt : den < 2 * (num % den)
  · have hnot : ¬ 2 * (num % den) < den := by omega
    simp only [roundDiv, hnot, if_false, hgt, if_true]
    omega
  · rcases roundDiv_eq_or tie num den with h' | h'
    · rw [h']
      omega
    · rw [h', hsucc]
      omega

end Laws

end SparseDot
