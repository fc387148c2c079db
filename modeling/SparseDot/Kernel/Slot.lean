set_option autoImplicit false

/-!
# Slots

A token addresses a slot of the dense vector. Tokens are signed, so one may be negative as well as too
large; neither addresses anything.

## Main definitions

* `SparseDot.Kernel.slot` — the slot that a token addresses.
-/

namespace SparseDot.Kernel

/-- **The slot of a dense vector of this size that a token addresses**, or `none` if the token lies
outside of it. -/
def slot (token : Int16) (size : Nat) : Option Nat :=
  let t := token.toInt
  if 0 ≤ t ∧ t < size then some t.toNat else none

/-- A token addresses slot `t` exactly when it is that number and the vector has that slot. -/
theorem slot_eq_some_iff {token : Int16} {size t : Nat} :
    slot token size = some t ↔ token.toInt = t ∧ t < size := by
  unfold slot
  dsimp only
  split
  · constructor
    · intro h
      cases h
      omega
    · rintro ⟨h, _⟩
      rw [h]
      rfl
  · constructor
    · intro h
      cases h
    · rintro ⟨h, hlt⟩
      omega

end SparseDot.Kernel
