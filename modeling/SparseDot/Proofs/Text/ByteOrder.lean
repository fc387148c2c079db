import Mathlib.Data.String.Basic
import Mathlib.Tactic.SplitIfs

set_option autoImplicit false

/-!
# The order of names is the order of their bytes

Names are ordered by their characters. In UTF-8 a character is written as one to four bytes, so that of two
characters the smaller one has the smaller bytes: the leading byte grows with the number of bytes, and after
it come the digits of the character to the base 64. So names are ordered as the bytes that they are written
with, first byte first.

## Main definitions

* `SparseDot.utf8Bytes` — the bytes of a text.

## Main results

* `SparseDot.utf8EncodeChar_append_lt` — a smaller character has smaller bytes.
* `SparseDot.utf8Bytes_lt_iff` — texts are ordered as their bytes.
-/

namespace SparseDot

/-- **The bytes of a text in UTF-8.** -/
def utf8Bytes (s : String) : List UInt8 := s.toUTF8.data.toList

/-! ## Characters -/

/-- Bytes are ordered as the numbers that they are. -/
private lemma byte_lt_byte_iff {a b : Nat} (ha : a < 256) (hb : b < 256) :
    UInt8.ofNat a < UInt8.ofNat b ↔ a < b := by
  rw [UInt8.lt_iff_toNat_lt, UInt8.toNat_ofNat_of_lt' ha, UInt8.toNat_ofNat_of_lt' hb]

/-- Bytes are equal if the numbers that they are are equal. -/
private lemma byte_eq_byte_iff {a b : Nat} (ha : a < 256) (hb : b < 256) :
    UInt8.ofNat a = UInt8.ofNat b ↔ a = b := by
  rw [← UInt8.toNat_inj, UInt8.toNat_ofNat_of_lt' ha, UInt8.toNat_ofNat_of_lt' hb]

/-- A smaller character of four bytes has a smaller byte, and the same bytes before it. -/
private lemma four_bytes_lt {v w : Nat} (hlt : v < w) (hw : w < 1114112) (p : Prop) :
    v / 262144 % 8 + 240 < w / 262144 % 8 + 240 ∨ v / 262144 % 8 + 240 = w / 262144 % 8 + 240 ∧
      (v / 4096 % 64 + 128 < w / 4096 % 64 + 128 ∨ v / 4096 % 64 + 128 = w / 4096 % 64 + 128 ∧
        (v / 64 % 64 + 128 < w / 64 % 64 + 128 ∨ v / 64 % 64 + 128 = w / 64 % 64 + 128 ∧
          (v % 64 + 128 < w % 64 + 128 ∨ v % 64 + 128 = w % 64 + 128 ∧ p))) := by
  by_cases h₁ : v / 262144 < w / 262144
  · omega
  · refine .inr ⟨by omega, ?_⟩
    by_cases h₂ : v / 4096 < w / 4096
    · omega
    · refine .inr ⟨by omega, ?_⟩
      omega

/-- **A smaller character has smaller bytes**, whatever comes after them.

**Proof sketch.** A case for each number of bytes of the two characters. With different numbers already the first byte
decides. With the same number the bytes are the digits of the code with an offset, the highest digit first, and the
first digit that differs decides. -/
theorem utf8EncodeChar_append_lt {c d : Char} (h : c < d) (l m : List UInt8) :
    String.utf8EncodeChar c ++ l < String.utf8EncodeChar d ++ m := by
  have hlt : c.val.toNat < d.val.toNat := h
  have hmax : d.val.toNat < 1114112 := by
    have := d.valid
    simp only [UInt32.isValidChar, Nat.isValidChar] at this
    omega
  unfold String.utf8EncodeChar
  generalize c.val.toNat = v at hlt
  generalize d.val.toNat = w at hlt hmax
  simp only
  -- a case for each number of bytes of the two characters
  split_ifs
  all_goals simp (disch := omega) only [List.cons_append, List.nil_append, List.cons_lt_cons_iff,
    byte_lt_byte_iff, byte_eq_byte_iff]
  on_goal -1 => exact four_bytes_lt hlt hmax _
  all_goals omega

/-! ## Texts -/

/-- The bytes of a text are those of its characters, one after the other. -/
private lemma utf8Bytes_eq_flatMap (s : String) : utf8Bytes s = s.toList.flatMap String.utf8EncodeChar := by
  rw [utf8Bytes, String.toUTF8_eq_toByteArray, ← String.utf8Encode_toList, List.utf8Encode]
  simp

/-- Where two lists of characters differ first, their bytes differ, and in the same way. -/
private lemma flatMap_utf8EncodeChar_lt {l m : List Char} (h : l < m) :
    l.flatMap String.utf8EncodeChar < m.flatMap String.utf8EncodeChar := by
  induction l generalizing m with
  | nil =>
    cases m with
    | nil => exact absurd h (List.lt_irrefl _)
    | cons d m =>
      obtain ⟨b, bytes, hbytes⟩ := List.exists_cons_of_ne_nil (String.utf8EncodeChar_ne_nil (c := d))
      simp [hbytes]
  | cons c l ih =>
    cases m with
    | nil => exact absurd h (List.not_lt_nil _)
    | cons d m =>
      rw [List.flatMap_cons, List.flatMap_cons]
      rcases List.cons_lt_cons_iff.mp h with hlt | ⟨rfl, hlt⟩
      · exact utf8EncodeChar_append_lt hlt _ _
      · exact List.append_left_lt (ih hlt)

/-- **Texts are ordered as their bytes**, the first byte first.

**Proof sketch.** A smaller text has smaller bytes, as the first character that differs has. The other way round, texts
that are equal or in the opposite order would have bytes that are. -/
theorem utf8Bytes_lt_iff {s t : String} : utf8Bytes s < utf8Bytes t ↔ s < t := by
  have hmono : ∀ {s t : String}, s < t → utf8Bytes s < utf8Bytes t := by
    intro s t h
    rw [utf8Bytes_eq_flatMap, utf8Bytes_eq_flatMap]
    exact flatMap_utf8EncodeChar_lt h
  refine ⟨fun h => ?_, hmono⟩
  rcases lt_trichotomy s t with hlt | rfl | hlt
  · exact hlt
  · exact absurd h (List.lt_irrefl _)
  · exact absurd (hmono hlt) (List.lt_asymm h)

end SparseDot
