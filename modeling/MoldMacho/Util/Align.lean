import Mathlib.Data.Nat.Basic
import Mathlib.Algebra.Order.Group.Nat

/-!
# Rounding up to an alignment

Alignments are powers of two, for which masking the low bits off divides them
away.
-/

set_option autoImplicit false

namespace MoldMacho.Align

def alignTo (value align : ℕ) : ℕ :=
  if align = 0 then value else (value + align - 1) / align * align

theorem le_align_to (value align : ℕ) : value ≤ alignTo value align := by
  rw [alignTo]
  split
  · exact Nat.le_refl _
  · have hpos : 0 < align := by omega
    have hmod := Nat.mod_lt (value + align - 1) hpos
    have hdiv := Nat.div_add_mod' (value + align - 1) align
    omega

theorem align_to_dvd {align : ℕ} (h : 0 < align) (value : ℕ) : align ∣ alignTo value align := by
  rw [alignTo, if_neg (by omega)]
  exact Nat.dvd_mul_left _ _

theorem align_to_mono {a b : ℕ} (h : a ≤ b) (align : ℕ) : alignTo a align ≤ alignTo b align := by
  rw [alignTo, alignTo]
  split
  · exact h
  · exact Nat.mul_le_mul_right _ (Nat.div_le_div_right (by omega))

/-- The next value past `value` that is `modulus` from a multiple of the
alignment. -/
def alignToMod (value align modulus : ℕ) : ℕ :=
  if value ≤ modulus then modulus else alignTo (value-modulus) align + modulus

theorem le_align_to_mod (value align modulus : ℕ) : value ≤ alignToMod value align modulus := by
  rw [alignToMod]
  split
  · assumption
  · have hle := le_align_to (value-modulus) align
    omega

end MoldMacho.Align
