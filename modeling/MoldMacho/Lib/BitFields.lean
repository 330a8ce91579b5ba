import Mathlib.Data.Nat.Notation
import Mathlib.Data.Int.Order.Basic
import Mathlib.Tactic.Positivity
import Mathlib.Tactic.Ring

/-!
# Bit fields of machine words

A field of a word is read by `extractLsb'` and written under a mask. What
a write leaves is stated by the bits outside the mask, and what a signed
field means by its integer value.
-/

set_option autoImplicit false

namespace MoldMacho.BitFields

variable {w n : ℕ}

/-- The ones of the `n` bits from bit `lo` on. -/
def mask (w lo n : ℕ) : BitVec w := ((BitVec.allOnes n).setWidth w) <<< lo

/-- A field's value, put in place. -/
def place (w lo : ℕ) (v : BitVec n) : BitVec w := (v.setWidth w) <<< lo

@[simp] theorem getLsbD_mask (w lo n i : ℕ) :
    (mask w lo n).getLsbD i = decide (i < w ∧ lo ≤ i ∧ i < lo+n) := by
  simp only [mask, BitVec.getLsbD_shiftLeft, BitVec.getLsbD_setWidth, BitVec.getLsbD_allOnes]
  grind

@[simp] theorem getLsbD_place (w lo : ℕ) (v : BitVec n) (i : ℕ) :
    (place w lo v).getLsbD i = (decide (i < w ∧ lo ≤ i) && v.getLsbD (i-lo)) := by
  simp only [place, BitVec.getLsbD_shiftLeft, BitVec.getLsbD_setWidth]
  grind

/-- A value put in place holds no bit outside its field's mask. -/
theorem place_outside (w lo : ℕ) (v : BitVec n) : place w lo v &&& ~~~mask w lo n = 0#w := by
  apply BitVec.eq_of_getLsbD_eq
  intro i hi
  have hv : lo+n ≤ i → v.getLsbD (i-lo) = false := fun h => BitVec.getLsbD_of_ge _ _ (by omega)
  simp only [BitVec.getLsbD_and, BitVec.getLsbD_not, getLsbD_place, getLsbD_mask,
    BitVec.getLsbD_zero]
  grind

/-- Writing under a mask leaves the bits outside it. -/
theorem write_outside (x m v : BitVec w) (hv : v &&& ~~~m = 0#w) :
    (x &&& ~~~m ||| v) &&& ~~~m = x &&& ~~~m := by
  rw [BitVec.and_comm, BitVec.and_or_distrib_left, BitVec.and_comm (~~~m) v, hv, BitVec.or_zero,
    BitVec.and_comm, BitVec.and_assoc, BitVec.and_self]

/-- A field read back from under the mask it was written to. -/
theorem extract_write (x m : BitVec w) {lo : ℕ} (v : BitVec n) (hin : lo+n ≤ w)
    (hm : mask w lo n &&& ~~~m = 0#w) (u : BitVec w) (hu : u &&& mask w lo n = 0#w) :
    (x &&& ~~~m ||| (place w lo v ||| u)).extractLsb' lo n = v := by
  apply BitVec.eq_of_getLsbD_eq
  intro i hi
  have hone := congrArg (fun b => b.getLsbD (lo+i)) hm
  have hzero := congrArg (fun b => b.getLsbD (lo+i)) hu
  simp only [BitVec.getLsbD_and, BitVec.getLsbD_not, getLsbD_mask, BitVec.getLsbD_zero] at hone hzero
  simp only [BitVec.getLsbD_extractLsb', BitVec.getLsbD_or, BitVec.getLsbD_and, BitVec.getLsbD_not,
    getLsbD_place, Nat.add_sub_cancel_left]
  grind

/-- Words that agree outside a mask agree under any mask apart from it. -/
theorem and_of_outside {x y m k : BitVec w} (h : x &&& ~~~m = y &&& ~~~m) (hk : k &&& m = 0#w) :
    x &&& k = y &&& k := by
  apply BitVec.eq_of_getLsbD_eq
  intro i hi
  have hbit := congrArg (fun b => b.getLsbD i) h
  have hzero := congrArg (fun b => b.getLsbD i) hk
  simp only [BitVec.getLsbD_and, BitVec.getLsbD_not, BitVec.getLsbD_zero] at hbit hzero ⊢
  grind

theorem extract_of_outside {x y m : BitVec w} {lo : ℕ} (h : x &&& ~~~m = y &&& ~~~m)
    (hm : mask w lo n &&& m = 0#w) : x.extractLsb' lo n = y.extractLsb' lo n := by
  apply BitVec.eq_of_getLsbD_eq
  intro i hi
  have hbit := congrArg (fun b => b.getLsbD (lo+i)) (and_of_outside h hm)
  simp only [BitVec.getLsbD_and, getLsbD_mask, BitVec.getLsbD_extractLsb'] at hbit ⊢
  grind

/-- The field just above a field: the two read as one. -/
theorem extract_join (x : BitVec w) (lo a b : ℕ) :
    x.extractLsb' (lo+a) b ++ x.extractLsb' lo a = x.extractLsb' lo (b+a) := by
  apply BitVec.eq_of_getLsbD_eq
  intro i hi
  simp only [BitVec.getLsbD_append, BitVec.getLsbD_extractLsb']
  by_cases h : i < a
  · simp [h, hi]
  · simp only [h, if_false, show lo+a+(i-a) = lo+i by omega, hi, decide_true, Bool.true_and,
      show i-a < b by omega]

section Signed

theorem set_width_sign_extend {v : ℕ} (x : BitVec w) (h : w ≤ v) :
    (x.signExtend v).setWidth w = x := by
  apply BitVec.eq_of_getLsbD_eq
  intro i hi
  simp only [BitVec.getLsbD_setWidth, BitVec.getLsbD_signExtend]
  grind

/-- A signed field of `n` bits from bit `lo` on of a value in its reach. -/
theorem toInt_extract (v : BitVec w) {lo n : ℕ} (hin : lo+(n+1) ≤ w)
    (hlow : -(2^(lo+n) : ℤ) ≤ v.toInt) (hhigh : v.toInt < 2^(lo+n)) :
    (v.extractLsb' lo (n+1)).toInt = v.toInt / 2^lo := by
  have hpow : (2^w : ℤ) = 2^lo*(2^(n+1)*2^(w-(lo+(n+1)))) := by
    rw [← pow_add, ← pow_add]
    congr 1
    omega
  have hpos : (0 : ℤ) < 2^lo := by positivity
  obtain ⟨k,hk⟩ : ∃ k : ℤ, (v.toNat : ℤ) = v.toInt + 2^w*k := by
    rw [BitVec.toInt_eq_toNat_bmod]
    have h := Int.bmod_add_bdiv v.toNat (2^w)
    push_cast at h ⊢
    exact ⟨Int.bdiv v.toNat (2^w),h.symm⟩
  have hdiv : ((v.toNat >>> lo : ℕ) : ℤ) = v.toInt / 2^lo + (2^(n+1) : ℕ)*(2^(w-(lo+(n+1)))*k) := by
    rw [Nat.shiftRight_eq_div_pow]
    push_cast
    rw [hk, hpow, Int.mul_assoc, Int.mul_assoc, Int.add_mul_ediv_left _ _ hpos.ne']
  rw [BitVec.toInt_extractLsb', hdiv, Int.add_mul_bmod_self_left]
  apply Int.bmod_eq_of_le_mul_two
  · have h : -(2^n : ℤ) ≤ v.toInt / 2^lo := by
      rw [Int.le_ediv_iff_mul_le hpos]
      calc -(2^n : ℤ)*2^lo = -2^(lo+n) := by rw [pow_add]; ring
        _ ≤ v.toInt := hlow
    push_cast
    rw [pow_succ]
    omega
  · have h : v.toInt / 2^lo < (2^n : ℤ) := by
      rw [Int.ediv_lt_iff_lt_mul hpos]
      calc v.toInt < 2^(lo+n) := hhigh
        _ = 2^n*2^lo := by rw [pow_add]; ring
    push_cast
    rw [pow_succ]
    omega

/-- A value in reach of a narrower word is its extension. -/
theorem sign_extend_set_width (v : BitVec w) {n : ℕ} (hin : n+1 ≤ w) (hlow : -(2^n : ℤ) ≤ v.toInt)
    (hhigh : v.toInt < 2^n) : (v.setWidth (n+1)).signExtend w = v := by
  apply BitVec.eq_of_toInt_eq
  rw [BitVec.toInt_signExtend_of_le hin, BitVec.setWidth_eq_extractLsb' hin,
    toInt_extract v (by omega) (by simpa using hlow) (by simpa using hhigh)]
  simp

end Signed

end MoldMacho.BitFields
