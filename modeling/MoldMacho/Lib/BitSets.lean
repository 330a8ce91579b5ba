import Mathlib.Data.List.Basic
import Mathlib.Algebra.GroupWithZero.Nat
import Mathlib.Tactic.Ring

/-!
# Sets of places in words

A set of places packed in 64-bit words, 64 to a word and the lowest bit first.
-/

set_option autoImplicit false

namespace MoldMacho.BitSets

/-- The place is in the set. -/
def bit (words : List (BitVec 64)) (pos : ℕ) : Bool := (words[pos/64]?.getD 0).getLsbD (pos%64)

def setBit (words : List (BitVec 64)) (pos : ℕ) : List (BitVec 64) :=
  words.modify (pos/64) (· ||| 1#64 <<< (pos%64))

@[simp] theorem set_bit_length (words : List (BitVec 64)) (pos : ℕ) :
    (setBit words pos).length = words.length := List.length_modify _ _ _

theorem word_bit (pos q : ℕ) : (1#64 <<< (pos%64)).getLsbD (q%64) = decide (q%64 = pos%64) := by
  have hq : q%64 < 64 := Nat.mod_lt _ (by decide)
  rw [← BitVec.twoPow_eq, BitVec.getLsbD_twoPow]
  grind

theorem bit_set {words : List (BitVec 64)} {pos : ℕ} (h : pos < 64*words.length) (q : ℕ) :
    bit (setBit words pos) q = (bit words q || decide (q = pos)) := by
  have hword : pos/64 < words.length := Nat.div_lt_of_lt_mul h
  rw [bit, bit, setBit, List.getElem?_modify]
  by_cases hsame : pos/64 = q/64
  · have hplace : q%64 = pos%64 ↔ q = pos := by omega
    rw [← hsame, List.getElem?_eq_getElem hword]
    simp only [if_pos, Option.map_eq_map, Option.map_some, Option.getD_some, BitVec.getLsbD_or,
      word_bit, hplace]
  · have hne : q ≠ pos := by
      rintro rfl
      exact hsame rfl
    simp [hsame, hne]

theorem bit_replicate (n pos : ℕ) : bit (List.replicate n 0) pos = false := by
  rw [bit, List.getElem?_replicate]
  split <;> simp

theorem bit_word_of {words : List (BitVec 64)} {pos : ℕ} (h : bit words pos = true) :
    ∃ word, words[pos/64]? = some word ∧ word.getLsbD (pos%64) = true := by
  rw [bit] at h
  cases hword : words[pos/64]? with
  | none => simp [hword] at h
  | some word =>
    rw [hword] at h
    exact ⟨word,rfl,h⟩

/-- The bits of a word, by their places in the set. -/
theorem bit_word {words : List (BitVec 64)} {i : ℕ} {word : BitVec 64} (h : words[i]? = some word)
    {k : ℕ} (hk : k < 64) : bit words (64*i+k) = word.getLsbD k := by
  have hdiv : (64*i+k)/64 = i := by omega
  have hmod : (64*i+k)%64 = k := by omega
  rw [bit, hdiv, hmod, h]
  rfl

theorem bit_cons_zero (word : BitVec 64) (words : List (BitVec 64)) {k : ℕ} (hk : k < 64) :
    bit (word::words) k = word.getLsbD k := by
  rw [bit, Nat.div_eq_of_lt hk, Nat.mod_eq_of_lt hk]
  rfl

theorem bit_cons_add (word : BitVec 64) (words : List (BitVec 64)) (k : ℕ) :
    bit (word::words) (k+64) = bit words k := by
  rw [bit, bit, Nat.add_div_right k (by decide), Nat.add_mod_right]
  rfl

/-! ## The lowest bit -/

/-- Without one, a number whose lowest bit is at `k` loses that bit. -/
theorem clear_lowest_nat {n k : ℕ} (hk : n.testBit k = true) (hlow : ∀ i < k, n.testBit i = false)
    (i : ℕ) : (n &&& (n-1)).testBit i = (n.testBit i && decide (i ≠ k)) := by
  have hmod : n%2^(k+1) = 2^k := by
    apply Nat.eq_of_testBit_eq
    intro j
    rw [Nat.testBit_mod_two_pow, Nat.testBit_two_pow]
    by_cases hj : j = k
    · simp [hj, hk]
    · by_cases hjk : j < k
      · simp [hlow j hjk, Ne.symm hj]
      · simp [Ne.symm hj, show ¬j < k+1 by omega]
  have hpos : 0 < 2^k := Nat.two_pow_pos k
  have hpow : 2^(k+1) = 2^k+2^k := by rw [Nat.pow_succ, Nat.mul_two]
  have hn : n = 2^(k+1)*(n/2^(k+1))+2^k := by rw [← hmod, Nat.div_add_mod]
  have hpred : n-1 = 2^(k+1)*(n/2^(k+1))+(2^k-1) := by omega
  have hbit : ∀ j, n.testBit j =
      if j < k+1 then (2^k).testBit j else (n/2^(k+1)).testBit (j-(k+1)) := fun j => by
    conv_lhs => rw [hn]
    exact Nat.testBit_two_pow_mul_add _ (by omega) j
  rw [Nat.testBit_and, hpred, Nat.testBit_two_pow_mul_add _ (by omega), hbit]
  by_cases hi : i < k+1
  · rw [if_pos hi, if_pos hi, Nat.testBit_two_pow, Nat.testBit_two_pow_sub_one]
    grind
  · rw [if_neg hi, if_neg hi]
    grind

theorem clear_lowest {word : BitVec 64} (h : word ≠ 0) (i : ℕ) :
    (word &&& (word-1)).getLsbD i = (word.getLsbD i && decide (i ≠ word.ctz.toNat)) := by
  have hpos : 1 ≤ word.toNat := Nat.one_le_iff_ne_zero.2 fun hzero => h (BitVec.eq_of_toNat_eq hzero)
  have hsub : (word-1).toNat = word.toNat-1 := BitVec.toNat_sub_of_le hpos
  rw [BitVec.getLsbD, BitVec.toNat_and, hsub]
  exact clear_lowest_nat (BitVec.getLsbD_true_ctz_of_ne_zero h)
    (fun j hj => BitVec.getLsbD_false_of_lt_ctz hj) i

theorem clear_lowest_lt {word : BitVec 64} (h : word ≠ 0) :
    (word &&& (word-1)).toNat < word.toNat := by
  have hpos : 1 ≤ word.toNat := Nat.one_le_iff_ne_zero.2 fun hzero => h (BitVec.eq_of_toNat_eq hzero)
  have hsub : (word-1).toNat = word.toNat-1 := BitVec.toNat_sub_of_le hpos
  rw [BitVec.toNat_and, hsub]
  exact Nat.and_le_right.trans_lt (by omega)

end MoldMacho.BitSets
