import Mathlib.Data.List.Basic
import Mathlib.Data.Nat.Notation
import Mathlib.Tactic.Ring

/-!
# Decimal numbers in ASCII

A number's digits, highest first, and what digits stand for.
-/

set_option autoImplicit false

namespace MoldMacho.Decimal

def isDigit (b : UInt8) : Bool := decide (0x30 ≤ b ∧ b ≤ 0x39)

def digitValue (b : UInt8) : ℕ := b.toNat - 48

/-- The value of digits that follow those of another value. -/
def valueFrom (acc : ℕ) (bytes : List UInt8) : ℕ :=
  bytes.foldl (fun acc b => acc*10 + digitValue b) acc

def digit (n : ℕ) : UInt8 := (48 + n).toUInt8

def decimal (n : ℕ) : List UInt8 :=
  if n < 10 then [digit n] else decimal (n/10) ++ [digit (n%10)]
termination_by n
decreasing_by omega

theorem digit_value_lt {b : UInt8} (h : isDigit b = true) : digitValue b < 10 := by
  obtain ⟨-,hhigh⟩ := of_decide_eq_true h
  have hle : b.toNat ≤ 57 := UInt8.le_iff_toNat_le.1 hhigh
  rw [digitValue]
  omega

theorem digit_read {n : ℕ} (h : n < 10) : isDigit (digit n) = true ∧ digitValue (digit n) = n := by
  revert n
  decide

theorem digit_of_value {b : UInt8} (h : isDigit b = true) : digit (digitValue b) = b := by
  obtain ⟨hlow,hhigh⟩ := of_decide_eq_true h
  have hle : 48 ≤ b.toNat := UInt8.le_iff_toNat_le.1 hlow
  have hbyte := b.toNat_lt
  apply UInt8.toNat_inj.1
  rw [digit, digitValue, UInt8.toNat_ofNat']
  omega

theorem decimal_digits (n : ℕ) : ∀ b ∈ decimal n, isDigit b = true := by
  induction n using Nat.strongRecOn with
  | ind n ih =>
    rw [decimal]
    split
    · next h =>
      intro b hb
      rw [List.mem_singleton.1 hb]
      exact (digit_read h).1
    · next h =>
      intro b hb
      rcases List.mem_append.1 hb with hb | hb
      · exact ih (n/10) (by omega) b hb
      · rw [List.mem_singleton.1 hb]
        exact (digit_read (Nat.mod_lt n (by decide))).1

theorem decimal_value (n : ℕ) : valueFrom 0 (decimal n) = n := by
  induction n using Nat.strongRecOn with
  | ind n ih =>
    rw [decimal]
    split
    · next h =>
      show 0*10 + digitValue (digit n) = n
      rw [(digit_read h).2]
      omega
    · next h =>
      have hn : valueFrom 0 (decimal (n/10)) = n/10 := ih (n/10) (by omega)
      rw [valueFrom] at hn ⊢
      rw [List.foldl_append, hn]
      show n/10*10 + digitValue (digit (n%10)) = n
      rw [(digit_read (Nat.mod_lt n (by decide))).2]
      omega

theorem decimal_length_le (k : ℕ) {n : ℕ} (h : n < 10^(k+1)) : (decimal n).length ≤ k+1 := by
  induction k generalizing n with
  | zero =>
    rw [decimal, if_pos (by omega)]
    rfl
  | succ k ih =>
    rw [decimal]
    split
    · exact Nat.le_add_left _ _
    · rw [List.length_append, List.length_singleton]
      rw [pow_succ] at h
      exact Nat.succ_le_succ (ih (by omega))

theorem decimal_ne_nil (n : ℕ) : decimal n ≠ [] := by
  rw [decimal]
  split <;> simp

/-- Digits stand for less than the power of ten of their count. -/
theorem value_lt {bytes : List UInt8} (h : ∀ b ∈ bytes, isDigit b = true) (acc : ℕ) :
    valueFrom acc bytes < (acc+1) * 10^bytes.length := by
  induction bytes generalizing acc with
  | nil => simp [valueFrom]
  | cons b bytes ih =>
    rw [List.forall_mem_cons] at h
    have hb := digit_value_lt h.1
    have hrest := ih h.2 (acc*10 + digitValue b)
    have hacc : (acc*10 + digitValue b + 1) * 10^bytes.length ≤
        (acc+1)*10 * 10^bytes.length := Nat.mul_le_mul_right _ (by omega)
    calc valueFrom acc (b::bytes) = valueFrom (acc*10 + digitValue b) bytes := rfl
      _ < (acc*10 + digitValue b + 1) * 10^bytes.length := hrest
      _ ≤ (acc+1)*10 * 10^bytes.length := hacc
      _ = (acc+1) * 10^(b::bytes).length := by rw [List.length_cons, pow_succ]; ring

end MoldMacho.Decimal
