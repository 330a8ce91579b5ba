import Mathlib.Algebra.Order.Group.Nat
import Mathlib.Data.Int.Order.Basic

/-!
# LEB128 integers

A number is written seven bits a byte, lowest first, every byte but the
last with its high bit set. The encoders are those of the linker's
`util` module; the decoders read the format back and leave what follows.
-/

set_option autoImplicit false

namespace MoldMacho.Leb128

/-- `encode_uleb`: the bytes it appends for `value`. -/
def encodeUleb (value : ℕ) : List UInt8 :=
  let byte := (value % 128).toUInt8
  if value / 128 = 0 then [byte]
  else (byte ||| 0x80) :: encodeUleb (value / 128)
termination_by value
decreasing_by omega

/-- `uleb_size`: the length of `value` in unsigned LEB128. -/
def ulebSize (value : ℕ) : ℕ :=
  if 0x80 ≤ value then 1 + ulebSize (value / 128) else 1
termination_by value
decreasing_by omega

theorem sleb_shrinks (value : ℤ)
    (h : ¬ ((value / 128 = 0 ∧ value % 128 < 64) ∨ (value / 128 = -1 ∧ 64 ≤ value % 128))) :
    (value / 128).natAbs < value.natAbs := by omega

/-- `encode_sleb`. Bit 6 of a group is the sign the decoder extends, so
the last group is the first whose bit 6 agrees with what is left. -/
def encodeSleb (value : ℤ) : List UInt8 :=
  let byte := (value % 128).toNat.toUInt8
  if (value / 128 = 0 ∧ value % 128 < 64) ∨ (value / 128 = -1 ∧ 64 ≤ value % 128) then [byte]
  else (byte ||| 0x80) :: encodeSleb (value / 128)
termination_by value.natAbs
decreasing_by exact sleb_shrinks value ‹_›

/-- Reads one unsigned number; `none` if the bytes end inside it. -/
def decodeUleb : List UInt8 → Option (ℕ × List UInt8)
  | [] => none
  | b :: rest =>
    if b < 0x80 then some (b.toNat, rest)
    else (decodeUleb rest).map fun (n, rest) => (b.toNat - 128 + 128 * n, rest)

/-- Reads one signed number, extending the sign from bit 6 of its last
group. -/
def decodeSleb : List UInt8 → Option (ℤ × List UInt8)
  | [] => none
  | b :: rest =>
    if b < 0x40 then some (b.toNat, rest)
    else if b < 0x80 then some (b.toNat - 128, rest)
    else (decodeSleb rest).map fun (n, rest) => (b.toNat - 128 + 128 * n, rest)

theorem group_toNat (n : ℕ) (h : n < 128) : n.toUInt8.toNat = n := by
  simp [Nat.mod_eq_of_lt (show n < 256 by omega)]

theorem more_toNat (n : ℕ) (h : n < 128) : (n.toUInt8 ||| 0x80).toNat = n + 128 := by
  have hn : n.toUInt8.toNat = n := group_toNat n h
  have hor := Nat.two_pow_add_eq_or_of_lt (i := 7) (b := n) (by omega) 1
  rw [UInt8.toNat_or, hn, Nat.or_comm]
  simpa [Nat.add_comm] using hor.symm

theorem encode_uleb_last (value : ℕ) (h : value < 128) :
    encodeUleb value = [value.toUInt8] := by
  rw [encodeUleb]
  simp [Nat.div_eq_of_lt h, Nat.mod_eq_of_lt h]

theorem encode_uleb_more (value : ℕ) (h : 128 ≤ value) :
    encodeUleb value = ((value % 128).toUInt8 ||| 0x80) :: encodeUleb (value / 128) := by
  rw [encodeUleb]
  exact if_neg (by omega)

theorem decode_uleb_last (b : UInt8) (rest : List UInt8) (h : b.toNat < 128) :
    decodeUleb (b :: rest) = some (b.toNat, rest) := by
  have hb : b < 0x80 := UInt8.lt_iff_toNat_lt.mpr (by simpa using h)
  simp [decodeUleb, hb]

theorem decode_uleb_more (b : UInt8) (rest : List UInt8) (h : 128 ≤ b.toNat) :
    decodeUleb (b :: rest) =
      (decodeUleb rest).map fun (n, rest) => (b.toNat - 128 + 128 * n, rest) := by
  have hb : ¬ b < 0x80 := fun hlt => by
    have := UInt8.lt_iff_toNat_lt.mp hlt
    simp at this
    omega
  simp [decodeUleb, hb]

/-- An unsigned number reads back, and the bytes after it are left. -/
theorem decode_encode_uleb (value : ℕ) (rest : List UInt8) :
    decodeUleb (encodeUleb value ++ rest) = some (value, rest) := by
  induction value using Nat.strongRecOn with
  | ind value ih =>
    by_cases h : value < 128
    · rw [encode_uleb_last value h, List.singleton_append,
        decode_uleb_last _ _ (by rw [group_toNat value h]; exact h), group_toNat value h]
    · have hb := more_toNat (value % 128) (Nat.mod_lt _ (by decide))
      rw [encode_uleb_more value (by omega), List.cons_append,
        decode_uleb_more _ _ (by rw [hb]; omega), ih (value / 128) (by omega), hb]
      simp only [Option.map_some, Option.some.injEq, Prod.mk.injEq, and_true]
      omega

theorem encode_uleb_ne_nil (value : ℕ) : encodeUleb value ≠ [] := by
  rw [encodeUleb]
  split <;> simp

theorem encode_uleb_length (value : ℕ) : (encodeUleb value).length = ulebSize value := by
  induction value using Nat.strongRecOn with
  | ind value ih =>
    rw [ulebSize]
    by_cases h : value < 128
    · rw [encode_uleb_last value h, if_neg (by omega)]
      rfl
    · rw [encode_uleb_more value (by omega), if_pos (by omega), List.length_cons,
        ih (value / 128) (by omega)]
      omega

/-- The length of a number below `128 ^ k` is at most `k`. -/
theorem uleb_size_le (k value : ℕ) (hk : 0 < k) (h : value < 128 ^ k) : ulebSize value ≤ k := by
  induction k generalizing value with
  | zero => omega
  | succ k ih =>
    rw [ulebSize]
    split
    case isFalse => omega
    case isTrue hbig =>
      have hpos : 0 < k := by
        rcases Nat.eq_zero_or_pos k with rfl | hk
        · simp at h; omega
        · exact hk
      have hdiv : value / 128 < 128 ^ k := by
        rw [pow_succ] at h
        exact Nat.div_lt_of_lt_mul (by rwa [Nat.mul_comm] at h)
      have := ih (value / 128) hpos hdiv
      omega

/-- A signed number reads back, and the bytes after it are left. -/
theorem decode_encode_sleb (value : ℤ) (rest : List UInt8) :
    decodeSleb (encodeSleb value ++ rest) = some (value, rest) := by
  obtain ⟨n, hn⟩ : ∃ n, n = value.natAbs := ⟨_, rfl⟩
  induction n using Nat.strongRecOn generalizing value with
  | ind n ih =>
    obtain ⟨g, hg⟩ : ∃ g, g = (value % 128).toNat := ⟨_, rfl⟩
    have hlt : g < 128 := by omega
    rw [encodeSleb, ← hg]
    split
    case isTrue hlast =>
      have hb := group_toNat g hlt
      rcases hlast with ⟨hz, hpos⟩ | ⟨hm, hneg⟩
      · have : g.toUInt8 < 0x40 := UInt8.lt_iff_toNat_lt.mpr (by rw [hb]; simp; omega)
        have hval : (g : ℤ) = value := by omega
        simp only [List.singleton_append, decodeSleb, this, if_true, hb, hval]
      · have h40 : ¬ g.toUInt8 < 0x40 := fun h => by
          have := UInt8.lt_iff_toNat_lt.mp h
          rw [hb] at this; simp at this; omega
        have h80 : g.toUInt8 < 0x80 := UInt8.lt_iff_toNat_lt.mpr (by rw [hb]; simp; omega)
        have hval : (g : ℤ) - 128 = value := by omega
        simp only [List.singleton_append, decodeSleb, h40, h80, if_true, if_false, hb, hval]
    case isFalse hmore =>
      have hb := more_toNat g hlt
      have h80 : ¬ (g.toUInt8 ||| 0x80) < 0x80 := fun h => by
        have := UInt8.lt_iff_toNat_lt.mp h
        rw [hb] at this; simp at this
      have h40 : ¬ (g.toUInt8 ||| 0x80) < 0x40 := fun h => by
        have := UInt8.lt_iff_toNat_lt.mp h
        rw [hb] at this; simp at this; omega
      have hi := ih _ (by rw [hn]; exact sleb_shrinks value hmore) (value / 128) rfl
      have hval : ((g + 128 : ℕ) : ℤ) - 128 + 128 * (value / 128) = value := by omega
      simp only [List.cons_append, decodeSleb, h40, h80, if_false, hi, Option.map_some, hb, hval]

end MoldMacho.Leb128
