import Mathlib.Algebra.Order.Ring.Int
import Mathlib.Data.FinEnum
import MoldMacho.Util.Leb128

/-!
# The loops that write and read LEB128

A number is written into a buffer, and read by adding the groups of seven bits to a
word of 64. The shift of a group is a signed word of 32 bits, of which a shift takes
six, and bits past the value's 64 are dropped.
-/

set_option autoImplicit false

namespace MoldMacho.Leb128

/-! ## Writing -/

/-- Writes `value` at index `i` of a buffer on, and gives the index past it. -/
def writeUlebFrom (buf : List UInt8) (i value : ℕ) : Option (List UInt8 × ℕ) :=
  let byte := (value % 128).toUInt8
  if i < buf.length then
    if value / 128 = 0 then some (buf.set i byte,i+1)
    else writeUlebFrom (buf.set i (byte ||| 0x80)) (i+1) (value / 128)
  else none
termination_by value
decreasing_by omega

def writeUleb (buf : List UInt8) (value : ℕ) : Option (List UInt8 × ℕ) :=
  writeUlebFrom buf 0 value

theorem uleb_size_last {value : ℕ} (h : value < 128) : ulebSize value = 1 := by
  rw [ulebSize, if_neg (by omega)]

theorem uleb_size_more {value : ℕ} (h : 128 ≤ value) :
    ulebSize value = ulebSize (value / 128) + 1 := by
  rw [ulebSize, if_pos (by omega), Nat.add_comm]

theorem write_uleb_from (value : ℕ) (pre buf : List UInt8) :
    writeUlebFrom (pre ++ buf) pre.length value =
      if ulebSize value ≤ buf.length then
        some (pre ++ encodeUleb value ++ buf.drop (ulebSize value),pre.length + ulebSize value)
      else none := by
  induction value using Nat.strongRecOn generalizing pre buf with
  | ind value ih =>
    rw [writeUlebFrom]
    cases buf with
    | nil =>
      have hsize : 0 < ulebSize value := by
        rw [ulebSize]
        split <;> omega
      rw [if_neg (by simp), if_neg (by rw [List.length_nil]; omega)]
    | cons b buf =>
      have hset (byte : UInt8) : (pre ++ b::buf).set pre.length byte = (pre ++ [byte]) ++ buf := by
        simp
      rw [if_pos (by simp)]
      by_cases h : value < 128
      · rw [if_pos (by omega), hset, uleb_size_last h, if_pos (by simp), encode_uleb_last value h,
          Nat.mod_eq_of_lt h, List.drop_one, List.tail_cons]
      · have hnext := ih (value / 128) (by omega) (pre ++ [(value % 128).toUInt8 ||| 0x80]) buf
        rw [List.length_append, List.length_singleton] at hnext
        rw [if_neg (by omega), hset, hnext, uleb_size_more (show 128 ≤ value by omega),
          encode_uleb_more value (by omega), List.length_cons, List.drop_succ_cons]
        by_cases hroom : ulebSize (value / 128) ≤ buf.length
        · rw [if_pos hroom, if_pos (by omega), Nat.add_assoc, Nat.add_comm 1,
            List.append_assoc pre, List.singleton_append]
        · rw [if_neg hroom, if_neg (by omega)]

/-- The bytes that are written are those of the encoding, if the buffer has room. -/
theorem write_uleb (value : ℕ) (buf : List UInt8) :
    writeUleb buf value =
      if ulebSize value ≤ buf.length then
        some (encodeUleb value ++ buf.drop (ulebSize value),ulebSize value)
      else none := by
  have h := write_uleb_from value [] buf
  simpa [writeUleb] using h

/-! ## Reading -/

/-- Adds a byte's group of seven bits to a value. -/
def orGroup (value : BitVec 64) (shift : BitVec 32) (b : UInt8) : BitVec 64 :=
  if shift.slt 64 then value ||| (b &&& 0x7f).toBitVec.setWidth 64 <<< (shift.toNat % 64) else value

def readUlebFrom (value : BitVec 64) (shift : BitVec 32) :
    List UInt8 → Option (BitVec 64 × List UInt8)
  | [] => none
  | b::rest =>
    let value := orGroup value shift b
    if b &&& 0x80 = 0 then some (value,rest) else readUlebFrom value (shift+7) rest

/-- `read_uleb`: the number at the start of some bytes, and those after it. -/
def readUleb (bytes : List UInt8) : Option (BitVec 64 × List UInt8) := readUlebFrom 0 0 bytes

/-- A byte's high bit says that there are more. -/
theorem high_clear (b : UInt8) : b &&& 0x80 = 0 ↔ b < 0x80 := by
  revert b
  decide +kernel

theorem low_bits (b : UInt8) : (b &&& 0x7f).toNat = b.toNat % 128 := by
  rw [UInt8.toNat_and]
  exact Nat.and_two_pow_sub_one_eq_mod b.toNat 7

theorem shift_slt {s : ℕ} (hs : s < 2^31) : (BitVec.ofNat 32 s).slt 64 = decide (s < 64) := by
  have hval : (BitVec.ofNat 32 s).toInt = s := by
    rw [BitVec.toInt_eq_toNat_of_lt (by rw [BitVec.toNat_ofNat]; omega), BitVec.toNat_ofNat,
      Nat.mod_eq_of_lt (by omega)]
  rw [BitVec.slt, hval]
  exact decide_eq_decide.2 (by change (s:ℤ) < 64 ↔ s < 64; omega)

/-- Where the shift does not overflow, a group is added in its place. -/
theorem or_group (value : BitVec 64) (b : UInt8) {s : ℕ} (hs : s < 2^31) :
    orGroup value (BitVec.ofNat 32 s) b = value ||| BitVec.ofNat 64 (b.toNat % 128) <<< s := by
  have hgroup : (b &&& 0x7f).toBitVec.setWidth 64 = BitVec.ofNat 64 (b.toNat % 128) := by
    apply BitVec.eq_of_toNat_eq
    have hlow := low_bits b
    rw [BitVec.toNat_setWidth, BitVec.toNat_ofNat]
    exact congrArg (· % 2^64) hlow
  rw [orGroup, shift_slt hs, hgroup, BitVec.toNat_ofNat]
  by_cases h : s < 64
  · rw [decide_eq_true h, if_pos rfl, @Nat.mod_eq_of_lt s (2^32) (by omega), Nat.mod_eq_of_lt h]
  · rw [decide_eq_false h, if_neg (by decide), BitVec.shiftLeft_eq_zero (by omega)]
    simp

/-- A group and those after it are the number of all. -/
theorem group_value {g : ℕ} (hg : g < 128) (n : ℤ) :
    BitVec.ofInt 64 (g + 128*n) = BitVec.ofNat 64 g ||| BitVec.ofInt 64 n <<< 7 := by
  have hshift : BitVec.ofInt 64 n <<< 7 = BitVec.ofInt 64 (128*n) := by
    rw [BitVec.shiftLeft_eq_mul_twoPow, BitVec.ofInt_mul, BitVec.mul_comm]
    rfl
  have hapart : BitVec.ofInt 64 n <<< 7 &&& BitVec.ofNat 64 g = 0#64 := by
    apply BitVec.eq_of_getLsbD_eq
    intro i hi
    rw [BitVec.getLsbD_and, BitVec.getLsbD_shiftLeft, BitVec.getLsbD_ofNat, BitVec.getLsbD_zero]
    by_cases h : i < 7
    · simp [h]
    · have hpow : 2^7 ≤ 2^i := Nat.pow_le_pow_right (by decide) (Nat.not_lt.1 h)
      have hhigh : g.testBit i = false := Nat.testBit_lt_two_pow (hg.trans_le hpow)
      simp [hhigh]
  rw [BitVec.ofInt_add, BitVec.add_comm, ← hshift, BitVec.ofInt_natCast,
    BitVec.add_eq_or_of_and_eq_zero _ _ hapart, BitVec.or_comm]

/-- An unfinished group of a value at a shift. -/
theorem group_shift (value : BitVec 64) {g : ℕ} (hg : g < 128) (n : ℤ) (s : ℕ) :
    value ||| BitVec.ofNat 64 g <<< s ||| BitVec.ofInt 64 n <<< (s+7) =
      value ||| BitVec.ofInt 64 (g + 128*n) <<< s := by
  rw [group_value hg, BitVec.shiftLeft_or_distrib, BitVec.or_assoc, Nat.add_comm s 7,
    BitVec.shiftLeft_add]

theorem shift_add (s : ℕ) : BitVec.ofNat 32 s + 7 = BitVec.ofNat 32 (s+7) := by
  rw [BitVec.ofNat_add]
  rfl

theorem decode_uleb_shorter {l rest : List UInt8} {n : ℕ} (h : decodeUleb l = some (n,rest)) :
    rest.length < l.length := by
  induction l generalizing n rest with
  | nil => cases h
  | cons b l ih =>
    rw [decodeUleb] at h
    split at h
    · cases h
      exact Nat.lt_succ_self _
    · obtain ⟨⟨m,rest'⟩,hdecode,heq⟩ := Option.map_eq_some_iff.1 h
      cases heq
      exact (ih hdecode).trans (Nat.lt_succ_self _)

/-- While the shift does not overflow, what is read is the number in its place. -/
theorem read_uleb_from {value : BitVec 64} {s n : ℕ} {l rest : List UInt8}
    (h : decodeUleb l = some (n,rest)) (hs : s + 7*l.length < 2^31 + 7*rest.length) :
    readUlebFrom value (BitVec.ofNat 32 s) l =
      some (value ||| BitVec.ofInt 64 n <<< s,rest) := by
  induction l generalizing value s n with
  | nil => cases h
  | cons b l ih =>
    have hshorter := decode_uleb_shorter h
    have hlt : s < 2^31 := by omega
    rw [List.length_cons] at hs
    rw [decodeUleb] at h
    rw [readUlebFrom, or_group value b hlt]
    split at h
    · next hlast =>
      cases h
      have hb : b.toNat < 128 := UInt8.lt_iff_toNat_lt.1 hlast
      rw [if_pos ((high_clear b).2 hlast), Nat.mod_eq_of_lt hb, BitVec.ofInt_natCast]
    · next hmore =>
      obtain ⟨⟨m,rest'⟩,hdecode,heq⟩ := Option.map_eq_some_iff.1 h
      cases heq
      have hb : 128 ≤ b.toNat := by
        rw [UInt8.lt_iff_toNat_lt] at hmore
        exact Nat.not_lt.1 hmore
      have hval : ((b.toNat % 128 : ℕ) : ℤ) + 128*m = ((b.toNat - 128 + 128*m : ℕ) : ℤ) := by
        have hbyte := b.toNat_lt
        omega
      rw [if_neg (fun hzero => hmore ((high_clear b).1 hzero)), shift_add, ih hdecode (by omega),
        group_shift value (Nat.mod_lt _ (by decide)), hval]

/-- A number of 64 bits is read back, and what follows it is left. -/
theorem read_encode_uleb {v : ℕ} (hv : v < 2^64) (rest : List UInt8) :
    readUleb (encodeUleb v ++ rest) = some (BitVec.ofNat 64 v,rest) := by
  have hsize := uleb_size_le 10 v (by decide) (hv.trans_le (by decide))
  have hlen := encode_uleb_length v
  have hread := @read_uleb_from 0#64 0 v _ _ (decode_encode_uleb v rest)
    (by rw [List.length_append]; omega)
  rw [readUleb]
  refine hread.trans ?_
  rw [BitVec.ofInt_natCast, BitVec.shiftLeft_zero, BitVec.zero_or]

/-- The length of a signed number of `7*k+6` bits and its sign is at most `k+1`. -/
theorem encode_sleb_length_le (k : ℕ) {value : ℤ} (hlow : -(64*128^k) ≤ value)
    (hhigh : value < 64*128^k) : (encodeSleb value).length ≤ k+1 := by
  induction k generalizing value with
  | zero =>
    rw [encodeSleb, if_pos (by omega)]
    rfl
  | succ k ih =>
    rw [encodeSleb]
    split
    · exact Nat.le_add_left _ _
    · rw [List.length_cons]
      rw [pow_succ] at hlow hhigh
      exact Nat.succ_le_succ (ih (by omega) (by omega))

end MoldMacho.Leb128
