import MoldMacho.Lib.Bytes
import MoldMacho.Util.LebLoops

/-!
# Reading a section

A reader at a position of some bytes, each of whose operations gives a value and
moves it past that, or finds too few bytes.
-/

set_option autoImplicit false

namespace MoldMacho.Dwarf
open Bytes Leb128

structure Reader where
  data : List UInt8
  pos : ℕ := 0

abbrev Read := StateT Reader Option

namespace Reader

/-- The bytes that it has not read. -/
def rest (r : Reader) : List UInt8 := r.data.drop r.pos

/-- The next `n` bytes, which the reader moves past. -/
def take (n : ℕ) : Read (List UInt8) := fun r =>
  -- an end past 2^64, which the code checks for, is past the data
  (bytesAt r.data r.pos n).map fun bytes => (bytes,{ r with pos := r.pos+n })

def u8 : Read UInt8 := fun r =>
  (take 1 r).bind fun (bytes,next) => bytes.head?.map fun b => (b,next)

theorem u8_rest (r : Reader) :
    u8 r = r.rest.head?.map fun b => (b,{ r with pos := r.pos+1 }) := by
  rw [u8, take, bytesAt, rest]
  split
  · next hle =>
    rw [Option.map_some, Option.bind_some]
    dsimp only
    rw [List.head?_take, if_neg (by decide)]
  · next hgt =>
    rw [List.drop_eq_nil_of_le (by omega)]
    rfl

theorem u8_cons {r : Reader} {b : UInt8} {l : List UInt8} (h : r.rest = b::l) :
    u8 r = some (b,{ r with pos := r.pos+1 }) ∧ { r with pos := r.pos+1 : Reader }.rest = l := by
  constructor
  · rw [u8_rest, h]
    rfl
  · rw [rest, ← List.drop_drop, ← rest, h]
    rfl

theorem u8_shrinks {r next : Reader} {b : UInt8} (h : u8 r = some (b,next)) :
    next.data.length - next.pos < r.data.length - r.pos := by
  rw [u8_rest] at h
  obtain ⟨b',hb,heq⟩ := Option.map_eq_some_iff.1 h
  cases heq
  rw [rest, List.head?_drop] at hb
  have hlt := (List.getElem?_eq_some_iff.1 hb).1
  dsimp only
  omega

def ulebFrom (val : BitVec 64) (shift : BitVec 32) (r : Reader) : Option (BitVec 64 × Reader) :=
  match h : u8 r with
  | none => none
  | some (b,next) =>
    let val := orGroup val shift b
    if b &&& 0x80 = 0 then some (val,next) else ulebFrom val (shift+7) next
termination_by r.data.length - r.pos
decreasing_by exact u8_shrinks h

def uleb : Read (BitVec 64) := ulebFrom 0 0

/-- The bits of the sign, past the last group. -/
def signBits (shift : BitVec 32) (b : UInt8) : BitVec 64 :=
  if shift.slt 64 ∧ b &&& 0x40 ≠ 0 then (-1#64) <<< (shift.toNat % 64) else 0

def slebFrom (val : BitVec 64) (shift : BitVec 32) (r : Reader) : Option (BitVec 64 × Reader) :=
  match h : u8 r with
  | none => none
  | some (b,next) =>
    let val := orGroup val shift b
    if b &&& 0x80 = 0 then some (val ||| signBits (shift+7) b,next)
    else slebFrom val (shift+7) next
termination_by r.data.length - r.pos
decreasing_by exact u8_shrinks h

def sleb : Read (BitVec 64) := slebFrom 0 0

/-! ## LEB128 -/

theorem u8_nil {r : Reader} (h : r.rest = []) : u8 r = none := by
  rw [u8_rest, h]
  rfl

theorem rest_length (r : Reader) : r.rest.length = r.data.length - r.pos := List.length_drop

/-- A reader is where it has left what it has not read. -/
theorem pos_of_rest {r : Reader} {b : UInt8} {l : List UInt8} (h : r.rest = b::l) :
    r.pos+1 = r.data.length - l.length := by
  have hlen := rest_length r
  rw [h, List.length_cons] at hlen
  omega

theorem uleb_from_nil {val : BitVec 64} {shift : BitVec 32} {r : Reader} (h : r.rest = []) :
    ulebFrom val shift r = none := by
  rw [ulebFrom]
  split
  · rfl
  · next hread =>
    rw [u8_nil h] at hread
    cases hread

theorem uleb_from_cons {val : BitVec 64} {shift : BitVec 32} {r : Reader} {b : UInt8}
    {l : List UInt8} (h : r.rest = b::l) :
    ulebFrom val shift r =
      if b &&& 0x80 = 0 then some (orGroup val shift b,{ r with pos := r.pos+1 })
      else ulebFrom (orGroup val shift b) (shift+7) { r with pos := r.pos+1 } := by
  have hb := (u8_cons h).1
  rw [ulebFrom]
  split
  · next hread =>
    rw [hb] at hread
    cases hread
  · next b' next hread =>
    rw [hb] at hread
    cases hread
    rfl

theorem sleb_from_nil {val : BitVec 64} {shift : BitVec 32} {r : Reader} (h : r.rest = []) :
    slebFrom val shift r = none := by
  rw [slebFrom]
  split
  · rfl
  · next hread =>
    rw [u8_nil h] at hread
    cases hread

theorem sleb_from_cons {val : BitVec 64} {shift : BitVec 32} {r : Reader} {b : UInt8}
    {l : List UInt8} (h : r.rest = b::l) :
    slebFrom val shift r =
      if b &&& 0x80 = 0 then
        some (orGroup val shift b ||| signBits (shift+7) b,{ r with pos := r.pos+1 })
      else slebFrom (orGroup val shift b) (shift+7) { r with pos := r.pos+1 } := by
  have hb := (u8_cons h).1
  rw [slebFrom]
  split
  · next hread =>
    rw [hb] at hread
    cases hread
  · next b' next hread =>
    rw [hb] at hread
    cases hread
    rfl

/-- The two loops read alike. -/
theorem uleb_from_rest {l : List UInt8} (val : BitVec 64) (shift : BitVec 32) {r : Reader}
    (h : r.rest = l) :
    ulebFrom val shift r = (readUlebFrom val shift l).map fun (v,rest) =>
      (v,{ r with pos := r.data.length - rest.length }) := by
  induction l generalizing val shift r with
  | nil => exact uleb_from_nil h
  | cons b l ih =>
    rw [uleb_from_cons h, readUlebFrom]
    by_cases hlast : b &&& 0x80 = 0
    · rw [if_pos hlast, if_pos hlast, Option.map_some, pos_of_rest h]
    · rw [if_neg hlast, if_neg hlast]
      exact ih _ _ (u8_cons h).2

theorem sign_bits {s : ℕ} (hs : s < 2^31) (b : UInt8) :
    signBits (BitVec.ofNat 32 s) b = if b &&& 0x40 = 0 then 0 else BitVec.ofInt 64 (-1) <<< s := by
  have hslt := shift_slt hs
  rw [signBits]
  by_cases hb : b &&& 0x40 = 0
  · rw [if_neg (fun h => h.2 hb), if_pos hb]
  · rw [if_neg hb]
    by_cases h : s < 64
    · rw [if_pos ⟨hslt.trans (decide_eq_true h),hb⟩, BitVec.toNat_ofNat,
        @Nat.mod_eq_of_lt s (2^32) (by omega), Nat.mod_eq_of_lt h]
      rfl
    · rw [if_neg (fun hlt => h (of_decide_eq_true (hslt.symm.trans hlt.1))),
        BitVec.shiftLeft_eq_zero (by omega)]
      rfl

theorem sign_clear {b : UInt8} (hb : b < 0x80) : b &&& 0x40 = 0 ↔ b < 0x40 := by
  revert b
  decide +kernel

theorem decode_sleb_shorter {l rest : List UInt8} {n : ℤ} (h : decodeSleb l = some (n,rest)) :
    rest.length < l.length := by
  induction l generalizing n rest with
  | nil => cases h
  | cons b l ih =>
    rw [decodeSleb] at h
    split at h
    · cases h
      exact Nat.lt_succ_self _
    · split at h
      · cases h
        exact Nat.lt_succ_self _
      · obtain ⟨⟨m,rest'⟩,hdecode,heq⟩ := Option.map_eq_some_iff.1 h
        cases heq
        exact (ih hdecode).trans (Nat.lt_succ_self _)

theorem sleb_from_rest {value : BitVec 64} {s : ℕ} {n : ℤ} {l rest : List UInt8}
    (h : decodeSleb l = some (n,rest)) (hs : s + 7*l.length < 2^31 + 7*rest.length) {r : Reader}
    (hr : r.rest = l) :
    slebFrom value (BitVec.ofNat 32 s) r =
      some (value ||| BitVec.ofInt 64 n <<< s,{ r with pos := r.data.length - rest.length }) := by
  induction l generalizing value s n r with
  | nil => cases h
  | cons b l ih =>
    have hshorter := decode_sleb_shorter h
    have hlt : s < 2^31 := by omega
    rw [List.length_cons] at hs hshorter
    rw [decodeSleb] at h
    rw [sleb_from_cons hr, or_group value b hlt, shift_add]
    split at h
    · next hlow =>
      cases h
      have hlast : b < 0x80 := UInt8.lt_trans hlow (by decide)
      have hb128 : b.toNat < 128 := UInt8.lt_iff_toNat_lt.1 hlast
      rw [if_pos ((high_clear b).2 hlast), sign_bits (by omega),
        if_pos ((sign_clear hlast).2 hlow), pos_of_rest hr, Nat.mod_eq_of_lt hb128,
        BitVec.ofInt_natCast]
      exact congrArg (fun v => some (v,_)) BitVec.or_zero
    · next hhigh =>
      split at h
      · next hlast =>
        cases h
        have hval : ((b.toNat % 128 : ℕ) : ℤ) + 128*(-1) = (b.toNat : ℤ) - 128 := by
          have hb128 : b.toNat < 128 := UInt8.lt_iff_toNat_lt.1 hlast
          omega
        rw [if_pos ((high_clear b).2 hlast), sign_bits (by omega),
          if_neg (fun h => hhigh ((sign_clear hlast).1 h)), pos_of_rest hr,
          group_shift value (Nat.mod_lt _ (by decide)), hval]
      · next hmore =>
        obtain ⟨⟨m,rest'⟩,hdecode,heq⟩ := Option.map_eq_some_iff.1 h
        cases heq
        have hval : ((b.toNat % 128 : ℕ) : ℤ) + 128*m = (b.toNat : ℤ) - 128 + 128*m := by
          have hbyte := b.toNat_lt
          have hb128 : 128 ≤ b.toNat := by
            rw [UInt8.lt_iff_toNat_lt] at hmore
            exact Nat.not_lt.1 hmore
          omega
        rw [if_neg (fun hzero => hmore ((high_clear b).1 hzero)),
          ih hdecode (by omega) (u8_cons hr).2, group_shift value (Nat.mod_lt _ (by decide)), hval]

/-- A number of 64 bits is read back, and the reader is past it. -/
theorem sleb_encode {v : ℤ} (hlow : -2^63 ≤ v) (hhigh : v < 2^63) (pre rest : List UInt8) :
    sleb { data := pre ++ encodeSleb v ++ rest, pos := pre.length } =
      some (BitVec.ofInt 64 v,
        { data := pre ++ encodeSleb v ++ rest, pos := (pre ++ encodeSleb v).length }) := by
  have hlen := encode_sleb_length_le 9 (by omega : -(64*128^9) ≤ v) (by omega)
  have hrest : Reader.rest { data := pre ++ encodeSleb v ++ rest, pos := pre.length } =
      encodeSleb v ++ rest := by
    rw [Reader.rest, List.append_assoc, List.drop_left]
  have hread := @sleb_from_rest 0#64 0 v _ _ (decode_encode_sleb v rest)
    (by rw [List.length_append]; omega) _ hrest
  refine hread.trans ?_
  rw [BitVec.shiftLeft_zero, BitVec.zero_or]
  dsimp only
  rw [@List.length_append _ (pre ++ encodeSleb v) rest, Nat.add_sub_cancel]

end Reader

/-- The writers give the same bytes, as many as their size says; each reader reads a
number of 64 bits back and leaves what follows it; and the two readers of unsigned
numbers agree on all bytes. -/
theorem leb_codecs_agree :
    (∀ (v : UInt64) (buf rest : List UInt8),
      (encodeUleb v.toNat).length = ulebSize v.toNat ∧
      writeUleb buf v.toNat = (if ulebSize v.toNat ≤ buf.length then
        some (encodeUleb v.toNat ++ buf.drop (ulebSize v.toNat),ulebSize v.toNat) else none) ∧
      readUleb (encodeUleb v.toNat ++ rest) = some (v.toBitVec,rest)) ∧
    (∀ (v : Int64) (pre rest : List UInt8),
      Reader.sleb { data := pre ++ encodeSleb v.toInt ++ rest, pos := pre.length } =
        some (v.toBitVec,{ data := pre ++ encodeSleb v.toInt ++ rest
                           pos := (pre ++ encodeSleb v.toInt).length })) ∧
    ∀ r : Reader, r.uleb = (readUleb r.rest).map fun (v,rest) =>
      (v,{ r with pos := r.data.length - rest.length }) := by
  refine ⟨?_,?_,?_⟩
  · intro v buf rest
    refine ⟨encode_uleb_length _,write_uleb _ _,?_⟩
    rw [read_encode_uleb v.toNat_lt rest]
    exact congrArg (fun w => some (w,rest)) (BitVec.ofNat_toNat 64 v.toBitVec)
  · intro v pre rest
    rw [Reader.sleb_encode v.le_toInt v.toInt_lt pre rest]
    exact congrArg (fun w => some (w,_)) BitVec.ofInt_toInt
  · exact fun r => Reader.uleb_from_rest 0 0 rfl

end MoldMacho.Dwarf
