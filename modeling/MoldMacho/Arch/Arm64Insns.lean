import Mathlib.Tactic.IntervalCases
import MoldMacho.Arch.Relocs

/-!
# arm64 instructions

The immediates relocations fill, and what an instruction that holds them
computes: an adrp's page, the offset of an add, a load or a store, a
branch's destination, and where a thunk entry jumps.
-/

set_option autoImplicit false

namespace MoldMacho.Arch.Arm64

open BitFields

def bImm : BitVec 32 := 0x03ffffff#32
def adrpImm : BitVec 32 := 0x60ffffe0#32
def imm12 : BitVec 32 := 0x003ffc00#32

def bits (value : BitVec 64) (hi lo : ℕ) : BitVec 64 :=
  (value >>> lo) &&& ((1#64 <<< (hi-lo+1)) - 1#64)

def page (val : Addr) : Addr := val &&& ~~~0xfff#64

/-- The adrp immediate for reaching `hi`'s page from `lo`'s page. -/
def pageOffset (hi lo : Addr) : BitVec 32 :=
  ((bits (page hi - page lo) 13 12 <<< 29) ||| (bits (page hi - page lo) 32 14 <<< 5)).setWidth 32

def writeAdrp (insn : BitVec 32) (hi lo : Addr) : BitVec 32 :=
  insn &&& ~~~adrpImm ||| pageOffset hi lo

def adrpReaches (hi lo : Addr) : Bool :=
  decide (-2^32 ≤ (page hi - page lo).toInt ∧ (page hi - page lo).toInt < 2^32)

/-- "ldr Xt|Wt, [Xn, #imm]". -/
def isLdrImm (insn : BitVec 32) : Bool := insn &&& 0xbfc00000#32 == 0xb9400000#32

def isLdst (insn : BitVec 32) : Bool := insn &&& 0x3b000000#32 == 0x39000000#32

/-- The access size of a load or store, as a power of two. -/
def scale (insn : BitVec 32) : ℕ :=
  if isLdst insn then
    let scale := (insn.extractLsb' 30 2).toNat
    -- vector and byte accesses share the same size bits
    if scale = 0 ∧ insn &&& 0x04800000#32 = 0x04800000#32 then 4 else scale
  else 0

/-- Puts an immediate in an add, a load or a store, or fails with the access
size that does not divide the target. -/
def writeAddLdst (insn : BitVec 32) (val : BitVec 64) : Except ℕ (BitVec 32) :=
  if 0 < scale insn ∧ val &&& ((1#64 <<< scale insn) - 1#64) ≠ 0#64 then .error (2^scale insn)
  else .ok (insn &&& ~~~imm12 ||| ((bits val 11 (scale insn)).setWidth 32) <<< 10)

/-- A load of `parse_ldst`: whether it is a store, and its access size. -/
def parseLdst (insn : BitVec 32) : Option (Bool × ℕ) :=
  if isLdst insn then
    let isFloat : Bool := insn &&& 0x04000000#32 != 0#32
    let op := insn &&& 0xc0c00000#32
    if op = 0x00000000#32 then some (true,1)
    else if op = 0x00400000#32 then some (false,1)
    else if op = 0x00800000#32 ∧ isFloat then some (true,16)
    else if op = 0x00c00000#32 ∧ isFloat then some (false,16)
    else if op = 0x00800000#32 ∨ op = 0x00c00000#32 then some (false,1)
    else if op = 0x40000000#32 then some (true,2)
    else if op = 0x40400000#32 ∨ op = 0x40800000#32 ∨ op = 0x40c00000#32 then some (false,2)
    else if op = 0x80000000#32 then some (true,4)
    else if op = 0x80400000#32 ∨ op = 0x80800000#32 then some (false,4)
    else if op = 0xc0000000#32 then some (true,8)
    else if op = 0xc0400000#32 then some (false,8)
    else none
  else none

def thunkEntry (target entAddr : Addr) : List (BitVec 32) :=
  [0x90000010#32 ||| pageOffset target entAddr,
    0x91000210#32 ||| ((bits target 11 0).setWidth 32) <<< 10,
    0xd61f0200#32]

section Meaning

/-! ## As executed -/

/-- The page an adrp at `pc` computes. -/
def adrpPage (insn : BitVec 32) (pc : Addr) : Addr :=
  page pc + BitVec.ofInt 64 (2^12*(insn.extractLsb' 5 19 ++ insn.extractLsb' 29 2).toInt)

/-- Where a b or bl at `pc` goes. -/
def branchDest (insn : BitVec 32) (pc : Addr) : Addr :=
  pc + BitVec.ofInt 64 (4*(insn.extractLsb' 0 26).toInt)

/-- "add", with an unshifted immediate. -/
def isAddImm (insn : BitVec 32) : Bool := insn &&& 0x5fc00000#32 == 0x11000000#32

/-- What an add, a load or a store adds to its base register. -/
def immOffset (insn : BitVec 32) : Option ℕ :=
  if isLdst insn then some ((insn.extractLsb' 10 12).toNat*2^scale insn)
  else if isAddImm insn then some (insn.extractLsb' 10 12).toNat
  else none

/-- Where "adrp x16, …; add x16, x16, …; br x16" at `pc` jumps. -/
def jumpDest (pc : Addr) : List (BitVec 32) → Option Addr
  | [adrp,add,br] =>
    if adrp &&& ~~~adrpImm = 0x90000010#32 ∧ add &&& ~~~imm12 = 0x91000210#32 ∧ br = 0xd61f0200#32
    then some (adrpPage adrp pc + (add.extractLsb' 10 12).setWidth 64)
    else none
  | _ => none

end Meaning

section Fields

theorem bits_to_nat (value : BitVec 64) {hi lo : ℕ} (h : hi-lo < 63) :
    (bits value hi lo).toNat = value.toNat / 2^lo % 2^(hi-lo+1) := by
  have hlt : 2^(hi-lo+1) < 2^64 := Nat.pow_lt_pow_right (by omega) (by omega)
  have hone : ((1#64 <<< (hi-lo+1)) - 1#64).toNat = 2^(hi-lo+1)-1 := by
    rw [BitVec.toNat_sub, BitVec.toNat_shiftLeft, BitVec.toNat_ofNat, Nat.shiftLeft_eq]
    have hpos := Nat.two_pow_pos (hi-lo+1)
    rw [show 1 % 2^64 * 2^(hi-lo+1) = 2^(hi-lo+1) by omega, Nat.mod_eq_of_lt hlt,
      show 2^64-1 % 2^64+2^(hi-lo+1) = 2^64+(2^(hi-lo+1)-1) by omega, Nat.add_mod_left,
      Nat.mod_eq_of_lt (by omega)]
  rw [bits, BitVec.toNat_and, hone, BitVec.toNat_ushiftRight, Nat.shiftRight_eq_div_pow,
    Nat.and_two_pow_sub_one_eq_mod]

/-- A run of bits as a field in place. -/
theorem bits_place (value : BitVec 64) {hi lo at' : ℕ} (h : hi-lo < 63) :
    (bits value hi lo).setWidth 32 <<< at' = place 32 at' (value.extractLsb' lo (hi-lo+1)) := by
  rw [place]
  congr 1
  apply BitVec.eq_of_toNat_eq
  rw [BitVec.toNat_setWidth, BitVec.toNat_setWidth, bits_to_nat value h, BitVec.extractLsb'_toNat,
    Nat.shiftRight_eq_div_pow]

theorem page_to_nat (val : Addr) : (page val).toNat = val.toNat / 2^12 * 2^12 := by
  have h : page val = (val >>> 12) <<< 12 := by
    rw [page, BitVec.shiftLeft_ushiftRight]
    congr 1
  rw [h, BitVec.toNat_shiftLeft, BitVec.toNat_ushiftRight, Nat.shiftRight_eq_div_pow,
    Nat.shiftLeft_eq, Nat.mod_eq_of_lt]
  have := val.isLt
  omega

/-- A page and the offset into it are the address. -/
theorem page_add (val : Addr) : page val + (val.extractLsb' 0 12).setWidth 64 = val := by
  apply BitVec.eq_of_toNat_eq
  rw [BitVec.toNat_add, page_to_nat, BitVec.toNat_setWidth, BitVec.extractLsb'_toNat,
    Nat.shiftRight_zero]
  have := val.isLt
  omega

/-- The distance of two pages, by its integer value. -/
theorem page_distance (hi lo : Addr) : (2^12 : ℤ) ∣ (page hi - page lo).toInt := by
  have h : ((page hi - page lo).toNat : ℤ) % 2^12 = 0 := by
    rw [BitVec.toNat_sub, page_to_nat, page_to_nat]
    have := hi.isLt
    have := lo.isLt
    omega
  rw [BitVec.toInt_eq_toNat_cond]
  split
  all_goals omega

theorem page_offset_fields (hi lo : Addr) :
    pageOffset hi lo = place 32 29 ((page hi - page lo).extractLsb' 12 2) |||
      place 32 5 ((page hi - page lo).extractLsb' 14 19) := by
  rw [pageOffset, BitVec.setWidth_or, BitVec.setWidth_shiftLeft_of_le (by omega),
    BitVec.setWidth_shiftLeft_of_le (by omega), bits_place _ (by omega), bits_place _ (by omega)]

end Fields

section Immediates

/-! ## What a write leaves and what it means -/

theorem page_offset_outside (hi lo : Addr) : pageOffset hi lo &&& ~~~adrpImm = 0#32 := by
  have hmask : ∀ {b : BitVec 32} {at' n : ℕ} (v : BitVec n), mask 32 at' n &&& ~~~adrpImm = 0#32 →
      b = place 32 at' v → b &&& ~~~adrpImm = 0#32 := by
    rintro b at' n v hm rfl
    have h := and_of_outside (k := ~~~adrpImm) (m := mask 32 at' n)
      (show place 32 at' v &&& ~~~mask 32 at' n = 0#32 &&& ~~~mask 32 at' n by
        rw [place_outside, BitVec.zero_and]) (by rw [BitVec.and_comm, hm])
    rw [h, BitVec.zero_and]
  rw [page_offset_fields, BitVec.and_comm, BitVec.and_or_distrib_left, BitVec.and_comm,
    hmask _ (by decide) rfl, BitVec.zero_or, BitVec.and_comm, hmask _ (by decide) rfl]

theorem write_adrp_outside (insn : BitVec 32) (hi lo : Addr) :
    writeAdrp insn hi lo &&& ~~~adrpImm = insn &&& ~~~adrpImm :=
  write_outside insn adrpImm _ (page_offset_outside hi lo)

/-- An adrp under whose mask the offset of a page in reach was put computes
that page. -/
theorem adrp_page_of (insn : BitVec 32) {hi lo : Addr} (h : adrpReaches hi lo = true) :
    adrpPage (insn &&& ~~~adrpImm ||| pageOffset hi lo) lo = page hi := by
  have hreach : -(2^(12+20) : ℤ) ≤ (page hi - page lo).toInt ∧
      (page hi - page lo).toInt < 2^(12+20) := by
    have h := of_decide_eq_true h
    omega
  have hlow : (insn &&& ~~~adrpImm ||| pageOffset hi lo).extractLsb' 29 2 =
      (page hi - page lo).extractLsb' 12 2 := by
    rw [page_offset_fields]
    apply extract_write _ _ _ (by omega) (by decide)
    have hp := place_outside 32 5 ((page hi - page lo).extractLsb' 14 19)
    have hq := and_of_outside (k := mask 32 29 2) (m := mask 32 5 19)
      (hp.trans (BitVec.zero_and).symm) (by decide)
    rw [hq, BitVec.zero_and]
  have hhigh : (insn &&& ~~~adrpImm ||| pageOffset hi lo).extractLsb' 5 19 =
      (page hi - page lo).extractLsb' 14 19 := by
    rw [page_offset_fields, BitVec.or_comm (place 32 29 _)]
    apply extract_write _ _ _ (by omega) (by decide)
    have hp := place_outside 32 29 ((page hi - page lo).extractLsb' 12 2)
    have hq := and_of_outside (k := mask 32 5 19) (m := mask 32 29 2)
      (hp.trans (BitVec.zero_and).symm) (by decide)
    rw [hq, BitVec.zero_and]
  have hval : (2^12 : ℤ)*((page hi - page lo).toInt / 2^12) = (page hi - page lo).toInt :=
    Int.mul_ediv_cancel' (page_distance hi lo)
  rw [adrpPage, hlow, hhigh, extract_join (page hi - page lo) 12 2 19,
    toInt_extract _ (by omega) hreach.1 hreach.2, hval, BitVec.ofInt_toInt]
  bv_omega

theorem adrp_page_write (insn : BitVec 32) {hi lo : Addr} (h : adrpReaches hi lo = true) :
    adrpPage (writeAdrp insn hi lo) lo = page hi :=
  adrp_page_of insn h

/-- The distances a b or bl reaches. -/
def BranchReaches (val : BitVec 64) : Prop := -2^27 ≤ val.toInt ∧ val.toInt < 2^27

instance (val : BitVec 64) : Decidable (BranchReaches val) :=
  inferInstanceAs (Decidable (_ ∧ _))

def writeBranch (insn : BitVec 32) (val : BitVec 64) : BitVec 32 :=
  insn &&& ~~~bImm ||| (bits val 27 2).setWidth 32

theorem write_branch_eq (insn : BitVec 32) (val : BitVec 64) :
    writeBranch insn val = insn &&& ~~~bImm ||| place 32 0 (val.extractLsb' 2 26) := by
  have h : (bits val 27 2).setWidth 32 <<< 0 = place 32 0 (val.extractLsb' 2 26) :=
    bits_place val (by omega)
  rw [writeBranch, ← h, BitVec.shiftLeft_zero]

theorem write_branch_outside (insn : BitVec 32) (val : BitVec 64) :
    writeBranch insn val &&& ~~~bImm = insn &&& ~~~bImm := by
  rw [write_branch_eq]
  exact write_outside insn bImm _ (place_outside 32 0 (val.extractLsb' 2 26))

/-- A branch in reach of a whole number of instructions goes there. -/
theorem branch_dest_write (insn : BitVec 32) {val : BitVec 64} (pc : Addr)
    (hreach : BranchReaches val) (halign : (4 : ℤ) ∣ val.toInt) :
    branchDest (writeBranch insn val) pc = pc + val := by
  have hfield : (writeBranch insn val).extractLsb' 0 26 = val.extractLsb' 2 26 := by
    rw [write_branch_eq, ← BitVec.or_zero (x := place 32 0 _)]
    exact extract_write _ _ _ (by omega) (by decide) 0#32 (by simp)
  have hval : (4 : ℤ)*(val.toInt / 2^2) = val.toInt := Int.mul_ediv_cancel' halign
  rw [branchDest, hfield, toInt_extract val (by omega) (by have := hreach.1; omega)
    (by have := hreach.2; omega), hval, BitVec.ofInt_toInt]

theorem imm12_extract (insn : BitVec 32) (v : BitVec 12) :
    (insn &&& ~~~imm12 ||| place 32 10 v).extractLsb' 10 12 = v := by
  rw [← BitVec.or_zero (x := place 32 10 v)]
  exact extract_write _ _ _ (by omega) (by decide) 0#32 (by simp)

theorem imm12_outside (insn : BitVec 32) (v : BitVec 12) :
    (insn &&& ~~~imm12 ||| place 32 10 v) &&& ~~~imm12 = insn &&& ~~~imm12 :=
  write_outside insn imm12 _ (place_outside 32 10 v)

theorem is_ldst_of_outside {x y : BitVec 32} (h : x &&& ~~~imm12 = y &&& ~~~imm12) :
    isLdst x = isLdst y := by
  rw [isLdst, isLdst, and_of_outside h (by decide)]

theorem is_add_of_outside {x y : BitVec 32} (h : x &&& ~~~imm12 = y &&& ~~~imm12) :
    isAddImm x = isAddImm y := by
  rw [isAddImm, isAddImm, and_of_outside h (by decide)]

theorem scale_of_outside {x y : BitVec 32} (h : x &&& ~~~imm12 = y &&& ~~~imm12) :
    scale x = scale y := by
  have hsize : x.extractLsb' 30 2 = y.extractLsb' 30 2 := extract_of_outside h (by decide)
  rw [scale, scale, is_ldst_of_outside h, hsize,
    and_of_outside h (k := 0x04800000#32) (by decide)]

theorem scale_le (insn : BitVec 32) : scale insn ≤ 4 := by
  have hlt := (insn.extractLsb' 30 2).isLt
  unfold scale
  split
  · dsimp only
    split
    all_goals omega
  · omega

/-- Bits `s` to 11 of an address an access of size `2^s` divides, scaled. -/
theorem page_bits_scaled (val : BitVec 64) {s : ℕ} (hs : s ≤ 4)
    (halign : 2^s ∣ val.toNat) :
    ((bits val 11 s).setWidth 12).toNat*2^s = val.toNat % 2^12 := by
  rw [BitVec.toNat_setWidth, bits_to_nat val (by omega)]
  obtain ⟨k,hk⟩ := halign
  rw [hk]
  interval_cases s
  all_goals omega

theorem aligned_of_mask (val : BitVec 64) {s : ℕ} (hs : s ≤ 4)
    (h : ¬(0 < s ∧ val &&& ((1#64 <<< s) - 1#64) ≠ 0#64)) : 2^s ∣ val.toNat := by
  have hmask : ∀ m : BitVec 64, m.toNat = 2^s-1 → val &&& m = 0#64 → 2^s ∣ val.toNat := by
    intro m hm hz
    have hand := congrArg BitVec.toNat hz
    rw [BitVec.toNat_and, hm, Nat.and_two_pow_sub_one_eq_mod] at hand
    exact Nat.dvd_of_mod_eq_zero hand
  interval_cases s
  · exact one_dvd _
  all_goals exact hmask _ rfl (by simpa using h)

/-- The bits put in an immediate, as a field. -/
theorem imm_place (val : BitVec 64) {s : ℕ} :
    ((bits val 11 s).setWidth 32) <<< 10 = place 32 10 ((bits val 11 s).setWidth 12) := by
  have hlt : (bits val 11 s).toNat < 2^12 := by
    rw [bits_to_nat val (by omega)]
    calc _ < 2^(11-s+1) := Nat.mod_lt _ (Nat.two_pow_pos _)
      _ ≤ 2^12 := Nat.pow_le_pow_right (by omega) (by omega)
  rw [place]
  congr 1
  apply BitVec.eq_of_toNat_eq
  simp only [BitVec.toNat_setWidth]
  omega

theorem write_add_ldst_outside {insn out : BitVec 32} {val : BitVec 64}
    (h : writeAddLdst insn val = .ok out) : out &&& ~~~imm12 = insn &&& ~~~imm12 := by
  rw [writeAddLdst] at h
  split at h
  · cases h
  · obtain rfl := Except.ok.inj h
    rw [imm_place]
    exact imm12_outside insn _

/-- An immediate that was put in an add, a load or a store adds the
address's offset in its page. -/
theorem imm_offset_write {insn out : BitVec 32} {val : BitVec 64}
    (h : writeAddLdst insn val = .ok out) (hinsn : (immOffset insn).isSome) :
    immOffset out = some (val.toNat % 2^12) := by
  have houtside := write_add_ldst_outside h
  rw [writeAddLdst] at h
  split at h
  · cases h
  case isFalse haligned =>
    obtain rfl := Except.ok.inj h
    have hdvd := aligned_of_mask val (scale_le insn) haligned
    have hval := page_bits_scaled val (scale_le insn) hdvd
    rw [immOffset, is_ldst_of_outside houtside, is_add_of_outside houtside,
      scale_of_outside houtside, imm_place, imm12_extract, hval]
    unfold immOffset at hinsn
    by_cases hl : isLdst insn = true
    · rw [if_pos hl]
    · have hscale : scale insn = 0 := by rw [scale, if_neg hl]
      rw [if_neg hl] at hinsn ⊢
      by_cases ha : isAddImm insn = true
      · rw [if_pos ha, ← hval, hscale, pow_zero, Nat.mul_one]
      · simp [ha] at hinsn

def relaxedAdd (insn : BitVec 32) (target : Addr) : BitVec 32 :=
  0x91000000#32 ||| (insn &&& 0x3ff#32) ||| ((target.setWidth 32 &&& 0xfff#32) <<< 10)

/-- Of a relaxed add's opcode, what lies off its registers. -/
theorem relaxed_op (insn : BitVec 32) {k : BitVec 32} (hk : 0x3ff#32 &&& k = 0#32) :
    (0x91000000#32 ||| (insn &&& 0x3ff#32)) &&& k = 0x91000000#32 &&& k := by
  rw [BitVec.and_comm, BitVec.and_or_distrib_left, BitVec.and_comm k (insn &&& _),
    BitVec.and_assoc, hk, BitVec.and_zero, BitVec.or_zero, BitVec.and_comm]

theorem relaxed_op_outside (insn : BitVec 32) :
    (0x91000000#32 ||| (insn &&& 0x3ff#32)) &&& ~~~imm12 =
      0x91000000#32 ||| (insn &&& 0x3ff#32) := by
  rw [BitVec.and_comm, BitVec.and_or_distrib_left, BitVec.and_comm _ (insn &&& _),
    BitVec.and_assoc]
  congr 1

theorem relaxed_add_place (insn : BitVec 32) (target : Addr) :
    relaxedAdd insn target =
      (0x91000000#32 ||| (insn &&& 0x3ff#32)) &&& ~~~imm12 |||
        place 32 10 (target.extractLsb' 0 12) := by
  rw [relaxedAdd, relaxed_op_outside, place]
  congr 2
  apply BitVec.eq_of_toNat_eq
  simp only [BitVec.toNat_setWidth, BitVec.toNat_and, BitVec.extractLsb'_toNat, BitVec.toNat_ofNat,
    Nat.shiftRight_zero]
  rw [show 0xfff % 2^32 = 2^12-1 by norm_num, Nat.and_two_pow_sub_one_eq_mod]
  omega

theorem relaxed_add_outside (insn : BitVec 32) (target : Addr) :
    relaxedAdd insn target &&& ~~~imm12 = 0x91000000#32 ||| (insn &&& 0x3ff#32) := by
  rw [relaxed_add_place, imm12_outside, relaxed_op_outside]

theorem relaxed_add_offset (insn : BitVec 32) (target : Addr) :
    immOffset (relaxedAdd insn target) = some (target.toNat % 2^12) := by
  have hout : relaxedAdd insn target &&& ~~~imm12 =
      (0x91000000#32 ||| (insn &&& 0x3ff#32)) &&& ~~~imm12 := by
    rw [relaxed_add_place, imm12_outside]
  have hldst : isLdst (relaxedAdd insn target) = false := by
    rw [is_ldst_of_outside hout, isLdst, relaxed_op insn (by decide)]
    rfl
  have hadd : isAddImm (relaxedAdd insn target) = true := by
    rw [is_add_of_outside hout, isAddImm, relaxed_op insn (by decide)]
    rfl
  rw [immOffset, hldst, hadd, relaxed_add_place, imm12_extract, BitVec.extractLsb'_toNat]
  rfl

/-- A thunk entry in reach of its target jumps there. -/
theorem thunk_entry_jumps {target ent : Addr} (h : adrpReaches target ent = true) :
    jumpDest ent (thunkEntry target ent) = some target := by
  have hadrp : 0x90000010#32 ||| pageOffset target ent =
      0x90000010#32 &&& ~~~adrpImm ||| pageOffset target ent := by congr 1
  have hadd : 0x91000210#32 ||| ((bits target 11 0).setWidth 32) <<< 10 =
      0x91000210#32 &&& ~~~imm12 ||| place 32 10 (target.extractLsb' 0 12) := by
    rw [bits_place target (by omega)]
    congr 1
  rw [thunkEntry, hadrp, hadd, jumpDest, write_outside _ _ _ (page_offset_outside target ent),
    imm12_outside, if_pos (by decide), imm12_extract, adrp_page_of _ h, page_add]

end Immediates

end MoldMacho.Arch.Arm64
