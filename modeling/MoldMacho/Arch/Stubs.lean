import MoldMacho.Arch.Arm64Insns
import MoldMacho.Chunks.Opcodes
import MoldMacho.Lib.Pieces

/-!
# Stubs and entries of the stub helper

The code of each, and how it is read. A stub jumps through a pointer; an entry of the stub
helper hands an offset over and goes to the helper's header, which hands a word's address
over and jumps through the binder's slot.
-/

set_option autoImplicit false

namespace MoldMacho.Stubs

open Opcodes Bytes Pieces Arch Arch.Arm64 BitFields

def signExtend (n v : ℕ) : ℤ := if v < 2^(n-1) then v else (v:ℤ)-2^n

/-- A target's stubs and stub helper, and how their code is read: the pointer that a stub
jumps through, what the header hands over and the slot that it jumps through, what an entry
hands the code that it goes to, and where in the helper that code is. -/
structure Target where
  stubSize : ℕ
  /-- The stub at an address, for a pointer's address. -/
  stub : ℕ → ℕ → List UInt8
  reaches : ℕ → ℕ → Bool
  through : List UInt8 → ℕ → ℕ → Option ℕ
  stub_length : ∀ ent ptr, (stub ent ptr).length = stubSize
  through_ptr : ∀ {buf : List UInt8} {pos ent ptr : ℕ}, ent+stubSize < 2^64 → ptr < 2^64 → 8 ∣ ptr →
    reaches ptr ent = true → Holds buf pos (stub ent ptr) → through buf pos ent = some ptr
  headerSize : ℕ
  /-- The header at an address, for a word's address and a slot's. -/
  header : ℕ → ℕ → ℕ → List UInt8
  near : ℕ → ℕ → ℕ → Bool
  handed : List UInt8 → ℕ → Option (ℕ × ℕ)
  header_length : ∀ addr word slot, (header addr word slot).length = headerSize
  header_hands : ∀ {buf : List UInt8} {addr word slot : ℕ}, addr+headerSize < 2^64 →
    word < 2^64 → slot < 2^64 → 8 ∣ slot → near addr word slot = true →
    Holds buf 0 (header addr word slot) → handed buf addr = some (word,slot)
  entrySize : ℕ
  /-- The entry at an address for an offset of the stream, in the helper at the first address. -/
  entry : ℕ → ℕ → ℕ → List UInt8
  enter : List UInt8 → ℕ → Option (ℕ × ℤ)
  entry_length : ∀ addr ent off, (entry addr ent off).length = entrySize
  aligned : 4 ∣ headerSize ∧ 4 ∣ entrySize
  entered : ∀ {buf : List UInt8} {addr pos off : ℕ}, addr+pos+entrySize < 2^64 → pos < 2^27 →
    4 ∣ pos → off < 2^31 → Holds buf pos (entry addr (addr+pos) off) →
    enter buf pos = some (off,0)

def Target.entryOffset (E : Target) (i : ℕ) : ℕ := E.headerSize+i*E.entrySize

variable {E : Target}

theorem entry_offset_le {k n : ℕ} (hk : k < n) : E.entryOffset k+E.entrySize ≤ E.entryOffset n := by
  have hmul := Nat.mul_le_mul_right E.entrySize hk
  rw [Nat.succ_mul] at hmul
  rw [Target.entryOffset, Target.entryOffset]
  omega

theorem entry_offset_aligned (k : ℕ) : 4 ∣ E.entryOffset k :=
  Nat.dvd_add E.aligned.1 (E.aligned.2.mul_left k)

/-! ## arm64 and x86-64 -/

/-- `adrp`, `ldr` and `br`, by x16. -/
def stubWords (ptr ent : Addr) : List (BitVec 32) :=
  [0x90000010#32 ||| pageOffset ptr ent, 0xf9400210#32 ||| ((bits ptr 11 3).setWidth 32) <<< 10,
    0xd61f0200#32]

def arm64Stub (ent ptr : ℕ) : List UInt8 :=
  fieldBytes ((stubWords (.ofNat 64 ptr) (.ofNat 64 ent)).map fun w => (4,w.toNat))

/-- The pointer that the words of a stub at `pc` jump through. -/
def wordsThrough (pc : Addr) (adrp ldr br : BitVec 32) : Option Addr :=
  if adrp &&& ~~~adrpImm = 0x90000010#32 ∧ ldr &&& ~~~imm12 = 0xf9400210#32 ∧ br = 0xd61f0200#32
  then some (adrpPage adrp pc + .ofNat 64 ((ldr.extractLsb' 10 12).toNat*8))
  else none

def arm64Through (buf : List UInt8) (pos ent : ℕ) : Option ℕ := do
  let adrp ← readLe 4 buf pos
  let ldr ← readLe 4 buf (pos+4)
  let br ← readLe 4 buf (pos+8)
  let ptr ← wordsThrough (.ofNat 64 ent) (.ofNat 32 adrp) (.ofNat 32 ldr) (.ofNat 32 br)
  some ptr.toNat

def arm64Reaches (ptr ent : ℕ) : Bool := adrpReaches (.ofNat 64 ptr) (.ofNat 64 ent)

/-- `jmp *ptr(%rip)`. -/
def x86Stub (ent ptr : ℕ) : List UInt8 :=
  fieldBytes [(1,0xff),(1,0x25),(4,wrappingSub ptr (ent+6))]

def x86Through (buf : List UInt8) (pos ent : ℕ) : Option ℕ := do
  let op ← readLe 1 buf pos
  let mode ← readLe 1 buf (pos+1)
  let disp ← readLe 4 buf (pos+2)
  if op = 0xff ∧ mode = 0x25 then some (((ent+6 : ℕ)+signExtend 32 disp)%2^64).toNat
  else none

/-- An address is in reach of 32 bits from the next instruction. -/
def inReach (ptr pc : ℕ) : Bool :=
  let disp := signExtend 64 (wrappingSub ptr pc)
  decide (-2^31 ≤ disp ∧ disp < 2^31)

def x86Reaches (ptr ent : ℕ) : Bool := inReach ptr (ent+6)

/-- `adrp` and `add` of the word's address by x17, `stp` of x16 and x17, and a jump through
the slot as a stub's. -/
def arm64Header (addr word slot : ℕ) : List UInt8 :=
  fieldBytes [(4,(0x90000011#32 ||| pageOffset (.ofNat 64 word) (.ofNat 64 addr)).toNat),
    (4,(0x91000231#32 ||| ((BitVec.ofNat 64 word).setWidth 32 &&& 0xfff#32) <<< 10).toNat),
    (4,0xa9bf47f0)] ++ arm64Stub (addr+12) slot

def arm64Near (addr word slot : ℕ) : Bool := arm64Reaches word addr && arm64Reaches slot (addr+12)

def wordAddr (pc : Addr) (adrp add : BitVec 32) : Option Addr :=
  if adrp &&& ~~~adrpImm = 0x90000011#32 ∧ add &&& ~~~imm12 = 0x91000231#32
  then some (adrpPage adrp pc + (add.extractLsb' 10 12).setWidth 64)
  else none

def arm64Handed (buf : List UInt8) (addr : ℕ) : Option (ℕ × ℕ) := do
  let adrp ← readLe 4 buf 0
  let add ← readLe 4 buf 4
  let stp ← readLe 4 buf 8
  let word ← wordAddr (.ofNat 64 addr) (.ofNat 32 adrp) (.ofNat 32 add)
  let slot ← arm64Through buf 12 (addr+12)
  if stp = 0xa9bf47f0 then some (word.toNat,slot) else none

/-- `lea` of the word's address to r11, its `push`, a jump through the slot as a stub's, and
`nop`. -/
def x86Header (addr word slot : ℕ) : List UInt8 :=
  fieldBytes [(3,0x1d8d4c),(4,wrappingSub word (addr+7)),(2,0x5341)] ++ (x86Stub (addr+9) slot ++
    [0x90])

def x86Near (addr word slot : ℕ) : Bool := inReach word (addr+7) && x86Reaches slot (addr+9)

def x86Handed (buf : List UInt8) (addr : ℕ) : Option (ℕ × ℕ) := do
  let lea ← readLe 3 buf 0
  let disp ← readLe 4 buf 3
  let push ← readLe 2 buf 7
  let slot ← x86Through buf 9 (addr+9)
  if lea = 0x1d8d4c ∧ push = 0x5341 then some ((((addr+7 : ℕ)+signExtend 32 disp)%2^64).toNat,slot)
  else none

/-- `ldr w16, #8`, `b` to the header, and the word that is loaded. -/
def arm64Entry (addr ent off : ℕ) : List UInt8 :=
  fieldBytes [(4,0x18000050),
    (4,0x14000000 ||| (wrappingSub addr (ent+4) >>> 2 &&& 0x3ffffff)),(4,off)]

def arm64Enter (buf : List UInt8) (pos : ℕ) : Option (ℕ × ℤ) := do
  let ldr ← readLe 4 buf pos
  let b ← readLe 4 buf (pos+4)
  if ldr/2^24 = 0x18 ∧ ldr%2^5 = 16 ∧ b/2^26 = 5 then
    let word ← readLe 4 buf (pos+ldr/2^5%2^19*4)
    some (word,pos+4+signExtend 26 (b%2^26)*4)
  else none

/-- `push` of the offset, `jmp` to the header, and zeros. -/
def x86Entry (addr ent off : ℕ) : List UInt8 :=
  fieldBytes [(1,0x68),(4,off),(1,0xe9),(4,wrappingSub addr (ent+10)),(2,0)]

def x86Enter (buf : List UInt8) (pos : ℕ) : Option (ℕ × ℤ) := do
  let push ← readLe 1 buf pos
  let word ← readLe 4 buf (pos+1)
  let jmp ← readLe 1 buf (pos+5)
  let rel ← readLe 4 buf (pos+6)
  if push = 0x68 ∧ jmp = 0xe9 then
    some ((signExtend 32 word%2^64).toNat,pos+10+signExtend 32 rel)
  else none

/-- A stub in reach of its pointer jumps through it. -/
theorem stub_words_through {ptr ent : Addr} (h : adrpReaches ptr ent = true)
    (halign : 8 ∣ ptr.toNat) :
    wordsThrough ent (0x90000010#32 ||| pageOffset ptr ent)
      (0xf9400210#32 ||| ((bits ptr 11 3).setWidth 32) <<< 10) 0xd61f0200#32 = some ptr := by
  have hadrp : 0x90000010#32 ||| pageOffset ptr ent =
      0x90000010#32 &&& ~~~adrpImm ||| pageOffset ptr ent := by congr 1
  have hldr : 0xf9400210#32 ||| ((bits ptr 11 3).setWidth 32) <<< 10 =
      0xf9400210#32 &&& ~~~imm12 ||| place 32 10 ((bits ptr 11 3).setWidth 12) := by
    rw [imm_place]
    congr 1
  have hscaled : ((bits ptr 11 3).setWidth 12).toNat*8 = ptr.toNat%2^12 :=
    page_bits_scaled ptr (by omega) halign
  have hlow : BitVec.ofNat 64 (ptr.toNat%2^12) = (ptr.extractLsb' 0 12).setWidth 64 := by
    apply BitVec.eq_of_toNat_eq
    simp
  rw [hadrp, hldr, wordsThrough, write_outside _ _ _ (page_offset_outside ptr ent), imm12_outside,
    if_pos (by decide), imm12_extract, adrp_page_of _ h, hscaled, hlow, page_add]

theorem word_addr {ptr ent : Addr} (h : adrpReaches ptr ent = true) :
    wordAddr ent (0x90000011#32 ||| pageOffset ptr ent)
      (0x91000231#32 ||| (ptr.setWidth 32 &&& 0xfff#32) <<< 10) = some ptr := by
  have hadrp : 0x90000011#32 ||| pageOffset ptr ent =
      0x90000011#32 &&& ~~~adrpImm ||| pageOffset ptr ent := by congr 1
  have hadd : 0x91000231#32 ||| (ptr.setWidth 32 &&& 0xfff#32) <<< 10 =
      0x91000231#32 &&& ~~~imm12 ||| place 32 10 (ptr.extractLsb' 0 12) := by
    rw [place]
    congr 2
    apply BitVec.eq_of_toNat_eq
    simp only [BitVec.toNat_setWidth, BitVec.toNat_and, BitVec.extractLsb'_toNat,
      BitVec.toNat_ofNat, Nat.shiftRight_zero]
    rw [show 0xfff % 2^32 = 2^12-1 by norm_num, Nat.and_two_pow_sub_one_eq_mod]
    omega
  rw [hadrp, hadd, wordAddr, write_outside _ _ _ (page_offset_outside ptr ent), imm12_outside,
    if_pos (by decide), imm12_extract, adrp_page_of _ h, page_add]

theorem arm64_through {buf : List UInt8} {pos ent ptr : ℕ} (hptr : ptr < 2^64) (halign : 8 ∣ ptr)
    (hreach : arm64Reaches ptr ent = true) (h : Holds buf pos (arm64Stub ent ptr)) :
    arm64Through buf pos ent = some ptr := by
  have hword : ∀ (w : BitVec 32), w.toNat%256^4 = w.toNat := fun w => Nat.mod_eq_of_lt w.isLt
  have hadrp := h.field 0 rfl (rfl : pos = pos+0)
  have hldr := h.field 1 rfl (rfl : pos+4 = pos+4)
  have hbr := h.field 2 rfl (rfl : pos+8 = pos+8)
  rw [hword] at hadrp hldr hbr
  have hnat : (BitVec.ofNat 64 ptr).toNat = ptr := by
    rw [BitVec.toNat_ofNat, Nat.mod_eq_of_lt hptr]
  have hthrough := stub_words_through hreach (by rwa [hnat])
  rw [arm64Through, hadrp, hldr, hbr]
  simp only [Option.bind_eq_bind, Option.bind_some, BitVec.ofNat_toNat, BitVec.setWidth_eq]
  rw [hthrough, Option.bind_some, hnat]

/-- The low half of a word in the range of 32 bits. -/
theorem sign_extend_low {d : ℕ} (hd : d < 2^64) (hlo : -2^31 ≤ signExtend 64 d)
    (hhi : signExtend 64 d < 2^31) : signExtend 32 (d%2^32) = signExtend 64 d := by
  by_cases hpos : d < 2^63
  · have h64 : signExtend 64 d = d := if_pos hpos
    rw [h64] at hlo hhi ⊢
    rw [signExtend, if_pos (by omega)]
    omega
  · have h64 : signExtend 64 d = (d:ℤ)-2^64 := if_neg hpos
    rw [h64] at hlo hhi ⊢
    rw [signExtend, if_neg (by omega)]
    omega

theorem add_sign_extend {pc ptr : ℕ} (hpc : pc < 2^64) (hptr : ptr < 2^64)
    (h : inReach ptr pc = true) :
    (((pc:ℤ)+signExtend 32 (wrappingSub ptr pc%256^4))%2^64).toNat = ptr := by
  obtain ⟨hlo,hhi⟩ := of_decide_eq_true h
  rw [show 256^4 = 2^32 by rfl, sign_extend_low (wrapping_sub_lt _ _) hlo hhi]
  by_cases hpos : wrappingSub ptr pc < 2^63
  · have h64 : signExtend 64 (wrappingSub ptr pc) = wrappingSub ptr pc := if_pos hpos
    rw [h64, wrappingSub]
    omega
  · have h64 : signExtend 64 (wrappingSub ptr pc) = (wrappingSub ptr pc:ℤ)-2^64 := if_neg hpos
    rw [h64, wrappingSub]
    omega

theorem x86_through {buf : List UInt8} {pos ent ptr : ℕ} (hent : ent+6 < 2^64) (hptr : ptr < 2^64)
    (hreach : x86Reaches ptr ent = true) (h : Holds buf pos (x86Stub ent ptr)) :
    x86Through buf pos ent = some ptr := by
  have hop : readLe 1 buf pos = some (0xff%256^1) := h.field 0 rfl rfl
  have hmode : readLe 1 buf (pos+1) = some (0x25%256^1) := h.field 1 rfl rfl
  have hdisp : readLe 4 buf (pos+2) = some (wrappingSub ptr (ent+6)%256^4) := h.field 2 rfl rfl
  rw [x86Through, hop, hmode, hdisp]
  simp only [Option.bind_eq_bind, Option.bind_some]
  rw [if_pos ⟨rfl,rfl⟩, add_sign_extend hent hptr hreach]

theorem arm64_hands {buf : List UInt8} {addr word slot : ℕ} (hword : word < 2^64)
    (hslot : slot < 2^64) (halign : 8 ∣ slot) (hnear : arm64Near addr word slot = true)
    (h : Holds buf 0 (arm64Header addr word slot)) : arm64Handed buf addr = some (word,slot) := by
  obtain ⟨hreach,hthrough⟩ := Bool.and_eq_true_iff.1 hnear
  have hjump : arm64Through buf 12 (addr+12) = some slot :=
    arm64_through hslot halign hthrough h.right
  have hsize : ∀ (w : BitVec 32), w.toNat%256^4 = w.toNat := fun w => Nat.mod_eq_of_lt w.isLt
  have hadrp := h.left.field 0 rfl (rfl : 0 = 0+0)
  have hadd := h.left.field 1 rfl (rfl : 4 = 0+4)
  have hstp : readLe 4 buf 8 = some 0xa9bf47f0 := h.left.field 2 rfl (rfl : 8 = 0+8)
  rw [hsize] at hadrp hadd
  have hnat : (BitVec.ofNat 64 word).toNat = word := by
    rw [BitVec.toNat_ofNat, Nat.mod_eq_of_lt hword]
  have haddr := word_addr (show adrpReaches (.ofNat 64 word) (.ofNat 64 addr) = true from hreach)
  rw [arm64Handed, hadrp, hadd, hstp]
  simp only [Option.bind_eq_bind, Option.bind_some, BitVec.ofNat_toNat, BitVec.setWidth_eq]
  rw [haddr, Option.bind_some, hjump, Option.bind_some, if_true, hnat]

theorem x86_hands {buf : List UInt8} {addr word slot : ℕ} (haddr : addr+16 < 2^64)
    (hword : word < 2^64) (hslot : slot < 2^64) (hnear : x86Near addr word slot = true)
    (h : Holds buf 0 (x86Header addr word slot)) : x86Handed buf addr = some (word,slot) := by
  obtain ⟨hreach,hthrough⟩ := Bool.and_eq_true_iff.1 hnear
  have hjump : x86Through buf 9 (addr+9) = some slot :=
    x86_through (by omega) hslot hthrough h.right.left
  have hlea : readLe 3 buf 0 = some (0x1d8d4c%256^3) := h.left.field 0 rfl rfl
  have hdisp : readLe 4 buf 3 = some (wrappingSub word (addr+7)%256^4) := h.left.field 1 rfl rfl
  have hpush : readLe 2 buf 7 = some (0x5341%256^2) := h.left.field 2 rfl rfl
  rw [x86Handed, hlea, hdisp, hpush]
  simp only [Option.bind_eq_bind, Option.bind_some]
  rw [hjump, Option.bind_some, if_pos ⟨rfl,rfl⟩, add_sign_extend (by omega) hword hreach]

theorem wrapping_back {addr n : ℕ} (h : addr+n < 2^64) (hn : 0 < n) :
    wrappingSub addr (addr+n) = 2^64-n := by
  rw [wrappingSub]
  omega

theorem arm64_entered {buf : List UInt8} {addr pos off : ℕ} (haddr : addr+pos+12 < 2^64)
    (hpos : pos < 2^27) (halign : 4 ∣ pos) (hoff : off < 2^31)
    (h : Holds buf pos (arm64Entry addr (addr+pos) off)) : arm64Enter buf pos = some (off,0) := by
  have hrel : wrappingSub addr (addr+pos+4) >>> 2 &&& 0x3ffffff = 2^26-(pos+4)/4 := by
    have hmask := Nat.and_two_pow_sub_one_eq_mod (wrappingSub addr (addr+pos+4) >>> 2) 26
    rw [show (0x3ffffff : ℕ) = 2^26-1 by rfl, hmask, Nat.shiftRight_eq_div_pow,
      Nat.add_assoc addr, wrapping_back (by omega) (by omega)]
    omega
  have hjump : 0x14000000 ||| (2^26-(pos+4)/4) = 2^26-(pos+4)/4+2^26*5 := by
    rw [Nat.or_comm]
    exact or_shift (m := 26) (by omega) 5
  rw [arm64Entry, hrel, hjump] at h
  have hldr : readLe 4 buf pos = some (0x18000050%256^4) := h.field 0 rfl rfl
  have hb : readLe 4 buf (pos+4) = some ((2^26-(pos+4)/4+2^26*5)%256^4) := h.field 1 rfl rfl
  have hword : readLe 4 buf (pos+8) = some (off%256^4) := h.field 2 rfl rfl
  rw [Nat.mod_eq_of_lt (by omega)] at hldr hb hword
  have hback : signExtend 26 (2^26-(pos+4)/4) = -((pos+4)/4 : ℕ) := by
    rw [signExtend, if_neg (by omega)]
    omega
  have htarget : (2^26-(pos+4)/4+2^26*5)%2^26 = 2^26-(pos+4)/4 := by omega
  have hopcode : (2^26-(pos+4)/4+2^26*5)/2^26 = 5 := by omega
  have hplace : pos+0x18000050/2^5%2^19*4 = pos+8 := by omega
  have hheader : (pos:ℤ)+4+-((pos+4)/4 : ℕ)*4 = 0 := by omega
  rw [arm64Enter, hldr, Option.bind_eq_bind, Option.bind_some, hb, Option.bind_some,
    if_pos ⟨by omega,by omega,hopcode⟩, hplace, hword, Option.bind_some, htarget, hback, hheader]

theorem x86_entered {buf : List UInt8} {addr pos off : ℕ} (haddr : addr+pos+12 < 2^64)
    (hpos : pos < 2^27) (hoff : off < 2^31)
    (h : Holds buf pos (x86Entry addr (addr+pos) off)) : x86Enter buf pos = some (off,0) := by
  rw [x86Entry, Nat.add_assoc addr, wrapping_back (by omega) (by omega)] at h
  have hpush : readLe 1 buf pos = some (0x68%256^1) := h.field 0 rfl rfl
  have hword : readLe 4 buf (pos+1) = some (off%256^4) := h.field 1 rfl rfl
  have hjmp : readLe 1 buf (pos+5) = some (0xe9%256^1) := h.field 2 rfl rfl
  have hrel : readLe 4 buf (pos+6) = some ((2^64-(pos+10))%256^4) := h.field 3 rfl rfl
  have hlow : (2^64-(pos+10))%256^4 = 2^32-(pos+10) := by omega
  rw [Nat.mod_eq_of_lt (by omega)] at hpush hword hjmp
  rw [hlow] at hrel
  have hback : signExtend 32 (2^32-(pos+10)) = -(pos+10 : ℕ) := by
    rw [signExtend, if_neg (by omega)]
    omega
  have hhanded : (signExtend 32 off%2^64).toNat = off := by
    rw [signExtend, if_pos (by omega)]
    omega
  have hheader : (pos:ℤ)+10+-(pos+10 : ℕ) = 0 := by omega
  rw [x86Enter, hpush, Option.bind_eq_bind, Option.bind_some, hword, Option.bind_some, hjmp,
    Option.bind_some, hrel, Option.bind_some, if_pos ⟨rfl,rfl⟩, hback, hhanded, hheader]

def arm64 : Target where
  stubSize := 12
  stub := arm64Stub
  reaches := arm64Reaches
  through := arm64Through
  stub_length _ _ := by simp [arm64Stub, stubWords, width]
  through_ptr _ hptr halign hreach h := arm64_through hptr halign hreach h
  headerSize := 24
  header := arm64Header
  near := arm64Near
  handed := arm64Handed
  header_length _ _ _ := by simp [arm64Header, arm64Stub, stubWords, width]
  header_hands _ hword hslot halign hnear h := arm64_hands hword hslot halign hnear h
  entrySize := 12
  entry := arm64Entry
  enter := arm64Enter
  entry_length _ _ _ := by simp [arm64Entry, width]
  aligned := by decide
  entered haddr hpos halign hoff h := arm64_entered haddr hpos halign hoff h

def x86 : Target where
  stubSize := 6
  stub := x86Stub
  reaches := x86Reaches
  through := x86Through
  stub_length _ _ := by simp [x86Stub, width]
  through_ptr hent hptr _ hreach h := x86_through hent hptr hreach h
  headerSize := 16
  header := x86Header
  near := x86Near
  handed := x86Handed
  header_length _ _ _ := by simp [x86Header, x86Stub, width]
  header_hands haddr hword hslot _ hnear h := x86_hands haddr hword hslot hnear h
  entrySize := 12
  entry := x86Entry
  enter := x86Enter
  entry_length _ _ _ := by simp [x86Entry, width]
  aligned := by decide
  entered haddr hpos _ hoff h := x86_entered haddr hpos hoff h

end MoldMacho.Stubs
