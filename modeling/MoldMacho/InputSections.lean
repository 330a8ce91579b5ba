import MoldMacho.Util.Align

/-!
# Input sections

The records of the link's arenas that liveness and folding read: the
subsections, the relocations of an object, and the unwind records with
the DWARF entries they may point to. An index that may be absent is an
option where the code keeps a sentinel.
-/

set_option autoImplicit false

namespace MoldMacho.InputSections
open MoldMacho.Align

/-- What a relocation refers to: the owning object's symbol, or a
subsection. -/
inductive RelocTarget where
  | sym (idx : ℕ)
  | section (target : ℕ)
  deriving DecidableEq

structure Reloc where
  offset : ℕ
  target : RelocTarget

structure Symbol where
  inputSection : Option ℕ := none

structure InputSection where
  file : ℕ
  shndx : ℕ := 0
  p2align : ℕ := 0
  inputAddr : ℕ := 0
  size : ℕ := 0
  contents : List UInt8 := []
  isRecord : Bool := false
  relOffset : ℕ := 0
  nrels : ℕ := 0
  unwindOffset : ℕ := 0
  nunwind : ℕ := 0
  isAlive : Bool := true
  isLabeled : Bool := false
  /-- The copy that stands for this one, if one does. -/
  replacement : Option ℕ := none

structure MachSection where
  flags : ℕ := 0

structure ObjectFile where
  sectHdrs : List MachSection := []
  symbols : List ℕ := []
  relocs : List Reloc := []

/-- A compact-unwind record: the function at `inputOffset` of `isec`. -/
structure UnwindRecord where
  isec : ℕ := 0
  inputOffset : ℕ := 0
  codeLen : ℕ := 0
  encoding : UInt32 := 0
  personality : Option ℕ := none
  lsda : Option (ℕ × ℕ) := none
  fde : Option ℕ := none
  deriving DecidableEq

structure CieRecord where
  inputAddr : ℕ := 0
  data : List UInt8 := []
  personality : Option ℕ := none
  personalityOffset : ℕ := 0
  /-- How its FDEs encode their function, and their LSDA if they have one. -/
  fdeEnc : UInt8 := 0
  lsdaEnc : Option UInt8 := none
  deriving DecidableEq

structure FdeRecord where
  inputAddr : ℕ := 0
  data : List UInt8 := []
  cie : ℕ
  isec : ℕ := 0
  funcOffset : ℕ := 0
  codeLen : ℕ := 0
  lsda : Option (ℕ × ℕ) := none
  deriving DecidableEq

structure Context where
  isecs : List InputSection := []
  objs : List ObjectFile := []
  symbols : List Symbol := []
  unwindRecords : List UnwindRecord := []
  cies : List CieRecord := []
  fdes : List FdeRecord := []

/-- The log2 of the alignment of the part of a subsection at `addr`: the
section's, or that of the offset modulo it. -/
def InputSection.p2alignAt (isec : InputSection) (addr : ℕ) : ℕ :=
  let modulus := addr % 2^(isec.p2align % 64)
  if isec.isRecord || modulus == 0 then isec.p2align
  else ((List.range 64).find? modulus.testBit).getD 64

/-- A nonzero offset below an alignment has a lowest bit, below the alignment's. -/
theorem find_bit {m p : ℕ} (hne : m ≠ 0) (hlt : m < 2^p) (hp : p ≤ 64) :
    ∃ t < p, (List.range 64).find? m.testBit = some t := by
  have hbelow {t : ℕ} (ht : m.testBit t = true) : t < p :=
    (Nat.pow_lt_pow_iff_right (by decide)).1 ((Nat.ge_two_pow_of_testBit ht).trans_lt hlt)
  cases hbit : (List.range 64).find? m.testBit with
  | some t => exact ⟨t,hbelow (List.find?_some hbit),rfl⟩
  | none =>
    obtain ⟨t,ht⟩ := Nat.exists_testBit_of_ne_zero hne
    have hmem := List.mem_range.2 ((hbelow ht).trans_le hp)
    exact absurd ht (List.find?_eq_none.1 hbit t hmem)

/-- A place in a subsection is at most as aligned as the subsection. -/
theorem p2align_at_le (isec : InputSection) (addr : ℕ) : isec.p2alignAt addr ≤ isec.p2align := by
  simp only [InputSection.p2alignAt]
  split
  · exact le_rfl
  · next hif =>
    rw [Bool.or_eq_true, beq_iff_eq, not_or] at hif
    have hlt : addr % 2^(isec.p2align % 64) < 2^(isec.p2align % 64) :=
      Nat.mod_lt _ (Nat.two_pow_pos _)
    obtain ⟨t,ht,hbit⟩ := find_bit hif.2 hlt (Nat.mod_lt _ (by decide)).le
    rw [hbit]
    exact ht.le.trans (Nat.mod_le _ _)

/-- The next offset at or after `off` where a subsection may start. -/
def InputSection.alignOffset (isec : InputSection) (off : ℕ) : ℕ :=
  let align := 2^(isec.p2align % 64)
  if isec.isRecord then alignTo off align
  else alignToMod off align (isec.inputAddr % align)

/-- Whether a subsection is in the output as itself. -/
def InputSection.isEmitted (isec : InputSection) : Bool :=
  isec.isAlive && isec.replacement.isNone

/-- This subsection's relocations: a range in the owning object's. -/
def InputSection.rels (isec : InputSection) (file : ObjectFile) : List Reloc :=
  (file.relocs.drop isec.relOffset).take isec.nrels

/-- This subsection's unwind records: a range in the context's. -/
def InputSection.unwindRecords (isec : InputSection) (ctx : Context) : List UnwindRecord :=
  (ctx.unwindRecords.drop isec.unwindOffset).take isec.nunwind

end MoldMacho.InputSections
