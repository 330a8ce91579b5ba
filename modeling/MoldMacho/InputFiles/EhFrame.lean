import MoldMacho.Arch.Relocs
import MoldMacho.Macho
import MoldMacho.Util.Leb128

/-!
# The records of an `__eh_frame`

The section's contents with its relocations applied, split into CIEs and FDEs.
Where the code stops with an error there is no result.
-/

set_option autoImplicit false

namespace MoldMacho.EhFrame
open MoldMacho.Arch (MachRel)
open MoldMacho.InputSections (CieRecord)
open MoldMacho.Macho
open Bytes Leb128

/-- What unwind info asks of a target. -/
structure Target where
  unwindModeDwarf : UInt32
  relocUnsigned : BitVec 4
  relocSubtractor : BitVec 4
  relocGotpc : BitVec 4

def arm64 : Target where
  unwindModeDwarf := 0x03000000
  relocUnsigned := 0
  relocSubtractor := 1
  relocGotpc := 7

def x8664 : Target where
  unwindModeDwarf := 0x04000000
  relocUnsigned := 0
  relocSubtractor := 5
  relocGotpc := 4

def wrap32 (n : ℕ) : ℕ := n % 2^32
def wrap64 (n : ℕ) : ℕ := n % 2^64

/-! ## Relocations -/

def relocTarget (machSyms : List MachSym) (r : MachRel) : Option ℕ :=
  if r.isExtern then machSyms[r.idx]?.map MachSym.value else some 0

/-- Adds to the field of a relocation. -/
def addAt (contents : List UInt8) (r : MachRel) (val : ℕ) : Option (List UInt8) := do
  let n := if r.p2size = 2 then 4 else 8
  let old ← readLe n contents r.offset
  pure (writeAt contents r.offset (toLe n (old+val)))

/-- Applies the relocations, so that the records' pointers become plain
values. -/
def applyEhFrameRelocs (target : Target) (machSyms : List MachSym) :
    List MachRel → List UInt8 → Option (List UInt8)
  | [], contents => some contents
  | r::rels, contents =>
    if r.ty = target.relocSubtractor then
      match rels with
      | [] => none
      | next::rels => do
        let plus ← relocTarget machSyms next
        let minus ← relocTarget machSyms r
        let contents ← addAt contents r (wrap64 (plus + (2^64 - minus)))
        applyEhFrameRelocs target machSyms rels contents
    else if r.ty = target.relocUnsigned then do
      let val ← relocTarget machSyms r
      let contents ← addAt contents r val
      applyEhFrameRelocs target machSyms rels contents
    else if r.ty = target.relocGotpc then applyEhFrameRelocs target machSyms rels contents
    else none

/-! ## Pointers -/

def dwEhPeAbsptr : UInt8 := 0x00
def dwEhPeSdata4 : UInt8 := 0x0b
def dwEhPePcrel : UInt8 := 0x10
def dwEhPeIndirect : UInt8 := 0x80

/-- The size of a pointer in an encoding that compilers write. -/
def checkPointerEncoding (enc : UInt8) : Option ℕ :=
  if enc = dwEhPePcrel then some 8
  else if enc = dwEhPePcrel ||| dwEhPeSdata4 then some 4
  else none

/-- The value of `size` bytes, its sign extended to 64 bits. -/
def readValue (rec : List UInt8) (pos size : ℕ) : Option ℕ :=
  if size = 4 then
    (readLe 4 rec pos).map fun n => if n < 2^31 then n else n + (2^64 - 2^32)
  else readLe 8 rec pos

def readPcrel (rec : List UInt8) (pos size recAddr : ℕ) : Option ℕ :=
  (readValue rec pos size).map fun n => wrap64 (recAddr + pos + n)

/-! ## CIEs -/

/-- The encodings that a CIE's augmentation gives. -/
structure Augmentation where
  fdeEnc : UInt8 := dwEhPeAbsptr
  lsdaEnc : Option UInt8 := none
  personalityEnc : Option UInt8 := none

/-- Reads what a letter of the augmentation string stands for at `pos`. -/
def readLetter (data : List UInt8) (s : ℕ × Augmentation) (c : UInt8) :
    Option (ℕ × Augmentation) :=
  let (pos,aug) := s
  if c = 'L'.toUInt8 then data[pos]?.map fun enc => (pos+1,{ aug with lsdaEnc := some enc })
  else if c = 'P'.toUInt8 then
    data[pos]?.map fun enc =>
      (pos + (if enc &&& 0xf = dwEhPeSdata4 then 5 else 9),{ aug with personalityEnc := some enc })
  else if c = 'R'.toUInt8 then data[pos]?.map fun enc => (pos+1,{ aug with fdeEnc := enc })
  else some (pos,aug)

def skipUlebs : ℕ → List UInt8 → Option (List UInt8)
  | 0, rest => some rest
  | n+1, rest => (decodeUleb rest).bind fun (_,rest) => skipUlebs n rest

def parseCieAugmentation (data : List UInt8) : Option Augmentation := do
  let version ← data[8]?
  if version ≠ 1 ∧ version ≠ 3 then none
  else
    let augStart := 9
    let first ← data[augStart]?
    if first ≠ 'z'.toUInt8 then some {}
    else
      let len ← (data.drop augStart).findIdx? fun b => b == 0
      let augEnd := augStart + len
      let rest ← skipUlebs 4 (data.drop (augEnd+1))
      let letters := (data.drop (augStart+1)).take (augEnd - (augStart+1))
      let (_,aug) ← letters.foldlM (readLetter data) (data.length - rest.length,{})
      pure aug

/-! ## Records -/

/-- An FDE as it stands in the section, with the index of its CIE. -/
structure RawFde where
  inputAddr : ℕ
  data : List UInt8
  cie : ℕ

structure Records where
  cies : List CieRecord := []
  personalityEncs : List (Option UInt8) := []
  fdes : List RawFde := []

/-- Adds the record at `pos`, of `len` bytes after its length: a zero ID marks a
CIE, and that of an FDE is how far back its CIE is from the ID. -/
def addRecord (addr : ℕ) (contents : List UInt8) (pos len : ℕ) (found : Records) :
    Option Records := do
  let rec ← bytesAt contents pos (4+len)
  let id ← readLe 4 contents (pos+4)
  let inputAddr := wrap32 (addr+pos)
  if id = 0 then
    let aug ← parseCieAugmentation rec
    let cie : CieRecord :=
      { inputAddr, data := rec, fdeEnc := aug.fdeEnc, lsdaEnc := aug.lsdaEnc }
    pure { found with
      cies := found.cies ++ [cie]
      personalityEncs := found.personalityEncs ++ [aug.personalityEnc] }
  else
    let cieAddr := wrap32 (inputAddr + 4 + (2^32 - id))
    let cie ← found.cies.findIdx? fun c => c.inputAddr == cieAddr
    pure { found with fdes := found.fdes ++ [{ inputAddr, data := rec, cie }] }

def scanRecords (addr : ℕ) (contents : List UInt8) (pos : ℕ) (found : Records) :
    Option Records :=
  if pos < contents.length then
    match readLe 4 contents pos with
    | none => none
    | some len =>
      match addRecord addr contents pos len found with
      | none => none
      | some found => scanRecords addr contents (pos+4+len) found
  else some found
termination_by contents.length - pos

/-- Gives a CIE the personality that a relocation in it names, in the one form
the linker can rewrite. -/
def addPersonality (target : Target) (addr : ℕ) (encs : List (Option UInt8))
    (cies : List CieRecord) (r : MachRel) : Option (List CieRecord) :=
  let place := wrap32 (addr + r.offset)
  match (cies.takeWhile fun c => c.inputAddr ≤ place).length with
  | 0 => some cies
  | i+1 =>
    match cies[i]? with
    | none => none
    | some cie =>
      if cie.inputAddr + cie.data.length ≤ place then some cies
      else if r.ty ≠ target.relocGotpc ∨ r.p2size ≠ 2 ∨
          encs[i]? ≠ some (some (dwEhPeIndirect ||| dwEhPePcrel ||| dwEhPeSdata4)) then none
      else
        some (cies.set i { cie with
          personality := some r.idx, personalityOffset := place - cie.inputAddr })

end MoldMacho.EhFrame
