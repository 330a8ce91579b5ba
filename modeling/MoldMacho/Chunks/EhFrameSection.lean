import MoldMacho.InputFiles.ParseUnwind
import MoldMacho.Lib.LengthRecords
import MoldMacho.Passes.Replacements

/-!
# The `__eh_frame` of the output

The surviving DWARF unwind records: of a final image the CIEs that FDEs use and then
the FDEs, of a `-r` output each CIE before the first FDE that uses it. Their
self-relative fields are written anew.
-/

set_option autoImplicit false

namespace MoldMacho.InputSections
open MoldMacho.EhFrame (dwEhPeSdata4)

/-- The size of the function address and size of its FDEs. -/
def CieRecord.pcSize (cie : CieRecord) : ℕ := if cie.fdeEnc &&& 0xf = dwEhPeSdata4 then 4 else 8

def CieRecord.lsdaSize (cie : CieRecord) : ℕ :=
  if cie.lsdaEnc.any fun enc => enc &&& 0xf = dwEhPeSdata4 then 4 else 8

/-- The offset of the LSDA pointer, past the length of the augmentation data. -/
def FdeRecord.lsdaPos (fde : FdeRecord) (pcSize : ℕ) : Option ℕ :=
  ((fde.data.drop (8+2*pcSize)).findIdx? (· < 0x80)).map fun k => 8+2*pcSize+k+1

end MoldMacho.InputSections

namespace MoldMacho.EhFrameSection
open MoldMacho.Arch (MachRel)
open MoldMacho.EhFrame (wrap32 wrap64)
open MoldMacho.InputSections
open MoldMacho.ParseUnwind (setUnwindRanges)
open Bytes LengthRecords Replacements

/-! ## The records of a final image -/

/-- Whether no copy stands for the function of an FDE. -/
def isKept (ctx : Context) (fde : FdeRecord) : Bool :=
  ctx.isecs[fde.isec]?.any fun isec => isec.replacement.isNone

/-- Where an FDE goes once those of folded copies are dropped. -/
def fdeMap (ctx : Context) (i : ℕ) : Option ℕ :=
  ctx.fdes[i]?.bind fun fde =>
    if isKept ctx fde then some ((ctx.fdes.take i).countP (isKept ctx)) else none

/-- A record with its FDE's new index, unless it is a folded copy's. -/
def moveRecord (ctx : Context) (rec : UnwindRecord) : Option UnwindRecord :=
  match rec.fde with
  | none => some rec
  | some k => (fdeMap ctx k).map fun k => { rec with fde := some k }

/-- Drops the FDEs of folded copies and their records. -/
def dropFolded (ctx : Context) : Context :=
  let unwindRecords := ctx.unwindRecords.filterMap (moveRecord ctx)
  let isecs :=
    if unwindRecords.length < ctx.unwindRecords.length then setUnwindRanges ctx.isecs 0 unwindRecords
    else ctx.isecs
  { ctx with isecs, unwindRecords, fdes := ctx.fdes.filter (isKept ctx) }

inductive EhRec where
  | cie (c : ℕ)
  | fde (f : ℕ)
  deriving DecidableEq

def EhRec.data (ctx : Context) : EhRec → List UInt8
  | .cie c => (ctx.cies[c]?.map CieRecord.data).getD []
  | .fde f => (ctx.fdes[f]?.map FdeRecord.data).getD []

def EhRec.size (ctx : Context) (r : EhRec) : ℕ := (r.data ctx).length

/-- The CIEs that FDEs use, and then the FDEs. -/
def finalRecords (ctx : Context) : List EhRec :=
  ((List.range ctx.cies.length).filter fun c => ctx.fdes.any fun fde => fde.cie == c).map .cie ++
    (List.range ctx.fdes.length).map .fde

/-- The section laid out: its records with their output offsets, and its size. -/
structure Section where
  records : List (EhRec × ℕ) := []
  size : ℕ := 0

def layOut (ctx : Context) (rs : List EhRec) : Section where
  records := place (EhRec.size ctx) 0 rs
  size := stop (EhRec.size ctx) 0 rs

def construct (ctx : Context) : Context × Section :=
  let ctx := dropFolded ctx
  (ctx,if ctx.fdes.isEmpty then {} else layOut ctx (finalRecords ctx))

/-! ## Their bytes -/

/-- Where things are in the output. -/
structure Image where
  ehFrameAddr : ℕ := 0
  /-- The address of a subsection that none replaces. -/
  isecAddr : ℕ → ℕ := fun _ => 0
  gotAddr : ℕ → ℕ := fun _ => 0

/-- A subsection's address is that of the copy that stands for it. -/
def addrOf (ctx : Context) (image : Image) (isec : ℕ) : ℕ :=
  image.isecAddr (resolveTo ctx.isecs isec)

def outputOffset (records : List (EhRec × ℕ)) (r : EhRec) : ℕ :=
  ((records.find? fun p => p.1 == r).map Prod.snd).getD 0

/-- The distance from a place to a target, in 64 bits. -/
def distance (target place : ℕ) : ℕ := wrap64 (target + (2^64 - wrap64 place))

section Copy
variable (ctx : Context) (image : Image)

/-- Rewrites the self-relative fields of the FDE at `off` of a buffer. -/
def relocateFde (fde : FdeRecord) (buf : List UInt8) (off fdeAddr ciePtr : ℕ) :
    Option (List UInt8) := do
  let cie ← ctx.cies[fde.cie]?
  let buf ← put buf (off+4) (toLe 4 ciePtr)
  let funcAddr := addrOf ctx image fde.isec + fde.funcOffset
  let buf ← put buf (off+8) (toLe cie.pcSize (distance funcAddr (fdeAddr+8)))
  match fde.lsda with
  | none => some buf
  | some (isec,lsdaOff) => do
    let pos ← fde.lsdaPos cie.pcSize
    let lsdaAddr := addrOf ctx image isec + lsdaOff
    put buf (off+pos) (toLe cie.lsdaSize (distance lsdaAddr (fdeAddr+pos)))

def ciePtr (records : List (EhRec × ℕ)) (fde : FdeRecord) (off : ℕ) : ℕ :=
  wrap32 (off + 4 + (2^32 - outputOffset records (.cie fde.cie)))

/-- Copies a record to its place, with its fields for that. -/
def copyRecord (records : List (EhRec × ℕ)) (buf : List UInt8) (p : EhRec × ℕ) :
    Option (List UInt8) :=
  let off := p.2
  match p.1 with
  | .cie c => do
    let cie ← ctx.cies[c]?
    let buf ← put buf off cie.data
    match cie.personality with
    | none => some buf
    | some sym =>
      let cell := image.ehFrameAddr + off + cie.personalityOffset
      put buf (off+cie.personalityOffset) (toLe 4 (distance (image.gotAddr sym) cell))
  | .fde f => do
    let fde ← ctx.fdes[f]?
    let buf ← put buf off fde.data
    relocateFde ctx image fde buf off (image.ehFrameAddr+off) (ciePtr records fde off)

def copyBuf (records : List (EhRec × ℕ)) (buf : List UInt8) : Option (List UInt8) :=
  records.foldlM (copyRecord ctx image records) buf

end Copy

/-! ## A `-r` output -/

/-- The live FDEs, each CIE just before the first that uses it. -/
def relocatableRecords (ctx : Context) : List ℕ → List (FdeRecord × ℕ) → List EhRec
  | _, [] => []
  | used, (fde,f)::rest =>
    if !ctx.isecs[fde.isec]?.any InputSection.isEmitted then relocatableRecords ctx used rest
    else if used.contains fde.cie then .fde f::relocatableRecords ctx used rest
    else .cie fde.cie::.fde f::relocatableRecords ctx (fde.cie::used) rest

def ehFrameRecords (ctx : Context) : List (EhRec × ℕ) :=
  place (EhRec.size ctx) 0 (relocatableRecords ctx [] ctx.fdes.zipIdx)

section Contents
variable (ctx : Context) (image : Image)
-- the bits of a 4-byte pc-relative GOT reference to a personality
variable (personalityBits : ℕ → BitVec 32)

/-- Appends a record, and the relocation of a CIE's personality. -/
def appendRecord (records : List (EhRec × ℕ)) (s : List UInt8 × List MachRel) (p : EhRec × ℕ) :
    Option (List UInt8 × List MachRel) :=
  let off := p.2
  -- the code asserts that the offset is where the data ends, and adds to it in 32 bits
  if off ≠ s.1.length ∨ 2^32 ≤ off+4 then none
  else
    match p.1 with
    | .cie c => do
      let cie ← ctx.cies[c]?
      let rels := cie.personality.toList.map fun sym =>
        { offset := off+cie.personalityOffset, bits := personalityBits sym : MachRel }
      some (s.1 ++ cie.data,s.2 ++ rels)
    | .fde f => do
      let fde ← ctx.fdes[f]?
      let data ← relocateFde ctx image fde (s.1 ++ fde.data) off (image.ehFrameAddr+off)
        (ciePtr records fde off)
      some (data,s.2)

def ehFrameContents (records : List (EhRec × ℕ)) : Option (List UInt8 × List MachRel) :=
  records.foldlM (appendRecord ctx image personalityBits records) ([],[])

end Contents

end MoldMacho.EhFrameSection
