import MoldMacho.Chunks.Header
import MoldMacho.Chunks.UnwindInfo
import MoldMacho.InputFiles.EhFrame
import MoldMacho.Lib.KeyRuns

/-!
# The unwind info of an object

The records of `__compact_unwind`, the FDEs of `__eh_frame` tied to them, the
runs of the records and their ranges in the link's arena, and what goes with the
subsections that die. Where the code stops with an error there is no result.
-/

set_option autoImplicit false

namespace MoldMacho.ParseUnwind
open MoldMacho.Arch (MachRel)
open MoldMacho.Chunks (bytes)
open MoldMacho.UnwindInfo (unwindModeMask)
open MoldMacho.InputSections MoldMacho.Macho MoldMacho.EhFrame
open Bytes Counted KeyRuns Leb128 StableSort

structure MachSection where
  segname : List UInt8
  sectname : List UInt8
  addr : ℕ := 0
  size : ℕ := 0
  offset : ℕ := 0
  flags : UInt32 := 0
  /-- The records at `reloff`. -/
  rels : List MachRel := []

structure StagedObject where
  data : List UInt8 := []
  sectHdrs : List MachSection := []
  isecs : List InputSection := []
  /-- Its subsections by input address. -/
  subsecs : List ℕ := []
  machSyms : List MachSym := []

/-- What staging reads of an object's unwind info. -/
structure UnwindInfo where
  unwind : List UnwindRecord := []
  cies : List CieRecord := []
  fdes : List FdeRecord := []
  deriving DecidableEq

inductive KeptFdes where
  | uncovered
  | all
  | none
  deriving DecidableEq

def MachSection.named (sect : MachSection) (segname sectname : String) : Bool :=
  sect.segname == bytes segname && sect.sectname == bytes sectname

def sAttrPureInstructions : UInt32 := 0x80000000
def sAttrSomeInstructions : UInt32 := 0x00000400

def isCodeSection (sect : MachSection) : Bool :=
  sect.flags &&& (sAttrPureInstructions ||| sAttrSomeInstructions) != 0 ||
    sect.named "__TEXT" "__text"

/-! ## Subsections by address -/

namespace StagedObject
variable (obj : StagedObject)

/-- The subsections that start at or before an address. -/
def before (addr : ℕ) : List ℕ :=
  obj.subsecs.takeWhile fun id => obj.isecs[id]?.any fun isec => isec.inputAddr ≤ addr

def findSubsec (addr : ℕ) : Option (ℕ × ℕ) := do
  let id ← (obj.before addr).getLast?
  let isec ← obj.isecs[id]?
  if addr < isec.inputAddr + isec.size ∨ isec.size = 0 ∧ addr = isec.inputAddr then
    some (id,addr - isec.inputAddr)
  else none

/-- The nearest subsection of a section, counted from 1. A label may sit at its
end, except in one of fixed-size records. -/
def findSymbolSubsec (sect addr : ℕ) : Option (ℕ × ℕ) := do
  let id ← (obj.before addr).reverse.find? fun id =>
    obj.isecs[id]?.any fun isec => isec.shndx + 1 = sect
  let isec ← obj.isecs[id]?
  let stop := isec.inputAddr + isec.size
  if addr < stop ∨ addr = stop ∧ isec.isRecord = false then some (id,addr - isec.inputAddr)
  else none

end StagedObject

/-! ## Compact unwind -/

def noIsec : ℕ := 2^32 - 1

section Compact
variable {T : Type} (obj : StagedObject)

/-- The section and the address that a pointer field refers to. -/
def pointed (r : Arch.Reloc T) : Option (ℕ × ℕ) :=
  match r.target with
  | .sym sym =>
    obj.machSyms[sym]?.map fun msym =>
      (if msym.ty = nSect then msym.sect.toNat else 0,wrap64 (msym.value + r.addend.toNat))
  | .section sect =>
    obj.sectHdrs[sect]?.map fun hdr =>
      ((sect % 256 + 1) % 256,wrap64 (hdr.addr + r.addend.toNat))

/-- Sets the pointer field of a record that a relocation is for. -/
def setPointer (records : List UnwindRecord) (r : Arch.Reloc T) : Option (List UnwindRecord) := do
  let i := r.offset / 32
  let rec ← records[i]?
  let (sect,addr) ← pointed obj r
  match r.offset % 32 with
  | 0 =>
    let (isec,off) ← obj.findSymbolSubsec sect addr
    pure (records.set i { rec with isec, inputOffset := wrap32 off })
  | 16 =>
    let sym ←
      match r.target with
      | .sym sym => some sym
      | .section _ => obj.machSyms.findIdx? fun msym => msym.isExtern && msym.value == addr
    pure (records.set i { rec with personality := some sym })
  | 24 =>
    let (isec,off) ← obj.findSubsec addr
    pure (records.set i { rec with lsda := some (isec,wrap32 off) })
  | _ => none

/-- Reads an entry of the section: the length of a function and its encoding. -/
def readEntry (hdr : MachSection) (i : ℕ) : Option UnwindRecord := do
  let codeLen ← readLe 4 obj.data (hdr.offset + (32*i + 8))
  let encoding ← readLe 4 obj.data (hdr.offset + (32*i + 12))
  pure { isec := noIsec, codeLen, encoding := encoding.toUInt32 }

/-- The records of a `__compact_unwind`, `rels` being its relocations. A record
that none gave a function describes nothing. -/
def parseCompactUnwind (hdr : MachSection) (rels : List (Arch.Reloc T)) :
    Option (List UnwindRecord) := do
  let records ← (List.range (hdr.size / 32)).mapM (readEntry obj hdr)
  let records ← rels.foldlM (setPointer obj) records
  pure (records.filter fun rec => rec.isec ≠ noIsec)

end Compact

/-! ## FDEs -/

abbrev Place := ℕ × ℕ

/-- The function that a record is for. -/
def place (rec : UnwindRecord) : Place := (rec.isec,rec.inputOffset)

def isDwarf (target : Target) (rec : UnwindRecord) : Bool :=
  rec.encoding &&& unwindModeMask == target.unwindModeDwarf

/-- The function of an FDE, and its LSDA. -/
structure FdeFunction where
  isec : ℕ
  funcOffset : ℕ
  codeLen : ℕ
  isCode : Bool
  lsda : Option (ℕ × ℕ)

/-- An FDE with no augmentation data or with a zero pointer has no LSDA. -/
def fdeLsda (obj : StagedObject) (rec : List UInt8) (inputAddr pos : ℕ) (enc : UInt8) :
    Option (Option (ℕ × ℕ)) := do
  let (len,aug) ← decodeUleb (rec.drop pos)
  if wrap64 len = 0 then some none
  else
    let pos := rec.length - aug.length
    let size := if enc &&& 0xf = dwEhPeSdata4 then 4 else 8
    let val ← readValue rec pos size
    if val = 0 then some none
    else
      let _ ← checkPointerEncoding enc
      let addr ← readPcrel rec pos size inputAddr
      let (isec,off) ← obj.findSubsec addr
      some (some (isec,wrap32 off))

def readFde (obj : StagedObject) (cies : List CieRecord) (fde : RawFde) : Option FdeFunction := do
  let cie ← cies[fde.cie]?
  let size ← checkPointerEncoding cie.fdeEnc
  let funcAddr ← readPcrel fde.data 8 size fde.inputAddr
  let codeLen ← readValue fde.data (8+size) size
  let (isec,funcOffset) ← obj.findSubsec funcAddr
  let sect ← (obj.isecs[isec]?).bind fun isec => obj.sectHdrs[isec.shndx]?
  let lsda ←
    match cie.lsdaEnc with
    | some enc => fdeLsda obj fde.data fde.inputAddr (8+2*size) enc
    | none => some none
  pure { isec, funcOffset := wrap32 funcOffset, codeLen := wrap32 codeLen
         isCode := isCodeSection sect, lsda }

/-- The function that an FDE is for. -/
def funcPlace (fde : RawFde × FdeFunction) : Place := (fde.2.isec,fde.2.funcOffset)

def fdeRecord (fde : RawFde × FdeFunction) : FdeRecord where
  inputAddr := fde.1.inputAddr
  data := fde.1.data
  cie := fde.1.cie
  isec := fde.2.isec
  funcOffset := fde.2.funcOffset
  codeLen := fde.2.codeLen
  lsda := fde.2.lsda

/-- The record of a function that has an FDE only. -/
def fdeOnlyRecord (fde : RawFde × FdeFunction) (fdeIdx : ℕ) : UnwindRecord where
  isec := fde.2.isec
  inputOffset := fde.2.funcOffset
  codeLen := fde.2.codeLen
  fde := some fdeIdx

/-- The records, the FDEs kept, and the record that the FDEs of a function
belong to. -/
structure Adding where
  unwind : List UnwindRecord
  fdes : List FdeRecord := []
  dwarfRecs : Place → Option ℕ

/-- A covered function's compact record wins. Otherwise the object's own
DWARF-mode record points at the FDE or, for code, a new one does. -/
def addFde (covered : List Place) (keepAllFdes : Bool) (s : Adding) (fde : RawFde × FdeFunction) :
    Adding :=
  let isCovered := covered.contains (funcPlace fde)
  if isCovered && !keepAllFdes then s
  else
    let fdeIdx := s.fdes.length
    let fdes := s.fdes ++ [fdeRecord fde]
    if isCovered then { s with fdes }
    else
      match s.dwarfRecs (funcPlace fde) with
      | some i =>
        { s with fdes, unwind := s.unwind.modify i fun rec => { rec with fde := some fdeIdx } }
      | none =>
        if !fde.2.isCode then { s with fdes }
        else
          { unwind := s.unwind ++ [fdeOnlyRecord fde fdeIdx]
            fdes
            dwarfRecs := Function.update s.dwarfRecs (funcPlace fde) (some s.unwind.length) }

/-- The functions with a compact record. -/
def coveredBy (target : Target) (unwind : List UnwindRecord) : List Place :=
  (unwind.filter fun rec => !isDwarf target rec).map place

/-- Of several DWARF-mode records of a function, the last. -/
def dwarfRecords (target : Target) (unwind : List UnwindRecord) : Place → Option ℕ :=
  unwind.zipIdx.foldl
    (fun recs e => if isDwarf target e.1 then Function.update recs (place e.1) (some e.2) else recs)
    fun _ => none

/-- The functions of the FDEs, each read as it is added, which no other one
changes. -/
def readFunctions (obj : StagedObject) (cies : List CieRecord) (fdes : List RawFde) :
    Option (List (RawFde × FdeFunction)) :=
  fdes.mapM fun fde => (readFde obj cies fde).map fun f => (fde,f)

def addFdes (target : Target) (unwind : List UnwindRecord) (fdes : List (RawFde × FdeFunction))
    (keepAllFdes : Bool) : Adding :=
  fdes.foldl (addFde (coveredBy target unwind) keepAllFdes)
    { unwind, dwarfRecs := dwarfRecords target unwind }

/-- The section's contents, the relocations applied. -/
def ehFrameContents (target : Target) (obj : StagedObject) (hdr : MachSection) :
    Option (List UInt8) :=
  (bytesAt obj.data hdr.offset hdr.size).bind (applyEhFrameRelocs target obj.machSyms hdr.rels)

/-- The CIEs and the FDEs of a section. -/
def readEhframe (target : Target) (obj : StagedObject) (hdr : MachSection) :
    Option (List CieRecord × List RawFde) := do
  let contents ← ehFrameContents target obj hdr
  let found ← scanRecords hdr.addr contents 0 {}
  let cies ← hdr.rels.foldlM (addPersonality target hdr.addr found.personalityEncs) found.cies
  pure (cies,found.fdes)

def parseEhframe (target : Target) (obj : StagedObject) (unwind : List UnwindRecord)
    (hdr : MachSection) (keepAllFdes : Bool) : Option UnwindInfo := do
  let (cies,raw) ← readEhframe target obj hdr
  let fdes ← readFunctions obj cies raw
  let s := addFdes target unwind fdes keepAllFdes
  pure { unwind := s.unwind, cies, fdes := s.fdes }

/-! ## Runs -/

/-- The ranks of the subsections that have begun a run, and whether each began
one only. -/
structure Ranking where
  rank : ℕ → Option ℕ := fun _ => none
  runs : ℕ := 0
  grouped : Bool := true

def rankRun (s : Ranking) (isec : ℕ) : Ranking :=
  match s.rank isec with
  | none => { s with rank := Function.update s.rank isec (some s.runs), runs := s.runs+1 }
  | some _ => { s with grouped := false }

def rankRuns : Option ℕ → List UnwindRecord → Ranking → Ranking
  | _, [], s => s
  | last, rec::recs, s =>
    rankRuns (some rec.isec) recs (if last = some rec.isec then s else rankRun s rec.isec)

/-- Gathers each subsection's records into one run, the runs in the order of
their first records. -/
def groupUnwindRecords (unwind : List UnwindRecord) : List UnwindRecord :=
  let s := rankRuns none unwind {}
  if s.grouped then unwind else sortBy (fun rec => (s.rank rec.isec).getD noIsec) unwind

/-- The records of the `__compact_unwind`, `relocs` being the relocations of each
section. -/
def compactRecords {T : Type} (obj : StagedObject) (relocs : ℕ → List (Arch.Reloc T)) :
    Option (List UnwindRecord) :=
  match obj.sectHdrs.findIdx? fun sect => sect.named "__LD" "__compact_unwind" with
  | some i => (obj.sectHdrs[i]?).bind fun hdr => parseCompactUnwind obj hdr (relocs i)
  | none => some []

def ehFrameSection (obj : StagedObject) : Option MachSection :=
  obj.sectHdrs.find? fun sect => sect.named "__TEXT" "__eh_frame"

/-- The object's unwind info, the records yet to be grouped. -/
def readUnwindInfo {T : Type} (target : Target) (obj : StagedObject)
    (relocs : ℕ → List (Arch.Reloc T)) (keptFdes : KeptFdes) : Option UnwindInfo := do
  let unwind ← compactRecords obj relocs
  if keptFdes = .none then some { unwind }
  else
    let info ←
      match ehFrameSection obj with
      | some hdr => parseEhframe target obj unwind hdr (keptFdes = .all)
      | none => some { unwind }
    -- A DWARF-mode record whose FDE never turned up describes nothing.
    pure { info with
      unwind := info.unwind.filter fun rec => !isDwarf target rec || rec.fde.isSome }

def parseUnwindInfo {T : Type} (target : Target) (obj : StagedObject)
    (relocs : ℕ → List (Arch.Reloc T)) (keptFdes : KeptFdes) : Option UnwindInfo :=
  (readUnwindInfo target obj relocs keptFdes).map fun info =>
    { info with unwind := groupUnwindRecords info.unwind }

/-! ## Ranges in the arena -/

/-- Gives each subsection its run of the records, which start at `base`. -/
def setUnwindRanges (isecs : List InputSection) (base : ℕ) (unwind : List UnwindRecord) :
    List InputSection :=
  (runRanges UnwindRecord.isec base (groups UnwindRecord.isec unwind)).foldl
    (fun isecs e => isecs.modify e.1 fun isec =>
      { isec with unwindOffset := e.2.1, nunwind := e.2.2 }) isecs

def rebaseRecord (isecBase fdeBase : ℕ) (syms : List ℕ) (rec : UnwindRecord) : UnwindRecord :=
  { rec with
    isec := rec.isec + isecBase
    lsda := rec.lsda.map fun (isec,off) => (isec + isecBase,off)
    fde := rec.fde.map fun fde => fde + fdeBase
    personality := rec.personality.bind fun sym => syms[sym]? }

def rebaseCie (syms : List ℕ) (cie : CieRecord) : CieRecord :=
  { cie with personality := cie.personality.bind fun sym => syms[sym]? }

def rebaseFde (isecBase cieBase : ℕ) (fde : FdeRecord) : FdeRecord :=
  { fde with
    isec := fde.isec + isecBase
    cie := fde.cie + cieBase
    lsda := fde.lsda.map fun (isec,off) => (isec + isecBase,off) }

/-- Appends a staged object to the global arenas. -/
def integrateObject (ctx : Context) (obj : StagedObject) (info : UnwindInfo) (file : ObjectFile) :
    Context :=
  let isecs := setUnwindRanges obj.isecs ctx.unwindRecords.length info.unwind
  { ctx with
    isecs := ctx.isecs ++ isecs.map fun isec => { isec with file := ctx.objs.length }
    unwindRecords := ctx.unwindRecords ++
      info.unwind.map (rebaseRecord ctx.isecs.length ctx.fdes.length file.symbols)
    cies := ctx.cies ++ info.cies.map (rebaseCie file.symbols)
    fdes := ctx.fdes ++ info.fdes.map (rebaseFde ctx.isecs.length ctx.cies.length)
    objs := ctx.objs ++ [file] }

def isAliveAt (isecs : List InputSection) (i : ℕ) : Bool := isecs[i]?.any InputSection.isAlive

/-- Where an FDE goes once those of dead subsections are dropped. -/
def fdeMap (ctx : Context) (i : ℕ) : Option ℕ :=
  let kept (fde : FdeRecord) : Bool := isAliveAt ctx.isecs fde.isec
  (ctx.fdes[i]?).bind fun fde => if kept fde then some ((ctx.fdes.take i).countP kept) else none

/-- Drops the unwind records and FDEs of the subsections that are no longer
alive, and refreshes the ranges of the records that stay. -/
def removeDeadUnwindInfo (ctx : Context) : Context :=
  let unwindRecords := ctx.unwindRecords.filterMap fun rec =>
    if isAliveAt ctx.isecs rec.isec then some { rec with fde := rec.fde.bind (fdeMap ctx) }
    else none
  { ctx with
    isecs := setUnwindRanges ctx.isecs 0 unwindRecords
    unwindRecords
    fdes := ctx.fdes.filter fun fde => isAliveAt ctx.isecs fde.isec }

end MoldMacho.ParseUnwind
