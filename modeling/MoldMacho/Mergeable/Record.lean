import Mathlib.Data.Int.Order.Basic
import MoldMacho.Lib.Bytes

/-!
# Mergeable records

The entries and fixups of a mergeable dylib's record, the words each is
kept in, and how the record is read from the file around it.
-/

set_option autoImplicit false

namespace MoldMacho.Mergeable

open Bytes

abbrev Name := List UInt8

/-- An entry of the record. `C` and `F` are where its bytes and fixups are. -/
structure Entry (C F : Type) where
  name : Option Name := none
  scope : ℕ
  kind : ℕ
  contentType : ℕ
  cold : Bool := false
  ddsIfRefsLive : Bool := false
  noDeadStrip : Bool := false
  /-- An import's strength: 1 a weak one, 2 a strong one, 0 none given. -/
  strength : ℕ := 0
  customSection : Option ℕ := none
  size : ℕ := 0
  content : C
  dylib : Option ℕ := none
  p2align : ℕ := 0
  modulus : ℕ := 0
  debug : ℕ := 0
  fixups : F
  deriving DecidableEq

structure Fixup where
  offset : ℕ
  target : ℕ
  kind : ℕ
  addend : ℤ
  /-- The entry a difference subtracts. -/
  subtracted : Option ℕ := none
  scale : ℕ := 0
  second : ℕ := 0
  deriving DecidableEq

structure CustomSection where
  segname : Name
  sectname : Name
  flags : ℕ
  deriving DecidableEq

structure DylibInfo where
  installName : Name
  currentVersion : ℕ
  compatibilityVersion : ℕ
  deriving DecidableEq

structure DebugInfo where
  mtime : ℕ
  sourceDir : Name
  sourceName : Name
  objectPath : Name
  deriving DecidableEq

/-- How a fixup kind uses its last word and where its addend is. -/
def extrasUsage (kind : ℕ) : ℕ :=
  if kind ∈ [0,0x80,0x82,0x86,0x8b,0x90,0x102,0x106,0x107,0x109] then 0
  else if kind ∈ [4,5] then 1
  else if kind = 0x8d then 3
  else if kind ∈ [0x81,0x83] then 4
  else if kind ∈ [0x84,0x85,0x87,0x8c,0x8e,0x91] then 5
  else if kind ∈ [0x88,0x89,0x8a,0x8f,0x92] then 7
  else 2

def largeAddend : ℕ := 0x400

def noName : ℕ := 0xffffff

def toU32 (v : ℤ) : ℕ := (v % 2^32).toNat

/-- The integer of `n` bits a word holds. -/
def signExtend (n v : ℕ) : ℤ :=
  if v % 2^n < 2^(n-1) then (v % 2^n : ℕ) else (v % 2^n : ℕ) - 2^n

namespace Fixup

def fits (addend : ℤ) (bits : ℕ) : Prop := -2^(bits-1) ≤ addend ∧ addend < 2^(bits-1)

instance (addend : ℤ) (bits : ℕ) : Decidable (fits addend bits) :=
  inferInstanceAs (Decidable (_ ∧ _))

/-- The last two words of a fixup, and the large addends with its own. -/
def words (f : Fixup) (large : List ℤ) : ℕ × ℕ × List ℤ :=
  let usage := extrasUsage f.kind
  let extras := if usage = 1 then f.subtracted.getD 0
    else if 4 ≤ usage ∧ usage ≤ 8 then (f.scale <<< 8) ||| f.second else 0
  let low := toU32 f.addend % 2^21
  let high := toU32 f.addend / 2^21
  if usage = 2 ∧ fits f.addend 32 then (f.kind,toU32 f.addend,large)
  else if (4 ≤ usage ∧ usage ≤ 8) ∧ fits f.addend 32 then
    (f.kind ||| (low <<< 11),extras ||| (high <<< 16),large)
  else if usage ∈ [0,1,3] ∧ fits f.addend 21 then (f.kind ||| (low <<< 11),extras,large)
  else
    let grown := if f.addend ∈ large then large else large ++ [f.addend]
    (f.kind ||| largeAddend ||| ((grown.idxOf f.addend <<< 11) % 2^32),extras,grown)

/-- Reads a fixup of words `w0` to `w3`. -/
def ofWords (w0 w1 w2 w3 : ℕ) (large : List ℤ) : Option Fixup :=
  let kind := w2 % 2^10
  let usage := extrasUsage kind
  let addend := if w2 / 2^10 % 2 = 1 then large[w2 / 2^11]?
    else if usage = 2 then some (signExtend 32 w3)
    else if usage = 3 then some (signExtend 28 (w2 / 2^11 ||| ((w3 / 2^25) <<< 21)))
    else if 4 ≤ usage ∧ usage ≤ 8 then some (signExtend 32 (w2 / 2^11 ||| ((w3 / 2^16) <<< 21)))
    else some (signExtend 21 (w2 / 2^11))
  let arm64 := 4 ≤ usage ∧ usage ≤ 8
  addend.map fun addend =>
    { offset := w0, target := w1, kind := kind, addend := addend
      subtracted := if usage = 1 then some w3 else none
      scale := if arm64 then w3 / 2^8 % 2^8 else 0
      second := if arm64 then w3 % 2^8 else 0 }

end Fixup

/-- An index as it is put in a byte, with 0xff for none. -/
def indexByte (i : Option ℕ) : ℕ := (i.map (· % 2^8)).getD 0xff

def byteIndex (b : ℕ) : Option ℕ := if b = 0xff then none else some b

namespace Entry

variable {C F : Type}

/-- The flags word: scope (bits 0-2), kind (3-7), content type (8-14), cold
(15), live if what refers to it is (16), never dead stripped (17), import
strength (19-20), custom section (21-28). -/
def flags (e : Entry C F) : ℕ :=
  e.scope ||| (e.kind <<< 3) ||| (e.contentType <<< 8) ||| (e.cold.toNat <<< 15) |||
    (e.ddsIfRefsLive.toNat <<< 16) ||| (e.noDeadStrip.toNat <<< 17) ||| (e.strength <<< 19) |||
    (indexByte e.customSection <<< 21)

end Entry

section Reader

structure Record where
  cputype : ℕ
  cpusubtype : ℕ
  platform : ℕ
  minos : ℕ
  sdk : ℕ
  flags : ℕ
  entries : List (Entry (Option (List UInt8)) (ℕ × ℕ))
  fixups : List Fixup
  sections : List CustomSection
  own : DylibInfo
  dylibs : List DylibInfo
  debugInfos : List DebugInfo

/-- The record's bytes, in the file they are part of. -/
structure Reader where
  file : List UInt8
  base : ℕ
  blob : List UInt8

namespace Reader

variable (r : Reader)

/-- A table's offset and its count, or a pool's size. -/
def table (field : ℕ) : Option (ℕ × ℕ) :=
  (readLe 4 r.blob field).bind fun off => (readLe 4 r.blob (field+4)).map fun count => (off,count)

/-- Reads the elements of a table of `size` bytes each. -/
def array {α : Type} (field size : ℕ) (read : ℕ → Option α) : Option (List α) :=
  (r.table field).bind fun (off,count) =>
    if off+count*size ≤ r.blob.length then (List.range count).mapM fun i => read (off+i*size)
    else none

/-- The bytes `rel` from blob offset `pos`, which may reach back into the
dylib around the blob. -/
def stringAt (pos : ℕ) (rel : ℤ) (len : ℕ) : Option (List UInt8) :=
  let start := (r.base+pos : ℕ) + rel
  if start < 0 then none else bytesAt r.file start.toNat len

def cstring (pos : ℕ) : Option Name :=
  (readLe 8 r.blob (pos+8)).bind fun len =>
    if len = 0 then some []
    else (readLe 8 r.blob pos).bind fun rel => r.stringAt pos (signExtend 64 rel) len

def symbolName (pos : ℕ) : Option Name :=
  (readLe 8 r.blob (pos+8)).bind fun word =>
  (readLe 8 r.blob pos).bind fun rel => r.stringAt pos (signExtend 64 rel) (word / 2^44)

def symbolNames : Option (List Name) :=
  (r.table 0x88).bind fun (first,count) => (List.range count).mapM fun i => r.symbolName (first+i*16)

def fixup (large : List ℤ) (pos : ℕ) : Option Fixup :=
  (readLe 4 r.blob pos).bind fun w0 => (readLe 4 r.blob (pos+4)).bind fun w1 =>
  (readLe 4 r.blob (pos+8)).bind fun w2 => (readLe 4 r.blob (pos+12)).bind fun w3 =>
    Fixup.ofWords w0 w1 w2 w3 large

def fixups : Option (List Fixup) :=
  (r.array 0x70 8 fun pos => (readLe 8 r.blob pos).map (signExtend 64)).bind fun large =>
    r.array 0x68 16 (r.fixup large)

def customSection (pos : ℕ) : Option CustomSection :=
  (readLe 4 r.blob (pos+4)).bind fun flags => (bytesAt r.blob (pos+8) 16).bind fun segname =>
  (bytesAt r.blob (pos+26) 16).map fun sectname => ⟨segname,sectname,flags⟩

/-- A dylib's info, and the size of its record. -/
def dylibInfo (pos : ℕ) : Option (DylibInfo × ℕ) :=
  (r.cstring (pos+8)).bind fun installName => (readLe 4 r.blob pos).bind fun current =>
  (readLe 4 r.blob (pos+4)).bind fun compatibility =>
  (readLe 4 r.blob (pos+0x2c)).bind fun nplatforms =>
  (readLe 4 r.blob (pos+0x34)).bind fun nreexports => (readLe 4 r.blob (pos+0x3c)).bind fun nclients =>
  (readLe 4 r.blob (pos+0x44)).map fun nthird =>
    (⟨installName,current,compatibility⟩,
      0x88+(4*nplatforms+7)/8*8+16*(nreexports+nclients+nthird))

def dylibInfos : ℕ → ℕ → Option (List DylibInfo)
  | _, 0 => some []
  | pos, count+1 => (r.dylibInfo pos).bind fun (info,size) =>
      (dylibInfos (pos+size) count).map (info :: ·)

def debugInfo (pos : ℕ) : Option DebugInfo :=
  (readLe 4 r.blob pos).bind fun mtime => (r.cstring (pos+8)).bind fun dir =>
  (r.cstring (pos+0x18)).bind fun name => (r.cstring (pos+0x28)).map fun path =>
    ⟨mtime,dir,name,path⟩

def debugInfos : Option (List DebugInfo) :=
  (r.table 0xbc).bind fun (first,count) => (List.range count).mapM fun i => r.debugInfo (first+i*0x98)

def entryName (symbols : List Name) (n : ℕ) : Option (Option Name) :=
  if n = noName then some none else symbols[n]?.map some

def entryContent (pool size off : ℕ) : Option (Option (List UInt8)) :=
  if signExtend 32 off = -1 then some none
  else (r.stringAt pool (signExtend 32 off) size).map some

def entry (symbols : List Name) (pos : ℕ) : Option (Entry (Option (List UInt8)) (ℕ × ℕ)) :=
  (readLe 4 r.blob (pos+4)).bind fun nfixups => (readLe 4 r.blob (pos+8)).bind fun first =>
  (readLe 4 r.blob (pos+12)).bind fun n => (entryName symbols n).bind fun name =>
  (readLe 4 r.blob (pos+16)).bind fun flags => (readLe 4 r.blob (pos+20)).bind fun size =>
  (r.table 0x98).bind fun (pool,_) => (readLe 4 r.blob (pos+24)).bind fun off =>
  (r.entryContent pool size off).bind fun content =>
  (readLe 1 r.blob (pos+0x1c)).bind fun dylib => (readLe 1 r.blob (pos+0x1d)).bind fun p2align =>
  (readLe 2 r.blob (pos+0x1e)).bind fun modulus => (readLe 2 r.blob (pos+0x20)).map fun debug =>
    { name := name, scope := flags % 2^3, kind := flags / 2^3 % 2^5
      contentType := flags / 2^8 % 2^7, cold := flags / 2^15 % 2 == 1
      ddsIfRefsLive := flags / 2^16 % 2 == 1, noDeadStrip := flags / 2^17 % 2 == 1
      strength := flags / 2^19 % 2^2, customSection := byteIndex (flags / 2^21 % 2^8)
      size := size, content := content, dylib := byteIndex dylib, p2align := p2align
      modulus := modulus, debug := debug, fixups := (first,first+nfixups) }

def entries (symbols : List Name) : Option (List (Entry (Option (List UInt8)) (ℕ × ℕ))) :=
  r.array 0x60 40 (r.entry symbols)

end Reader

/-- Reads the record of `size` bytes at `base` of a file. -/
def read (file : List UInt8) (base size : ℕ) : Option Record :=
  (bytesAt file base size).bind fun blob =>
  let r : Reader := ⟨file,base,blob⟩
  r.symbolNames.bind fun symbols => r.fixups.bind fun fixups =>
  (r.array 0x78 44 r.customSection).bind fun sections =>
  (r.table 0xa8).bind fun (ownAt,_) => (r.dylibInfo ownAt).bind fun (own,_) =>
  (r.table 0xb0).bind fun (dylibsAt,count) => (r.dylibInfos dylibsAt count).bind fun dylibs =>
  r.debugInfos.bind fun debugInfos => (r.entries symbols).bind fun entries =>
  (readLe 4 blob 0x14).bind fun cputype => (readLe 4 blob 0x18).bind fun cpusubtype =>
  (readLe 4 blob 0x1c).bind fun platform => (readLe 4 blob 0x20).bind fun minos =>
  (readLe 4 blob 0x24).bind fun sdk => (readLe 8 blob 0x28).map fun flags =>
    { cputype := cputype, cpusubtype := cpusubtype, platform := platform, minos := minos
      sdk := sdk, flags := flags, entries := entries, fixups := fixups, sections := sections
      own := own, dylibs := dylibs, debugInfos := debugInfos }

end Reader

end MoldMacho.Mergeable
