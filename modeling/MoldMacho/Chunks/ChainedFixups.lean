import MoldMacho.Chunks.Opcodes
import MoldMacho.Chunks.Segments
import MoldMacho.Lib.Bytes

/-!
# Chained fixups

The payload lists, for each page of each segment, where its first fixup
is. Each fixup's word in the data says what it is and how far the next one
of its page lies. The starts and the words are written apart; dyld walks
from one to the other.
-/

set_option autoImplicit false

namespace MoldMacho.ChainedFixups
open MoldMacho.Segments MoldMacho.Opcodes MoldMacho.Bytes

/-- A fixup: its address, the symbol it binds (`none` for a rebase), and
the addend. -/
structure Fixup where
  addr : ℕ
  sym : Option ℕ
  addend : ℕ
  deriving DecidableEq

/-- What the encoders read of the link. -/
structure Image where
  segments : List OutputSegment
  /-- The address of the Mach-O header. -/
  base : ℕ
  segmentAlign : ℕ
  x86 : Bool := false
  /-- Rebase targets are offsets from the image's address. -/
  offsetFormat : Bool := true
  preload : Bool := false
  fixupChainsSection : Bool := false

def maxInlineAddend : ℕ := 255

def tableAddend (addend : ℕ) : ℕ := if addend ≤ maxInlineAddend then 0 else addend

/-- The import entry a fixup names, if it is a bind. -/
def Fixup.imported (f : Fixup) : Option (ℕ × ℕ) := f.sym.map fun sym => (sym, tableAddend f.addend)

def addImport (imports : List (ℕ × ℕ)) (f : Fixup) : List (ℕ × ℕ) :=
  match f.imported with
  | none => imports
  | some i => if i ∈ imports then imports else imports ++ [i]

/-- `import_table`: each import once, in the order the binds first name
them. Its index is its ordinal. -/
def importTable (fixups : List Fixup) : List (ℕ × ℕ) := fixups.foldl addImport []

/-- `segment_fixups`: the slice between two partition points. -/
def segmentFixups (fixups : List Fixup) (seg : OutputSegment) : List Fixup :=
  let lo := (fixups.takeWhile fun f => f.addr < seg.vmaddr).length
  let hi := (fixups.takeWhile fun f => f.addr < seg.vmaddr+seg.vmsize).length
  (fixups.take hi).drop lo

def chainPageSize (img : Image) : ℕ := if img.x86 then 0x1000 else img.segmentAlign

def pointerFormat (img : Image) : ℕ := if img.offsetFormat then 6 else 2

/-! The starts. -/

def ptrStartNone : ℕ := 0xffff

/-- The starts of `n` pages from page `i`. -/
def pageStarts (vmaddr pageSize : ℕ) : ℕ → ℕ → List Fixup → List ℕ
  | 0, _, _ => []
  | n+1, i, fx =>
    let pageAddr := vmaddr+i*pageSize
    let fx := fx.dropWhile fun f => f.addr < pageAddr
    let start := match fx with
      | [] => ptrStartNone
      | f::_ => if f.addr < pageAddr+pageSize then f.addr-pageAddr else ptrStartNone
    start :: pageStarts vmaddr pageSize n (i+1) fx

/-- The pages up to that of the last fixup. -/
def numPages (img : Image) (seg : OutputSegment) (fx : List Fixup) : ℕ :=
  match fx.getLast? with
  | none => 0
  | some f => (f.addr+1-seg.vmaddr + chainPageSize img-1) / chainPageSize img

/-- A segment's `dyld_chained_starts_in_segment`. -/
def startsRecord (img : Image) (seg : OutputSegment) (fx : List Fixup) : List UInt8 :=
  let npages := numPages img seg fx
  toLe 4 (22+npages*2) ++ toLe 2 (chainPageSize img) ++ toLe 2 (pointerFormat img) ++
    toLe 8 (wrappingSub seg.vmaddr img.base) ++ toLe 4 0 ++ toLe 2 npages ++
    (pageStarts seg.vmaddr (chainPageSize img) npages 0 fx).flatMap (toLe 2)

/-- `pad`, to a multiple of 8. -/
def pad8 (buf : List UInt8) : List UInt8 := buf ++ List.replicate ((8-buf.length%8)%8) 0

def segCount (img : Image) : ℕ := img.segments.length - (if img.preload then 1 else 0)

/-- A segment's turn in the loop of `write_starts_in_image`; `none` is the
error of a page size dyld does not read. -/
def writeSegment (img : Image) (fixups : List Fixup) (startsOffset : ℕ) (buf : List UInt8)
    (entry : OutputSegment × ℕ) : Option (List UInt8) :=
  let fx := segmentFixups fixups entry.1
  if fx = [] then some buf
  else
    let buf := pad8 buf
    let off := buf.length-startsOffset
    let buf := writeAt buf (startsOffset+4+entry.2*4) (toLe 4 off)
    if chainPageSize img = 0x1000 ∨ chainPageSize img = 0x4000 then
      some (buf ++ startsRecord img entry.1 fx)
    else none

def writeStartsInImage (img : Image) (fixups : List Fixup) (buf : List UInt8) :
    Option (List UInt8) :=
  img.segments.zipIdx.foldlM (writeSegment img fixups buf.length)
    (buf ++ toLe 4 (segCount img) ++ List.replicate (segCount img*4) 0)

/-! The words. -/

def maxChainStride : ℕ := 0xfff*4

/-- A rebase's word but for its link; `none` is the target that does not
fit, which ends the link. -/
def rebaseWord (targetBase val : ℕ) : Option ℕ :=
  let high8 := val >>> 56
  let target := wrappingSub (val % 2^56) targetBase
  if target >>> 36 ≠ 0 then none else some (target ||| (high8 <<< 36))

def targetBase (img : Image) : ℕ := if img.offsetFormat then img.base else 0

/-- Whether a chain goes on from `addr` to the next fixup. -/
def chainsTo (img : Image) (seg : OutputSegment) (addr next : ℕ) : Bool :=
  let page (addr : ℕ) := (addr-seg.vmaddr) >>> Nat.log2 (chainPageSize img)
  if img.fixupChainsSection then next-addr ≤ maxChainStride else page next = page addr

/-- The link of a fixup to the one after it. -/
def linkNext (img : Image) (seg : OutputSegment) (addr : ℕ) : List Fixup → ℕ
  | [] => 0
  | g::_ => if chainsTo img seg addr g.addr then (g.addr-addr)/4 else 0

/-- The word of a fixup, from what its place held. -/
def fixupWord (img : Image) (imports : List (ℕ × ℕ)) (f : Fixup) (next val : ℕ) : Option ℕ :=
  if f.addr%4 ≠ 0 then none
  else
    match f.imported with
    | some i =>
      let inlineAddend := if f.addend ≤ maxInlineAddend then f.addend else 0
      some (imports.idxOf i ||| (inlineAddend <<< 24) ||| (next <<< 51) ||| (1 <<< 63))
    | none => (rebaseWord (targetBase img) val).map fun word => word ||| (next <<< 51)

/-- The turns of the loop over a segment's fixups. -/
def segmentPatches (img : Image) (imports : List (ℕ × ℕ)) (seg : OutputSegment) :
    List Fixup → List Patch
  | [] => []
  | f::rest =>
    ⟨seg.fileoff+(f.addr-seg.vmaddr), fixupWord img imports f (linkNext img seg f.addr rest)⟩ ::
      segmentPatches img imports seg rest

/-- `write_fixup_chains`. -/
def writeFixupChains (img : Image) (fixups : List Fixup) (buf : List UInt8) :
    Option (List UInt8) :=
  (img.segments.flatMap fun seg =>
    segmentPatches img (importTable fixups) seg (segmentFixups fixups seg)).foldlM Patch.apply buf

end MoldMacho.ChainedFixups
