import MoldMacho.Chunks.Header
import MoldMacho.Lib.Lists
import MoldMacho.Util.Align

/-!
# Laying out the segments

Each segment's chunks are laid out in the file and the address space one after
another, at an address where the segment would go after the ones before it; the
segments are then given their own addresses and moved there whole, and refused
if they overlap. Addresses and file offsets are natural numbers: those of an
image fit in 64 bits.
-/

set_option autoImplicit false

namespace MoldMacho.LayOutSegments
open MoldMacho.Segments MoldMacho.Chunks MoldMacho.Align MoldMacho.Lists

abbrev Name := List UInt8

structure Args where
  /-- The page: a power of two. -/
  segmentAlign : ℕ
  /-- `-seg_page_size`. -/
  segPageSizes : List (Name × ℕ) := []
  segaddrs : List (Name × ℕ) := []
  segmentOrder : List Name := []
  renameSegments : List (Name × Name) := []
  imageBase : Option ℕ := none
  pagezeroSize : ℕ := 0
  stackSize : ℕ := 0
  isExecutable : Bool := true
  pie : Bool := false
  staticLink : Bool := false
  preload : Bool := false
  fixupChains : Bool := false

section Args
variable (args : Args)

/-- The address `-segaddr` pins a segment to. -/
def Args.segaddr (name : Name) : Option ℕ :=
  (args.segaddrs.find? fun pin => pin.1 == name).map Prod.snd

/-- The boundary the segment after a segment starts on. -/
def Args.segPageSize (name : Name) : ℕ :=
  ((args.segPageSizes.find? fun size => size.1 == name).map Prod.snd).getD args.segmentAlign

def followsPinned (name : Name) : Bool → List Name → Bool
  | _, [] => false
  | pinned, listed::order =>
    if listed = name then pinned
    else followsPinned name (pinned || (args.segaddr listed).isSome) order

/-- Whether `-segment_order` lists a segment after one that `-segaddr` pins. -/
def Args.followsPinnedSegment (name : Name) : Bool := followsPinned args name false args.segmentOrder

def Args.dyldSlides : Bool := !args.staticLink && (!args.isExecutable || args.pie)

def renamedSegment (name : Name) : Name :=
  ((args.renameSegments.find? fun rename => rename.1 == name).map Prod.snd).getD name

/-- The segment that holds the mach header. -/
def headerSegment : Name :=
  if args.staticLink then renamedSegment args (bytes "__TEXT") else bytes "__TEXT"

def inPlaceSegment : Option Name := if args.preload then none else some (headerSegment args)

def imageBase : ℕ := args.imageBase.getD args.pagezeroSize

def machHeaderAddr : ℕ := (args.segaddr (headerSegment args)).getD (imageBase args)

/-- The room a segment takes from the segments after it. -/
def segmentSpan (seg : Segment) : ℕ := alignTo seg.vmsize (args.segPageSize seg.name)

/-- The alignment of a segment's address: a page, or its first section's
alignment if greater. -/
def segmentStartAlign (seg : Segment) : ℕ :=
  max args.segmentAlign (2^(seg.chunks.head?.map fun chunk => chunk.p2align).getD 0)

end Args

/-- The options, and the sizes of the chunks that are sized as they are laid
out. -/
structure Context where
  args : Args
  machHeaderSize : ℕ
  unwindInfoSize : ℕ
  /-- By the chunk's file offset. -/
  codeSignatureSize : ℕ → ℕ

def unixStack : Name := bytes "__UNIXSTACK"
def linkeditName : Name := bytes "__LINKEDIT"

section LayOut
variable (ctx : Context)

/-! ## One segment -/

def chunkSize (chunk : Chunk) (cursor : ℕ) : ℕ :=
  match chunk.id with
  | .machHeader => ctx.machHeaderSize
  | .unwindInfo => ctx.unwindInfoSize
  | .codeSignature => ctx.codeSignatureSize cursor
  | .other _ => chunk.size

/-- Places a chunk with file contents. Aligned is the address, and in
`__LINKEDIT` the file offset. -/
def placeFile (fileoff vmaddr : ℕ) (linkedit : Bool) (cursor : ℕ) (chunk : Chunk) : ℕ × Chunk :=
  if chunk.isZerofill then (cursor,chunk)
  else
    let align := 2^chunk.p2align
    let addr :=
      if linkedit then vmaddr + (alignTo cursor align - fileoff)
      else alignTo (vmaddr + (cursor - fileoff)) align
    let cursor := fileoff + (addr - vmaddr)
    let size := chunkSize ctx chunk cursor
    (cursor + size,{ chunk with fileoff := cursor, addr, size })

/-- Places a zero-fill chunk, which takes up address space alone. -/
def placeZerofill (vmEnd : ℕ) (chunk : Chunk) : ℕ × Chunk :=
  if chunk.isZerofill then
    let addr := alignTo vmEnd (2^chunk.p2align)
    (addr + chunk.size,{ chunk with addr, fileoff := 0 })
  else (vmEnd,chunk)

/-- Lays out a segment's chunks from a file offset and an address, and returns
the file offset past the segment. -/
def layoutSegment (seg : Segment) (fileoff vmaddr : ℕ) : Segment × ℕ :=
  if seg.name = pagezero then ({ seg with vmaddr := 0, vmsize := ctx.args.pagezeroSize },fileoff)
  -- A stack is mapped from nothing in the file.
  else if seg.name = unixStack then ({ seg with vmaddr, vmsize := ctx.args.stackSize },fileoff)
  else
    let linkedit := seg.name == linkeditName
    let (cursor,chunks) := mapAccum (placeFile ctx fileoff vmaddr linkedit) fileoff seg.chunks
    let filesize := cursor - fileoff
    let (vmEnd,chunks) := mapAccum placeZerofill (vmaddr + filesize) chunks
    let segPage := ctx.args.segPageSize seg.name
    if linkedit then
      ({ seg with
          chunks, vmaddr, fileoff, filesize
          vmsize := max (alignTo (vmEnd - vmaddr) segPage) filesize },
        fileoff + filesize)
    else
      let filesize := alignTo filesize ctx.args.segmentAlign
      ({ seg with
          chunks, vmaddr, fileoff, filesize
          vmsize := max (alignTo (vmEnd - vmaddr) ctx.args.segmentAlign) filesize },
        fileoff + alignTo filesize segPage)

/-! ## The segments in turn -/

/-- How far the file and the address space are laid out. -/
structure Progress where
  fileoff : ℕ
  addr : ℕ

def layoutNext (state : Progress) (seg : Segment) : Progress × Segment :=
  if seg.name = pagezero then
    let (seg,fileoff) := layoutSegment ctx seg state.fileoff 0
    ({ state with fileoff },seg)
  else if some seg.name = inPlaceSegment ctx.args then
    let vmaddr := machHeaderAddr ctx.args
    let (seg,fileoff) := layoutSegment ctx seg state.fileoff vmaddr
    ({ fileoff, addr := vmaddr + segmentSpan ctx.args seg },seg)
  else
    let vmaddr := alignTo state.addr (segmentStartAlign ctx.args seg)
    -- The file skips as many bytes as memory does, unless a segment is pinned.
    let gap := if ctx.args.segaddrs.isEmpty then vmaddr - state.addr else 0
    let (seg,fileoff) := layoutSegment ctx seg (state.fileoff + gap) vmaddr
    ({ fileoff, addr := vmaddr + segmentSpan ctx.args seg },seg)

def layoutStart : Progress where
  -- A -preload image's mach header and load commands precede the segments.
  fileoff := if ctx.args.preload then alignTo ctx.machHeaderSize ctx.args.segmentAlign else 0
  addr := imageBase ctx.args

/-! ## The segments' addresses -/

structure Span where
  start : ℕ
  stop : ℕ
  deriving DecidableEq

def Span.isEmpty (span : Span) : Bool := decide (span.stop ≤ span.start)

/-- The lowest of `base` and the ends of used spans above `floor` from which
`size` bytes run into no used span, and where they end once aligned. -/
def lowestFreeSpan (base floor size align : ℕ) (used : List Span) : Option Span :=
  let span start := Span.mk start (alignTo start align + size)
  let isFree start := used.all fun r =>
    decide (r.stop ≤ start ∨ max (span start).stop (start + 1) ≤ r.start)
  let starts := base::(used.map Span.stop).filter fun stop => decide (floor < stop)
  (starts.filter isFree).min?.map span

def isInPlace (seg : Segment) : Bool :=
  seg.name == pagezero || some seg.name == inPlaceSegment ctx.args

/-- The addresses the segments have before the others float: their own, their
`-segaddr`, or after the pinned segment before them. -/
def fixedAddrs : Option (Segment × ℕ) → List Segment → List (Option ℕ)
  | _, [] => []
  | prev, seg::segs =>
    let pinned := if isInPlace ctx seg then some seg.vmaddr else ctx.args.segaddr seg.name
    let addr :=
      match pinned, prev with
      | some addr, _ => some addr
      | none, some (before,place) =>
        if ctx.args.followsPinnedSegment seg.name then
          some (alignTo (place + segmentSpan ctx.args before) (segmentStartAlign ctx.args seg))
        else none
      | none, none => none
    addr::fixedAddrs (addr.map fun addr => (seg,addr)) segs

def spanAt (seg : Segment) (addr : ℕ) : Span := { start := addr, stop := addr + segmentSpan ctx.args seg }

/-- Gives the segments without an address one, with the spans of the fixed
segments in use from index `firstPin` on. -/
def floatSegments (base floor : ℕ) (firstPin : Option ℕ) (fixed : List Span) :
    ℕ → List Span → List (Segment × Option ℕ) → Option (List ℕ)
  | _, _, [] => some []
  | i, used, (seg,addr)::segs =>
    let used := if firstPin = some i then used ++ fixed else used
    match addr with
    | some addr => (floatSegments base floor firstPin fixed (i+1) used segs).map (addr :: ·)
    | none =>
      let size := segmentSpan ctx.args seg
      match lowestFreeSpan base floor size (segmentStartAlign ctx.args seg) used with
      | none => none
      | some span =>
        (floatSegments base floor firstPin fixed (i+1) (used ++ [span]) segs).map
          ((span.stop - size) :: ·)

def moveSegment (seg : Segment) (addr : ℕ) : Segment :=
  { seg with
    vmaddr := addr
    chunks := seg.chunks.map fun chunk => { chunk with addr := chunk.addr + addr - seg.vmaddr } }

def placedAddrs (segs : List Segment) : Option (List ℕ) :=
  let args := ctx.args
  let addrs := fixedAddrs ctx none segs
  let placed := segs.zip addrs
  let isFixed (seg : Segment × Option ℕ) : Bool := !isInPlace ctx seg.1 && seg.2.isSome
  let fixed := (placed.filter isFixed).filterMap fun seg => seg.2.map (spanAt ctx seg.1)
  let headerPinned := (inPlaceSegment args).any fun name => (args.segaddr name).isSome
  -- The -segaddr of the header's segment is no base for an image that slides.
  let detached := headerPinned && args.dyldSlides && (args.isExecutable || args.fixupChains)
  let firstPin := if detached then some 0 else placed.findIdx? isFixed
  let floor := if detached then 0 else imageBase args
  let header := segs.find? fun seg => some seg.name == inPlaceSegment args
  let used := (header.map fun seg => spanAt ctx seg seg.vmaddr).toList ++
    ((args.segaddr linkeditName).map fun addr => Span.mk addr addr).toList
  floatSegments ctx (imageBase args) floor firstPin fixed 0 used placed

def placeSegment (seg : Segment) (addr : ℕ) : Segment :=
  if isInPlace ctx seg then seg else moveSegment seg addr

def placeSegments (segs : List Segment) : Option (List Segment) :=
  (placedAddrs ctx segs).map fun addrs => List.zipWith (placeSegment ctx) segs addrs

/-! ## Overlaps -/

def span (seg : Segment) : Span := { start := seg.vmaddr, stop := seg.vmaddr + seg.vmsize }

def overlaps (a b : Segment) : Bool :=
  !(span a).isEmpty && !(span b).isEmpty &&
    decide ((span a).start < (span b).stop ∧ (span b).start < (span a).stop)

def findOverlap : List Segment → Option (Segment × Segment)
  | [] => none
  | a::segs =>
    match segs.find? (overlaps a) with
    | some b => some (a,b)
    | none => findOverlap segs

inductive Stop where
  /-- custom segments overlap -/
  | overlap (a b : Name × Span)
  /-- No address is left for a segment. -/
  | unplaced

/-- Lays out every segment but the last, `__LINKEDIT`, and returns the file
offset past them. -/
def layOutSegments (segs : List Segment) : Except Stop (List Segment × ℕ) :=
  let (progress,laid) := mapAccum (layoutNext ctx) (layoutStart ctx) segs.dropLast
  match placeSegments ctx laid with
  | none => .error .unplaced
  | some placed =>
    match findOverlap placed with
    | some (a,b) => .error (.overlap (a.name,span a) (b.name,span b))
    | none => .ok (placed ++ segs.getLast?.toList,progress.fileoff)

end LayOut

end MoldMacho.LayOutSegments
