import Mathlib.Data.Nat.Notation
import MoldMacho.Chunks.Segments

/-!
# Chunks and the segments that hold them

The header of a chunk of the output, and a segment with its chunks. A chunk
is its id and its header together.
-/

set_option autoImplicit false

namespace MoldMacho.Chunks
open MoldMacho.Segments

/-- The bytes of a name. -/
def bytes (name : String) : List UInt8 := name.toList.map fun c => c.toNat.toUInt8

/-- The chunks the passes tell apart; the others by a number. -/
inductive ChunkId where
  | machHeader
  | codeSignature
  | unwindInfo
  | other (n : ℕ)
  deriving DecidableEq

structure ChunkHeader where
  segname : List UInt8
  sectname : List UInt8
  addr : ℕ := 0
  fileoff : ℕ := 0
  size : ℕ := 0
  p2align : ℕ := 0
  flags : UInt32 := 0
  isSect : Bool := true
  sectIdx : UInt8 := 0
  deriving DecidableEq

structure Chunk extends ChunkHeader where
  id : ChunkId
  deriving DecidableEq

def sectionType : UInt32 := 0xff

def sZerofill : UInt32 := 0x1

def sThreadLocalRegular : UInt32 := 0x11

def sThreadLocalZerofill : UInt32 := 0x12

def sAttrPureInstructions : UInt32 := 0x80000000

def ChunkHeader.isZerofill (hdr : ChunkHeader) : Bool :=
  hdr.flags &&& sectionType == sZerofill || hdr.flags &&& sectionType == sThreadLocalZerofill

structure Segment extends OutputSegment where
  chunks : List Chunk := []

def Segment.new (name : List UInt8) : Segment where
  name := name
  vmaddr := 0
  vmsize := 0

end MoldMacho.Chunks
