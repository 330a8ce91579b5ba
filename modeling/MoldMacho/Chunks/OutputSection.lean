import MoldMacho.Lib.Rows
import MoldMacho.Thunks

/-!
# Output sections

The members of an output section in order, the thunks among them and the
synthesized tails after them; and the slices its contents are split into, one for
each member.
-/

set_option autoImplicit false

namespace MoldMacho.OutputSections
open MoldMacho.Align MoldMacho.Thunks
open MoldMacho.InputSections (InputSection)

/-- Synthesized data after the members. -/
inductive Tail where
  | none
  | objcMethname
  | objcSelrefs
  | dataBlobs
  | objcMethlists
  deriving DecidableEq

/-- The records of a tail that keep their own offsets in the section, from when
it is appended. The others are looked for at the section's `tailOff`. -/
def Tail.recorded : Tail → Bool
  | .dataBlobs | .objcMethlists => true
  | .none | .objcMethname | .objcSelrefs => false

structure OutputSection where
  members : List ℕ := []
  thunks : List Thunk := []
  size : ℕ := 0
  p2align : ℕ := 0
  tail : Tail := .none
  tailOff : ℕ := 0

def appendTail (osec : OutputSection) (p2align : ℕ) (tail : Tail) (tailSize : ℕ) : OutputSection :=
  let tailOff := alignTo osec.size (2^p2align)
  { osec with p2align := max osec.p2align p2align, tail, tailOff, size := tailOff + tailSize }

section Layout
variable (isecs : ℕ → InputSection)

def layoutFrom : ℕ → List ℕ → List ℕ × ℕ
  | off, [] => ([],off)
  | off, id::members =>
    let start := (isecs id).alignOffset off
    let (offs,size) := layoutFrom (start + (isecs id).size) members
    (start::offs,size)

/-- The members' offsets, each at its alignment after the one before, and the
section's size. -/
def layout (osec : OutputSection) : List ℕ × ℕ := layoutFrom isecs 0 osec.members

/-- Records a layout: the offset of a subsection is 32 bits wide. -/
def computeSectionSize (offsets : ℕ → ℕ) (osec : OutputSection) : (ℕ → ℕ) × OutputSection :=
  let (offs,size) := layout isecs osec
  ((osec.members.zip offs).foldl (fun offsets e => Function.update offsets e.1 (e.2 % 2^32)) offsets,
    { osec with size })

end Layout

/-- Lays the section out again, with thunks. -/
def createThunks (target : Target) (ctx : Context) (reach : Reach) (offsets : ℕ → ℕ)
    (osec : OutputSection) : (ℕ → ℕ) × OutputSection :=
  let s := Thunks.createThunks target ctx osec.members reach offsets
  (s.offsets,{ osec with size := s.offset, thunks := s.thunks })

/-! ## The members' slices -/

/-- How the workers split the members between them. -/
inductive Splits where
  | leaf
  | node (left right : Splits)

/-- A member by its place, and the range of the contents it is handed. -/
structure Slice where
  member : ℕ
  start : ℕ
  len : ℕ
  deriving DecidableEq

section Slices
variable (offset : ℕ → ℕ)

/-- Hands out a slice to its members one by one, from the one at `pos`. -/
def handOut (start len : ℕ) : ℕ → ℕ → ℕ → Option (List Slice)
  | 0, _, _ => some []
  | n+1, i, pos =>
    let stop := offset (i+1)
    if stop < pos ∨ len < stop - pos then none
    else (handOut (start + (stop-pos)) (len - (stop-pos)) n (i+1) stop).map
      (⟨i,start,stop-pos⟩ :: ·)

/-- Splits the members `lo` to `hi` and their slice at the middle, as often as
the workers want. -/
def splitMembers : Splits → ℕ → ℕ → ℕ → ℕ → Option (List Slice)
  | .leaf, lo, hi, start, len => handOut offset start len (hi-lo) lo (offset lo)
  | .node left right, lo, hi, start, len =>
    if hi - lo ≤ 1 then handOut offset start len (hi-lo) lo (offset lo)
    else
      let mid := lo + (hi-lo)/2
      if offset mid < offset lo ∨ len < offset mid - offset lo then none
      else
        (splitMembers left lo mid start (offset mid - offset lo)).bind fun front =>
          (splitMembers right mid hi (start + (offset mid - offset lo))
            (len - (offset mid - offset lo))).map (front ++ ·)

end Slices

/-- Where the member of a place starts, and the section ends after the last. -/
def memberOffset (offsets : ℕ → ℕ) (osec : OutputSection) (i : ℕ) : ℕ :=
  (osec.members[i]?.map offsets).getD osec.size

/-- The slices of the section's contents that the members are handed. -/
def forEachMember (splits : Splits) (offsets : ℕ → ℕ) (osec : OutputSection) : Option (List Slice) :=
  let offset := memberOffset offsets osec
  if osec.size < offset 0 then none
  else splitMembers offset splits 0 osec.members.length (offset 0) (osec.size - offset 0)

end MoldMacho.OutputSections
