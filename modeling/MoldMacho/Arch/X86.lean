import MoldMacho.Arch.Relocs

/-!
# The x86-64 target's relocations

Reading a section's records, applying a subsection's relocations to its
bytes, and what the fields written mean.
-/

set_option autoImplicit false

namespace MoldMacho.Arch.X86

open Bytes Edits BitFields
open InputSections (RelocTarget)

inductive RelocType where
  | unsigned
  | signed
  | branch
  | gotLoad
  | got
  | subtractor
  | signed1
  | signed2
  | signed4
  | tlv
  deriving DecidableEq

namespace RelocType

def ofTy (ty : BitVec 4) : Option RelocType :=
  [unsigned, signed, branch, gotLoad, got, subtractor, signed1, signed2, signed4, tlv][ty.toNat]?

/-- The forms a type's records take. -/
def forms : RelocType → BitVec 16
  | unsigned => relocForm false 2 true ||| relocForm false 3 true ||| relocForm false 2 false |||
      relocForm false 3 false
  | subtractor => relocForm false 2 true ||| relocForm false 3 true
  | signed | signed1 | signed2 | signed4 => relocForm true 2 true ||| relocForm true 2 false
  -- a one-byte branch must name a symbol
  | branch => relocForm true 2 true ||| relocForm true 2 false ||| relocForm true 0 true
  | gotLoad | got | tlv => relocForm true 2 true

/-- The instruction bytes after the field. -/
def bias : RelocType → BitVec 64
  | signed1 => 1
  | signed2 => 2
  | signed4 => 4
  | _ => 0

end RelocType

section Read

def isSubtractor (r : MachRel) : Bool := RelocType.ofTy r.ty == some .subtractor

def readEmbedded (contents : List UInt8) (r : MachRel) : Option (BitVec 64) :=
  match r.p2size with
  | 0 => (bytesAt contents r.offset 1).map fun b => (BitVec.ofNat 8 (ofLe b)).signExtend 64
  | 2 => (bytesAt contents r.offset 4).map fun b => (word b).signExtend 64
  | _ => (bytesAt contents r.offset 8).map dword

/-- A section-relative field holds the address it points at, a pc-relative
one as a displacement from its end. -/
def readTarget (sections : List MachSection) (hdr : MachSection) (r : MachRel)
    (addend : BitVec 64) : Option (RelocTarget × BitVec 64) :=
  if r.isExtern then some (.sym r.idx,addend)
  else if r.isPcrel then
    sectionTarget sections r (hdr.addr + BitVec.ofNat 64 r.offset + 4 + addend)
  else sectionTarget sections r addend

def readReloc (sections : List MachSection) (hdr : MachSection) (contents : List UInt8)
    (prev : Option MachRel) (r : MachRel) : Option (Reloc RelocType) :=
  (RelocType.ofTy r.ty).bind fun ty =>
    if hasRelocForm r ty.forms then
      (readEmbedded contents r).bind fun embedded =>
      (readTarget sections hdr r (embedded + ty.bias)).map fun (target,addend) =>
        { offset := r.offset, ty := ty, size := 2^r.p2size, isPcrel := r.isPcrel,
          isSubtracted := prev.any isSubtractor, target := target, addend := addend }
    else none

def readRelocsFrom (sections : List MachSection) (hdr : MachSection) (contents : List UInt8) :
    Option MachRel → List MachRel → Option (List (Reloc RelocType))
  | _, [] => some []
  | prev, r::rels =>
    (readReloc sections hdr contents prev r).bind fun x =>
    (readRelocsFrom sections hdr contents (some r) rels).map (x :: ·)

def readRelocs (sections : List MachSection) (hdr : MachSection) (contents : List UInt8)
    (rels : List MachRel) : Option (List (Reloc RelocType)) :=
  readRelocsFrom sections hdr contents none rels

/-- What a relocation read from a section is sure to be: of its type's
size, and a call of a symbol with an addend its field holds. -/
structure Made (x : Reloc RelocType) : Prop where
  pointer : x.ty = .unsigned ∨ x.ty = .subtractor → x.size = 4 ∨ x.size = 8
  branch : x.ty = .branch → x.size = 1 ∨ x.size = 4
  word : x.ty ≠ .unsigned → x.ty ≠ .subtractor → x.ty ≠ .branch → x.size = 4
  call : x.ty = .branch → x.size = 4 → ∀ idx, x.target = .sym idx →
    (x.addend.setWidth 32).signExtend 64 = x.addend

def RelocType.p2sizes : RelocType → List ℕ
  | .unsigned | .subtractor => [2,3]
  | .branch => [0,2]
  | _ => [2]

theorem forms_p2size (ty : RelocType) (form : BitVec 4) (h : ty.forms.getLsbD form.toNat = true) :
    (form.extractLsb' 1 2).toNat ∈ ty.p2sizes := by
  revert h form
  cases ty
  all_goals decide

theorem section_target_not_sym {sections : List MachSection} {r : MachRel} {addr : Addr}
    {target : RelocTarget × BitVec 64} (h : sectionTarget sections r addr = some target) (idx : ℕ) :
    target.1 ≠ .sym idx := by
  rw [sectionTarget] at h
  split at h
  · cases h
  · rw [Option.map_eq_some_iff] at h
    obtain ⟨sec,-,rfl⟩ := h
    exact RelocTarget.noConfusion

theorem read_target_sym {sections : List MachSection} {hdr : MachSection} {r : MachRel}
    {addend : BitVec 64} {target : RelocTarget × BitVec 64} {idx : ℕ}
    (h : readTarget sections hdr r addend = some target) (hidx : target.1 = .sym idx) :
    target.2 = addend := by
  rw [readTarget] at h
  split at h
  · cases h
    rfl
  · split at h
    all_goals exact absurd hidx (section_target_not_sym h idx)

theorem read_reloc_made {sections : List MachSection} {hdr : MachSection} {contents : List UInt8}
    {prev : Option MachRel} {r : MachRel} {x : Reloc RelocType}
    (h : readReloc sections hdr contents prev r = some x) : Made x := by
  rw [readReloc, Option.bind_eq_some_iff] at h
  obtain ⟨ty,-,h⟩ := h
  split at h
  case isFalse => cases h
  case isTrue hform =>
    rw [Option.bind_eq_some_iff] at h
    obtain ⟨embedded,hembedded,h⟩ := h
    rw [Option.map_eq_some_iff] at h
    obtain ⟨target,htarget,rfl⟩ := h
    have hmem := forms_p2size ty r.form hform
    rw [← form_p2size] at hmem
    have hsize : ∀ k, r.p2size = k → (2^r.p2size : ℕ) = 2^k := fun k hk => by rw [hk]
    refine ⟨fun hty => ?_,fun hty => ?_,fun h1 h2 h3 => ?_,fun hty h4 idx hidx => ?_⟩
    · have hp : r.p2size = 2 ∨ r.p2size = 3 := by
        rcases hty with hty | hty
        all_goals
          obtain rfl : ty = _ := hty
          simpa [RelocType.p2sizes] using hmem
      exact hp.imp (hsize 2) (hsize 3)
    · obtain rfl : ty = .branch := hty
      have hp : r.p2size = 0 ∨ r.p2size = 2 := by simpa [RelocType.p2sizes] using hmem
      exact hp.imp (hsize 0) (hsize 2)
    · apply hsize 2
      cases ty
      case unsigned | subtractor | branch => simp at h1 h2 h3
      all_goals simpa [RelocType.p2sizes] using hmem
    · obtain rfl : ty = .branch := hty
      have hp : r.p2size = 2 := by
        have hp : r.p2size = 0 ∨ r.p2size = 2 := by simpa [RelocType.p2sizes] using hmem
        rcases hp with h0 | h2
        · exact absurd ((hsize 0 h0).symm.trans h4) (by norm_num)
        · exact h2
      simp only [readEmbedded, hp, Option.map_eq_some_iff] at hembedded
      obtain ⟨b,-,rfl⟩ := hembedded
      show (target.2.setWidth 32).signExtend 64 = target.2
      rw [read_target_sym htarget hidx, RelocType.bias]
      · rw [show (word b).signExtend 64 + 0 = (word b).signExtend 64 by simp,
          set_width_sign_extend _ (by omega)]
      all_goals exact RelocType.noConfusion

theorem read_relocs_from_made {sections : List MachSection} {hdr : MachSection}
    {contents : List UInt8} (rels : List MachRel) (prev : Option MachRel)
    {xs : List (Reloc RelocType)} (h : readRelocsFrom sections hdr contents prev rels = some xs) :
    ∀ x ∈ xs, Made x := by
  induction rels generalizing prev xs with
  | nil =>
    cases h
    simp
  | cons r rels ih =>
    rw [readRelocsFrom, Option.bind_eq_some_iff] at h
    obtain ⟨x,hx,h⟩ := h
    rw [Option.map_eq_some_iff] at h
    obtain ⟨xs,hxs,rfl⟩ := h
    exact List.forall_mem_cons.mpr ⟨read_reloc_made hx,ih (some r) hxs⟩

end Read

end MoldMacho.Arch.X86
