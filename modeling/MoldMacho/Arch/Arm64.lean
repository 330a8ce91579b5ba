import MoldMacho.Arch.Arm64Insns

/-!
# The arm64 target's relocations

Reading a section's records, with the forms and instructions they are
refused for, and applying a subsection's relocations to its bytes.
-/

set_option autoImplicit false

namespace MoldMacho.Arch.Arm64

open Bytes Edits
open InputSections (RelocTarget)

inductive RelocType where
  | unsigned
  | subtractor
  | branch26
  | page21
  | pageoff12
  | gotLoadPage21
  | gotLoadPageoff12
  | pointerToGot
  | tlvpLoadPage21
  | tlvpLoadPageoff12
  | addend
  deriving DecidableEq

namespace RelocType

def ofTy (ty : BitVec 4) : Option RelocType :=
  [unsigned, subtractor, branch26, page21, pageoff12, gotLoadPage21, gotLoadPageoff12,
    pointerToGot, tlvpLoadPage21, tlvpLoadPageoff12, addend][ty.toNat]?

/-- The forms a type's records take. -/
def forms : RelocType → BitVec 16
  | unsigned => relocForm false 2 true ||| relocForm false 3 true ||| relocForm false 2 false |||
      relocForm false 3 false
  | subtractor => relocForm false 2 true ||| relocForm false 3 true
  | branch26 | page21 | gotLoadPage21 | tlvpLoadPage21 | pointerToGot => relocForm true 2 true
  | pageoff12 | gotLoadPageoff12 | tlvpLoadPageoff12 => relocForm false 2 true
  | addend => relocForm false 2 false

end RelocType

section Read

def isSubtractor (r : MachRel) : Bool := RelocType.ofTy r.ty == some .subtractor

/-- Whether an instruction takes the page offset of a GOT or TLV load. -/
def takesLoad : RelocType → BitVec 32 → Bool
  | .gotLoadPageoff12, insn =>
    insn &&& 0x7fc00000#32 == 0x11000000#32 || parseLdst insn == some (false,8)
  | .tlvpLoadPageoff12, insn => (parseLdst insn).any fun load => !load.1
  | _, _ => true

/-- The type of a record the linker can apply, or none where it fails the
link. -/
def checkReloc (contents : List UInt8) (prev : Option MachRel) (r : MachRel) (offset : ℕ) :
    Option RelocType :=
  (RelocType.ofTy r.ty).bind fun ty =>
    if !hasRelocForm r ty.forms ||
        (ty == .unsigned && r.p2size == 2 && !prev.any isSubtractor) then none
    else if ty == .gotLoadPageoff12 || ty == .tlvpLoadPageoff12 then
      (bytesAt contents offset 4).bind fun b => if takesLoad ty (word b) then some ty else none
    else some ty

/-- The addend: what an UNSIGNED's field holds, else what an ADDEND before
it says. -/
def readAddend (contents : List UInt8) (ty : RelocType) (r : MachRel) (offset : ℕ)
    (addend : BitVec 64) : Option (BitVec 64) :=
  if ty = .unsigned then
    if r.p2size = 2 then (bytesAt contents offset 4).map fun b => (word b).signExtend 64
    else (bytesAt contents offset 8).map dword
  else some addend

def readReloc (sections : List MachSection) (contents : List UInt8) (prev : Option MachRel)
    (r : MachRel) (offset : ℕ) (addend : BitVec 64) : Option (Reloc RelocType) :=
  if contents.length < offset then none
  else
    (checkReloc contents prev r offset).bind fun ty =>
    (readAddend contents ty r offset addend).bind fun addend =>
    (if r.isExtern then some (RelocTarget.sym r.idx,addend)
      else sectionTarget sections r addend).map fun (target,addend) =>
      { offset := offset, ty := ty, size := 2^r.p2size, isPcrel := r.isPcrel,
        isSubtracted := prev.any isSubtractor, target := target, addend := addend }

def readRelocsFrom (sections : List MachSection) (contents : List UInt8) :
    Option MachRel → List MachRel → Option (List (Reloc RelocType))
  | _, [] => some []
  | prev, [r] =>
    if RelocType.ofTy r.ty = some .addend then none
    else (readReloc sections contents prev r r.offset 0).map ([·])
  | prev, r::next::rels =>
    if RelocType.ofTy r.ty = some .addend then
      (readReloc sections contents (some r) next r.offset
        ((r.bits.extractLsb' 0 24).signExtend 64)).bind fun x =>
      (readRelocsFrom sections contents (some next) rels).map (x :: ·)
    else
      (readReloc sections contents prev r r.offset 0).bind fun x =>
      (readRelocsFrom sections contents (some r) (next::rels)).map (x :: ·)

def readRelocs (sections : List MachSection) (contents : List UInt8) (rels : List MachRel) :
    Option (List (Reloc RelocType)) :=
  readRelocsFrom sections contents none rels

/-- What a relocation read from a section is sure to be: of its type's
size, and a GOT or TLV load's page offset on an instruction that takes one. -/
structure Made (contents : List UInt8) (x : Reloc RelocType) : Prop where
  unsigned : x.ty = .unsigned → x.isSubtracted = false → x.size = 8
  subtractor : x.ty = .subtractor → x.size = 4 ∨ x.size = 8
  word : x.ty ≠ .unsigned → x.ty ≠ .subtractor → x.size = 4
  load : x.ty = .gotLoadPageoff12 ∨ x.ty = .tlvpLoadPageoff12 →
    ∃ b, bytesAt contents x.offset 4 = some b ∧ (immOffset (Arch.word b)).isSome

theorem forms_p2size (ty : RelocType) (form : BitVec 4) (h : ty.forms.getLsbD form.toNat = true) :
    (ty = .unsigned ∨ ty = .subtractor →
        (form.extractLsb' 1 2).toNat = 2 ∨ (form.extractLsb' 1 2).toNat = 3) ∧
      (ty ≠ .unsigned → ty ≠ .subtractor → (form.extractLsb' 1 2).toNat = 2) := by
  revert h form
  cases ty
  all_goals decide

theorem load_offset {ty : RelocType} {insn : BitVec 32}
    (hty : ty = .gotLoadPageoff12 ∨ ty = .tlvpLoadPageoff12) (h : takesLoad ty insn = true) :
    (immOffset insn).isSome := by
  have hload : (parseLdst insn).isSome → (immOffset insn).isSome := by
    intro hp
    by_cases hl : isLdst insn = true
    · simp [immOffset, hl]
    · simp [parseLdst, hl] at hp
  have hadd : insn &&& 0x7fc00000#32 = 0x11000000#32 → (immOffset insn).isSome := by
    intro ha
    have hk : insn &&& 0x5fc00000#32 = 0x11000000#32 := by
      calc insn &&& 0x5fc00000#32 = (insn &&& 0x7fc00000#32) &&& 0x5fc00000#32 := by
            rw [BitVec.and_assoc]
            congr 1
        _ = 0x11000000#32 := by rw [ha]; decide
    by_cases hl : isLdst insn = true
    · simp [immOffset, hl]
    · simp [immOffset, hl, isAddImm, hk]
  rcases hty with rfl | rfl
  · rw [takesLoad, Bool.or_eq_true, beq_iff_eq, beq_iff_eq] at h
    rcases h with h | h
    · exact hadd h
    · exact hload (by rw [h]; rfl)
  · rw [takesLoad, Option.any_eq_true] at h
    obtain ⟨load,hp,-⟩ := h
    exact hload (by rw [hp]; rfl)

theorem check_reloc_some {contents : List UInt8} {prev : Option MachRel} {r : MachRel} {offset : ℕ}
    {ty : RelocType} (h : checkReloc contents prev r offset = some ty) :
    ty.forms.getLsbD r.form.toNat = true ∧
      (ty = .unsigned → r.p2size = 2 → prev.any isSubtractor = true) ∧
      (ty = .gotLoadPageoff12 ∨ ty = .tlvpLoadPageoff12 →
        ∃ b, bytesAt contents offset 4 = some b ∧ takesLoad ty (word b) = true) := by
  rw [checkReloc, Option.bind_eq_some_iff] at h
  obtain ⟨ty',-,h⟩ := h
  split at h
  · cases h
  case isFalse hforms =>
    simp only [hasRelocForm, Bool.or_eq_true, Bool.not_eq_true', Bool.and_eq_true, beq_iff_eq,
      not_or, Bool.not_eq_false, not_and] at hforms
    split at h
    case isTrue hload =>
      rw [Option.bind_eq_some_iff] at h
      obtain ⟨b,hb,h⟩ := h
      split at h
      · cases h
        exact ⟨hforms.1,fun h1 h2 => hforms.2 ⟨h1,h2⟩,fun _ => ⟨b,hb,by assumption⟩⟩
      · cases h
    case isFalse hload =>
      cases h
      refine ⟨hforms.1,fun h1 h2 => hforms.2 ⟨h1,h2⟩,fun h => ?_⟩
      simp only [Bool.or_eq_true, beq_iff_eq] at hload
      exact absurd h hload

theorem read_reloc_made {sections : List MachSection} {contents : List UInt8}
    {prev : Option MachRel} {r : MachRel} {offset : ℕ} {addend : BitVec 64} {x : Reloc RelocType}
    (h : readReloc sections contents prev r offset addend = some x) : Made contents x := by
  rw [readReloc] at h
  split at h
  · cases h
  · rw [Option.bind_eq_some_iff] at h
    obtain ⟨ty,hcheck,h⟩ := h
    rw [Option.bind_eq_some_iff] at h
    obtain ⟨a,-,h⟩ := h
    rw [Option.map_eq_some_iff] at h
    obtain ⟨target,-,rfl⟩ := h
    obtain ⟨hform,hpointer,hload⟩ := check_reloc_some hcheck
    obtain ⟨hlong,hword⟩ := forms_p2size ty r.form hform
    rw [← form_p2size] at hlong hword
    have hsize : ∀ k, r.p2size = k → (2^r.p2size : ℕ) = 2^k := fun k hk => by rw [hk]
    refine ⟨fun hty hsub => ?_,fun hty => ?_,fun h1 h2 => hsize 2 (hword h1 h2),fun hty => ?_⟩
    · rcases hlong (Or.inl hty) with h2 | h3
      · exact absurd (hpointer hty h2) (ne_true_of_eq_false hsub)
      · exact hsize 3 h3
    · rcases hlong (Or.inr hty) with h2 | h3
      · exact Or.inl (hsize 2 h2)
      · exact Or.inr (hsize 3 h3)
    · obtain ⟨b,hb,htakes⟩ := hload hty
      exact ⟨b,hb,load_offset hty htakes⟩

theorem read_relocs_from_made {sections : List MachSection} {contents : List UInt8}
    (rels : List MachRel) (prev : Option MachRel) {xs : List (Reloc RelocType)}
    (h : readRelocsFrom sections contents prev rels = some xs) : ∀ x ∈ xs, Made contents x := by
  induction prev, rels using readRelocsFrom.induct generalizing xs with
  | case1 prev =>
    cases h
    simp
  | case2 prev r hty => simp [readRelocsFrom, hty] at h
  | case3 prev r hty =>
    rw [readRelocsFrom, if_neg hty, Option.map_eq_some_iff] at h
    obtain ⟨x,hx,rfl⟩ := h
    simpa using read_reloc_made hx
  | case4 prev r next rels hty ih =>
    rw [readRelocsFrom, if_pos hty, Option.bind_eq_some_iff] at h
    obtain ⟨x,hx,h⟩ := h
    rw [Option.map_eq_some_iff] at h
    obtain ⟨xs,hxs,rfl⟩ := h
    exact List.forall_mem_cons.mpr ⟨read_reloc_made hx,ih hxs⟩
  | case5 prev r next rels hty ih =>
    rw [readRelocsFrom, if_neg hty, Option.bind_eq_some_iff] at h
    obtain ⟨x,hx,h⟩ := h
    rw [Option.map_eq_some_iff] at h
    obtain ⟨xs,hxs,rfl⟩ := h
    exact List.forall_mem_cons.mpr ⟨read_reloc_made hx,ih hxs⟩

end Read

end MoldMacho.Arch.Arm64
