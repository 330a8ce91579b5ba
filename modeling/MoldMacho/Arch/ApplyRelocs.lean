import MoldMacho.Arch.Arm64Apply
import MoldMacho.Arch.X86Apply

/-!
# Relocations apply exactly or are reported

A subsection's relocations, applied to its bytes without a report, give
each field that no other relocation's bytes meet its meaning, and leave
the bytes of no relocation as they were.
-/

set_option autoImplicit false

namespace MoldMacho.Arch

open Bytes Edits

section Runs

variable {T : Type} {isSubtractor : T → Bool} {span : Round T → Span}
  {step : Round T → List UInt8 → Option (List UInt8 × List Report)}

theorem rounds_mem {rels : List (Reloc T)} {us : List (Round T)}
    (h : rounds isSubtractor rels = some us) {u : Round T} (hu : u ∈ us) :
    (∀ r, u = .one r → r ∈ rels ∧ isSubtractor r.ty = false) ∧
      ∀ sub r, u = .pair sub r → sub ∈ rels ∧ isSubtractor sub.ty = true := by
  induction rels using rounds.induct isSubtractor generalizing us with
  | case1 =>
    cases h
    simp at hu
  | case2 r hsub => simp [rounds, hsub] at h
  | case3 r hsub =>
    simp only [rounds, hsub] at h
    cases h
    obtain rfl := List.mem_singleton.mp hu
    refine ⟨fun r' hr => ?_,fun sub r' hr => ?_⟩
    · cases hr
      exact ⟨List.mem_singleton_self _,Bool.eq_false_iff.mpr hsub⟩
    · cases hr
  | case4 r next rels hsub ih =>
    rw [rounds, if_pos hsub, Option.map_eq_some_iff] at h
    obtain ⟨us,hus,rfl⟩ := h
    rcases List.mem_cons.mp hu with rfl | hu
    · refine ⟨fun r' hr => ?_,fun sub r' hr => ?_⟩
      · cases hr
      · cases hr
        exact ⟨List.mem_cons_self,hsub⟩
    · obtain ⟨hone,hpair⟩ := ih hus hu
      exact ⟨fun r' hr => ⟨by simp [(hone r' hr).1],(hone r' hr).2⟩,
        fun sub r' hr => ⟨by simp [(hpair sub r' hr).1],(hpair sub r' hr).2⟩⟩
  | case5 r next rels hsub ih =>
    rw [rounds, if_neg hsub, Option.map_eq_some_iff] at h
    obtain ⟨us,hus,rfl⟩ := h
    rcases List.mem_cons.mp hu with rfl | hu
    · refine ⟨fun r' hr => ?_,fun sub r' hr => ?_⟩
      · cases hr
        exact ⟨List.mem_cons_self,Bool.eq_false_iff.mpr hsub⟩
      · cases hr
    · obtain ⟨hone,hpair⟩ := ih hus hu
      exact ⟨fun r' hr => ⟨List.mem_cons_of_mem _ (hone r' hr).1,(hone r' hr).2⟩,
        fun sub r' hr => ⟨List.mem_cons_of_mem _ (hpair sub r' hr).1,(hpair sub r' hr).2⟩⟩

/-- A run of relocations over `buf` that ends in `out`: bytes apart from
every round's stay, and a round no other's bytes meet makes its own mean
what `exact` says. -/
def RunExact (isSubtractor : T → Bool) (span : Round T → Span)
    (exact : Round T → Option (List UInt8) → Option (List UInt8) → Prop)
    (rels : List (Reloc T)) (buf out : List UInt8) : Prop :=
  ∃ us : List (Round T), rounds isSubtractor rels = some us ∧ out.length = buf.length ∧
    (∀ s, (∀ u ∈ us, (span u).Apart s) → s.bytes out = s.bytes buf) ∧
    ∀ (k : ℕ) (u : Round T), us[k]? = some u →
      (∀ (j : ℕ) (v : Round T), j ≠ k → us[j]? = some v → (span v).Apart (span u)) →
      exact u ((span u).bytes buf) ((span u).bytes out)

theorem run_exact (hframe : Framed step span) {rels : List (Reloc T)} {buf out : List UInt8}
    {exact : Round T → Option (List UInt8) → Option (List UInt8) → Prop}
    (h : ((rounds isSubtractor rels).bind fun us => run step us buf) = some (out,[]))
    (hexact : ∀ us, rounds isSubtractor rels = some us → ∀ u ∈ us, ∀ before after,
      step u before = some (after,[]) → (span u).bytes before = (span u).bytes buf →
      exact u ((span u).bytes before) ((span u).bytes after)) :
    RunExact isSubtractor span exact rels buf out := by
  rw [Option.bind_eq_some_iff] at h
  obtain ⟨us,hus,hrun⟩ := h
  obtain ⟨hlen,hout⟩ := run_frame hframe hrun
  refine ⟨us,hus,hlen,hout,fun k u hk hapart => ?_⟩
  obtain ⟨before,after,hstep,hbefore,hafter⟩ := run_step hframe hrun hk hapart
  rw [← hbefore, ← hafter]
  exact hexact us hus u (List.mem_of_getElem? hk) before after hstep hbefore

end Runs

theorem pair_span_size {T : Type} {sub : Reloc T} (h : sub.size = 4 ∨ sub.size = 8) :
    (pairSpan sub).len = sub.size := by
  rcases h with h | h
  all_goals simp [pairSpan, h]

namespace Arm64

variable {contents : List UInt8} {subOff n : ℕ}

/-- What a round writes is the field of its relocation's size. A 4-byte
pointer is only the second of a pair. -/
def FieldExact : Round RelocType → Prop
  | .one r => r.isSubtracted = false → (span (.one r)).len = r.size
  | .pair sub _ => (pairSpan sub).len = sub.size

theorem made_field {rels : List (Reloc RelocType)}
    (hrels : ∀ x ∈ rels, ∃ y, Made contents y ∧ y.Rebased subOff x) {us : List (Round RelocType)}
    (hus : rounds (· == .subtractor) rels = some us) {u : Round RelocType} (hu : u ∈ us) :
    FieldExact u := by
  cases u with
  | one r =>
    obtain ⟨hmem,hsub⟩ := (rounds_mem hus hu).1 r rfl
    obtain ⟨y,hy,-,hty,hsize,-,hpair,-⟩ := hrels r hmem
    intro hlone
    simp only [span]
    split
    case isTrue hu =>
      rw [hsize, hy.unsigned (hty.symm.trans hu) (hpair.symm.trans hlone)]
    case isFalse hu =>
      rw [hsize, hy.word (fun h => hu (hty.trans h)) fun h => by simp [hty, h] at hsub]
  | pair sub r =>
    obtain ⟨hmem,hsub⟩ := (rounds_mem hus hu).2 sub r rfl
    obtain ⟨y,hy,-,hty,hsize,-⟩ := hrels sub hmem
    have hys : y.ty = .subtractor := hty.symm.trans (by simpa using hsub)
    exact pair_span_size (by rw [hsize]; exact hy.subtractor hys)

/-- The instruction a load's page offset is applied to is one the reader
saw. -/
theorem made_load {x y : Reloc RelocType} (hy : Made contents y) (h : y.Rebased subOff x)
    (hty : x.ty = .gotLoadPageoff12 ∨ x.ty = .tlvpLoadPageoff12) {b : List UInt8}
    (hb : bytesAt ((contents.drop subOff).take n) x.offset 4 = some b) :
    (immOffset (word b)).isSome := by
  obtain ⟨hoff,htype,-⟩ := h
  rw [htype] at hty
  obtain ⟨b',hb',hsome⟩ := hy.load hty
  have hslice := bytes_at_slice (by omega) hb
  rw [hoff, hb'] at hslice
  rwa [← Option.some.inj hslice]

theorem apply_run_exact {ctx : Context} {base : Addr} {rels : List (Reloc RelocType)}
    {out : List UInt8} (hrels : ∀ x ∈ rels, ∃ y, Made contents y ∧ y.Rebased subOff x)
    (h : applyRelocAlloc ctx rels base ((contents.drop subOff).take n) = some (out,[])) :
    RunExact (· == .subtractor) span
      (fun u w w' => RoundExact ctx base u w w' ∧ FieldExact u) rels
      ((contents.drop subOff).take n) out := by
  apply run_exact (apply_round_framed ctx base) h
  intro us hus u hu before after hstep hbefore
  refine ⟨apply_round_exact hstep fun r hr hty b hb => ?_,made_field hrels hus hu⟩
  obtain ⟨hmem,-⟩ := (rounds_mem hus hu).1 r hr
  obtain ⟨y,hy,hre⟩ := hrels r hmem
  have hne : r.ty ≠ .unsigned := by
    rcases hty with hty | hty
    all_goals simp [hty]
  have hspan : ∀ buf, (span u).bytes buf = bytesAt buf r.offset 4 := by
    intro buf
    simp [Span.bytes, span, hr, hne]
  rw [hspan, hspan] at hbefore
  rw [hbefore] at hb
  exact made_load hy hre hty hb

end Arm64

namespace X86

variable {subOff : ℕ}

def FieldExact : Round RelocType → Prop
  | .one r => fieldSize r = r.size
  | .pair sub _ => (pairSpan sub).len = sub.size

theorem Made.rebased {x y : Reloc RelocType} (hy : Made y) (h : y.Rebased subOff x) : Made x := by
  obtain ⟨-,hty,hsize,-,-,htarget⟩ := h
  refine ⟨?_,?_,?_,fun hb h4 idx hidx => ?_⟩
  · rw [hty, hsize]
    exact hy.pointer
  · rw [hty, hsize]
    exact hy.branch
  · rw [hty, hsize]
    exact hy.word
  · rcases htarget with ⟨i,hi,hx,ha⟩ | ⟨i,j,-,hx⟩
    · rw [ha]
      exact hy.call (hty.symm.trans hb) (hsize.symm.trans h4) i hi
    · rw [hx] at hidx
      cases hidx

theorem made_field {u : Round RelocType} (hone : ∀ r, u = .one r → Made r ∧ r.ty ≠ .subtractor)
    (hpair : ∀ sub r, u = .pair sub r → Made sub ∧ sub.ty = .subtractor) : FieldExact u := by
  cases u with
  | one r =>
    obtain ⟨hr,hsub⟩ := hone r rfl
    show fieldSize r = r.size
    unfold fieldSize
    split
    case h_1 hty =>
      rcases hr.pointer (Or.inl hty) with h | h
      all_goals simp [h]
    case h_2 hty =>
      rcases hr.branch hty with h | h
      all_goals simp [h]
    case h_3 hu hb => exact (hr.word hu hsub hb).symm
  | pair sub r =>
    obtain ⟨hs,hty⟩ := hpair sub r rfl
    exact pair_span_size (hs.pointer (Or.inr hty))

theorem apply_run_exact {ctx : Context} {base : Addr} {rels : List (Reloc RelocType)}
    {buf out : List UInt8} (hrels : ∀ x ∈ rels, Made x)
    (h : applyRelocAlloc ctx rels base buf = some (out,[])) :
    RunExact (· == .subtractor) (span ctx)
      (fun u w w' => RoundExact ctx base u w w' ∧ FieldExact u) rels buf out := by
  apply run_exact (apply_round_framed ctx base) h
  intro us hus u hu before after hstep _
  obtain ⟨hone,hpair⟩ := rounds_mem hus hu
  refine ⟨apply_round_exact hstep fun r hr => hrels r (hone r hr).1,made_field ?_ ?_⟩
  · exact fun r hr => ⟨hrels r (hone r hr).1,by simpa using (hone r hr).2⟩
  · exact fun sub r hr => ⟨hrels sub (hpair sub r hr).1,by simpa using (hpair sub r hr).2⟩

end X86

/-- The relocations of a subsection, `n` bytes of a section from `subOff`
on, that were read from the section's records, applied without a report. -/
theorem apply_reloc_alloc_exact (sections : List MachSection) (hdr : MachSection)
    (contents : List UInt8) (records : List MachRel) (ctx : Context) (base : Addr)
    (subOff n : ℕ) (out : List UInt8) :
    (∀ read rels, Arm64.readRelocs sections contents records = some read →
      (∀ x ∈ rels, ∃ y ∈ read, y.Rebased subOff x) →
      Arm64.applyRelocAlloc ctx rels base ((contents.drop subOff).take n) = some (out,[]) →
      RunExact (· == .subtractor) Arm64.span
        (fun u w w' => Arm64.RoundExact ctx base u w w' ∧ Arm64.FieldExact u) rels
        ((contents.drop subOff).take n) out) ∧
    ∀ read rels, X86.readRelocs sections hdr contents records = some read →
      (∀ x ∈ rels, ∃ y ∈ read, y.Rebased subOff x) →
      X86.applyRelocAlloc ctx rels base ((contents.drop subOff).take n) = some (out,[]) →
      RunExact (· == .subtractor) (X86.span ctx)
        (fun u w w' => X86.RoundExact ctx base u w w' ∧ X86.FieldExact u) rels
        ((contents.drop subOff).take n) out := by
  constructor
  · intro read rels hread hrels happly
    apply Arm64.apply_run_exact (fun x hx => ?_) happly
    obtain ⟨y,hy,hre⟩ := hrels x hx
    exact ⟨y,Arm64.read_relocs_from_made records none hread y hy,hre⟩
  · intro read rels hread hrels happly
    apply X86.apply_run_exact (fun x hx => ?_) happly
    obtain ⟨y,hy,hre⟩ := hrels x hx
    exact (X86.read_relocs_from_made records none hread y hy).rebased hre

theorem rebased_self {T : Type} (x : Reloc T) : x.Rebased 0 x := by
  refine ⟨rfl,rfl,rfl,rfl,rfl,?_⟩
  rcases h : x.target with idx | i
  · exact Or.inl ⟨idx,rfl,rfl,rfl⟩
  · exact Or.inr ⟨i,i,rfl,rfl⟩

/-- A link of one symbol, sixteen pages and sixteen bytes above the code. -/
def oneSymbol : Context where
  symbols _ := { addr := 0x100010010#64 }
  isecs _ := {}

/-- "adrp x0, sym@PAGE; add x0, x0, sym@PAGEOFF", and a relaxed
"movq sym@GOTPCREL(%rip), %rax". -/
theorem apply_reloc_alloc_pair :
    RunExact (· == .subtractor) Arm64.span
        (fun u w w' => Arm64.RoundExact oneSymbol 0x100000000#64 u w w' ∧ Arm64.FieldExact u)
        [⟨0,.page21,4,true,false,.sym 0,0⟩,⟨4,.pageoff12,4,false,false,.sym 0,0⟩]
        [0x00,0x00,0x00,0x90,0x00,0x00,0x00,0x91] [0x80,0x00,0x00,0x90,0x00,0x40,0x00,0x91] ∧
      RunExact (· == .subtractor) (X86.span oneSymbol)
        (fun u w w' => X86.RoundExact oneSymbol 0x100000000#64 u w w' ∧ X86.FieldExact u)
        [⟨3,.gotLoad,4,true,false,.sym 0,0⟩]
        [0x48,0x8b,0x05,0x00,0x00,0x00,0x00] [0x48,0x8d,0x05,0x09,0x00,0x01,0x00] :=
  ⟨(apply_reloc_alloc_exact [] ⟨0⟩ [0x00,0x00,0x00,0x90,0x00,0x00,0x00,0x91]
      [⟨0,0x3d000000#32⟩,⟨4,0x4c000000#32⟩] oneSymbol 0x100000000#64 0 8
      [0x80,0x00,0x00,0x90,0x00,0x40,0x00,0x91]).1
      [⟨0,.page21,4,true,false,.sym 0,0⟩,⟨4,.pageoff12,4,false,false,.sym 0,0⟩] _ (by decide)
      (fun x hx => ⟨x,hx,rebased_self x⟩) (by decide),
    (apply_reloc_alloc_exact [] ⟨0⟩ [0x48,0x8b,0x05,0x00,0x00,0x00,0x00] [⟨3,0x3d000000#32⟩]
      oneSymbol 0x100000000#64 0 7 [0x48,0x8d,0x05,0x09,0x00,0x01,0x00]).2
      [⟨3,.gotLoad,4,true,false,.sym 0,0⟩] _ (by decide)
      (fun x hx => ⟨x,hx,rebased_self x⟩) (by decide)⟩

/-- A link whose symbol is a DTrace probe. -/
def probeSymbol : Context where
  symbols _ := { siteKind := some .probe }
  isecs _ := {}

/-- A "bl" of a DTrace probe is applied without a report, and no branch to
the symbol is left. -/
theorem probe_site_no_branch :
    Arm64.readRelocs [] [0x00,0x00,0x00,0x94] [⟨0,0x2d000000#32⟩] =
        some [⟨0,.branch26,4,true,false,.sym 0,0⟩] ∧
      Arm64.applyRelocAlloc probeSymbol [⟨0,.branch26,4,true,false,.sym 0,0⟩] 0x100000000#64
        [0x00,0x00,0x00,0x94] = some ([0x1f,0x20,0x03,0xd5],[]) ∧
      word [0x1f,0x20,0x03,0xd5] &&& ~~~Arm64.bImm ≠ word [0x00,0x00,0x00,0x94] &&& ~~~Arm64.bImm ∧
      Arm64.branchDest (word [0x1f,0x20,0x03,0xd5]) 0x100000000#64 ≠ (probeSymbol.symbols 0).addr := by
  decide

end MoldMacho.Arch
