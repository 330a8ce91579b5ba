import MoldMacho.Arch.Arm64

/-!
# Applying arm64 relocations

The writes of each relocation type, and what a write that reports nothing
makes the field mean.
-/

set_option autoImplicit false

namespace MoldMacho.Arch.Arm64

open Bytes Edits BitFields
open InputSections (RelocTarget)

section Code

/-- What a DTrace probe site's branch becomes: a nop, or for an is-enabled
test "movz x0, #0". -/
def dtraceSiteInsn (ctx : Context) (r : Reloc RelocType) : Option (BitVec 32) :=
  (r.sym ctx).bind fun sym => sym.siteKind.map fun
    | .probe => 0xd503201f#32
    | .isEnabled => 0xd2800000#32

/-- The first of a symbol's thunk entries a branch at `pc` reaches. -/
def thunkAddr (sym : Symbol) (pc : Addr) : Option Addr :=
  sym.thunkAddrs.find? fun t => decide (BranchReaches (t-pc))

/-- How far a branch at `p` goes: to its target, or out of reach, to a
thunk entry whose adrp reaches the target. -/
def branchDisplacement (ctx : Context) (r : Reloc RelocType) (p : Addr) :
    BitVec 64 × List Report :=
  let t := r.branchTarget ctx + r.addend
  let val := t - p
  if BranchReaches val then (val,[])
  else
    match (if r.addend = 0 then r.sym ctx else none).bind (thunkAddr · p) with
    | some thunk =>
      if adrpReaches t thunk then (thunk - p,[])
      else (val,[.branchOutOfRange r.offset val.toInt p t])
    | none => (val,[.branchOutOfRange r.offset val.toInt p t])

def checkAdrp (r : Reloc RelocType) (p t : Addr) : List Report :=
  if adrpReaches t p then [] else [.adrpOutOfRange r.offset p t]

def editAdrp (r : Reloc RelocType) (p t : Addr) (buf : List UInt8) :
    Option (List UInt8 × List Report) :=
  edit32 buf r.offset fun insn => (writeAdrp insn t p,checkAdrp r p t)

/-- Fills the page offset; a target the access size does not divide is
reported and leaves the instruction. -/
def editPageoff (r : Reloc RelocType) (t : Addr) (buf : List UInt8) :
    Option (List UInt8 × List Report) :=
  edit32 buf r.offset fun insn =>
    match writeAddLdst insn t with
    | .ok out => (out,[])
    | .error size => (insn,[.misalignedLoadStore r.offset size])

/-- Makes a load of a slot the add that computes the target. -/
def editRelaxed (r : Reloc RelocType) (t : Addr) (buf : List UInt8) :
    Option (List UInt8 × List Report) :=
  edit32 buf r.offset fun insn =>
    if isLdrImm insn ||
        (r.ty == .gotLoadPageoff12 && insn &&& 0xffc00000#32 == 0x91000000#32) then
      (relaxedAdd insn t,[])
    else (insn,[.notLdr r.offset])

def applyReloc (ctx : Context) (base : Addr) (r : Reloc RelocType) (buf : List UInt8) :
    Option (List UInt8 × List Report) :=
  let s := r.addr ctx
  let a := r.addend
  let p := r.place base
  match r.ty with
  | .unsigned =>
    let errs := checkTextReloc ctx r p
    if (r.sym ctx).any Symbol.bindsAsImport then some (buf,errs)
    else if r.refersToTls ctx then write buf r.offset (bytes64 (s + a - ctx.tlsBegin)) errs
    else write buf r.offset (bytes64 (s + a)) errs
  | .branch26 =>
    match dtraceSiteInsn ctx r with
    | some insn => write buf r.offset (bytes32 insn) []
    | none =>
      edit32 buf r.offset fun insn =>
        (writeBranch insn (branchDisplacement ctx r p).1,(branchDisplacement ctx r p).2)
  | .page21 =>
    match targetHasAddress ctx r with
    | [] => editAdrp r p (s + a) buf
    | errs => some (buf,errs)
  | .pageoff12 =>
    match targetHasAddress ctx r with
    | [] => editPageoff r (s + a) buf
    | errs => some (buf,errs)
  | .gotLoadPage21 =>
    match loadHelper ctx r with
    | some (helper,own) =>
      let op := if own then 0x14000000#32 else 0x94000000#32
      write buf r.offset (bytes32 (op ||| (bits (helper - p) 27 2).setWidth 32)) []
    | none => (r.sym ctx).bind fun sym =>
      (if sym.canRelaxGot then some s else sym.gotSlot).bind fun t => editAdrp r p (t + a) buf
  | .tlvpLoadPage21 => (r.sym ctx).bind fun sym =>
      (if sym.canRelaxGot then some s else sym.gotSlot).bind fun t => editAdrp r p (t + a) buf
  | .gotLoadPageoff12 | .tlvpLoadPageoff12 => (r.sym ctx).bind fun sym =>
      if sym.canRelaxGot then editRelaxed r (s + a) buf
      else sym.gotSlot.bind fun g => editPageoff r (g + a) buf
  | .pointerToGot => (r.sym ctx).bind fun sym => sym.gotSlot.bind fun g =>
      write buf r.offset (bytes32 ((g + a - p).setWidth 32)) []
  | .subtractor | .addend => none

def applyRound (ctx : Context) (base : Addr) (round : Round RelocType) (buf : List UInt8) :
    Option (List UInt8 × List Report) :=
  if buf.length < round.first.offset then none
  else
    match round with
    | .one r => applyReloc ctx base r buf
    | .pair sub r => applyPair ctx sub r buf

def applyRelocAlloc (ctx : Context) (rels : List (Reloc RelocType)) (base : Addr)
    (buf : List UInt8) : Option (List UInt8 × List Report) :=
  (rounds (· == .subtractor) rels).bind fun rs => run (applyRound ctx base) rs buf

end Code

section Meaning

/-- An instruction before and after, as the bytes of a span. -/
def Words (w w' : Option (List UInt8)) (P : BitVec 32 → BitVec 32 → Prop) : Prop :=
  ∃ b b', w = some b ∧ w' = some b' ∧ P (word b) (word b')

/-- An adrp computes `t`'s page. -/
def PageExact (p t : Addr) (insn out : BitVec 32) : Prop :=
  out &&& ~~~adrpImm = insn &&& ~~~adrpImm ∧ adrpPage out p = page t

/-- An immediate and `t`'s page, which the paired adrp computes, are `t`. -/
def OffsetExact (t : Addr) (out : BitVec 32) : Prop :=
  ∃ off, immOffset out = some off ∧ page t + BitVec.ofNat 64 off = t

/-- A branch goes to its target, or out of reach to a thunk entry that
jumps there. An entry, or a target, off the instructions' grid is
no branch's destination. -/
def BranchExact (ctx : Context) (r : Reloc RelocType) (p : Addr) (insn out : BitVec 32) : Prop :=
  out &&& ~~~bImm = insn &&& ~~~bImm ∧
    ∃ dest, (if BranchReaches (r.branchTarget ctx + r.addend - p)
        then dest = r.branchTarget ctx + r.addend
        else ∃ sym, r.sym ctx = some sym ∧ dest ∈ sym.thunkAddrs ∧
          jumpDest dest (thunkEntry sym.branchTargetAddr dest) =
            some (r.branchTarget ctx + r.addend)) ∧
      ((4 : ℤ) ∣ (dest - p).toInt → branchDest out p = dest)

/-- A load's adrp branches to the helper that stands in for it. -/
def HelperExact (helper : Addr) (own : Bool) (p : Addr) (out : BitVec 32) : Prop :=
  out &&& ~~~bImm = (if own then 0x14000000#32 else 0x94000000#32) ∧
    (BranchReaches (helper - p) → (4 : ℤ) ∣ (helper - p).toInt → branchDest out p = helper)

/-- What a GOT or TLV load reaches: the symbol, or its slot. -/
def LoadTarget (ctx : Context) (r : Reloc RelocType) (t : Addr) : Prop :=
  ∃ sym, r.sym ctx = some sym ∧ (if sym.canRelaxGot then t = r.addr ctx else sym.gotSlot = some t)

/-- What a relocation's field means, from its bytes before and after. -/
def Exact (ctx : Context) (base : Addr) (r : Reloc RelocType) (w w' : Option (List UInt8)) : Prop :=
  let s := r.addr ctx
  let a := r.addend
  let p := r.place base
  match r.ty with
  | .unsigned =>
    if (r.sym ctx).any Symbol.bindsAsImport then w' = w
    else w'.map dword = some (if r.refersToTls ctx then s + a - ctx.tlsBegin else s + a)
  | .branch26 =>
    match dtraceSiteInsn ctx r with
    | some insn => w'.map word = some insn
    | none => Words w w' (BranchExact ctx r p)
  | .page21 => Words w w' (PageExact p (s + a))
  | .pageoff12 => Words w w' fun insn out =>
      out &&& ~~~imm12 = insn &&& ~~~imm12 ∧ ((immOffset insn).isSome → OffsetExact (s + a) out)
  | .gotLoadPage21 =>
    match loadHelper ctx r with
    | some (helper,own) => ∃ out, w'.map word = some out ∧ HelperExact helper own p out
    | none => ∃ t, LoadTarget ctx r t ∧ Words w w' (PageExact p (t + a))
  | .tlvpLoadPage21 => ∃ t, LoadTarget ctx r t ∧ Words w w' (PageExact p (t + a))
  | .gotLoadPageoff12 | .tlvpLoadPageoff12 =>
    ∃ t, LoadTarget ctx r t ∧ Words w w' fun insn out =>
      out &&& ~~~imm12 = (if (r.sym ctx).any Symbol.canRelaxGot
        then 0x91000000#32 ||| (insn &&& 0x3ff#32) else insn &&& ~~~imm12) ∧
      OffsetExact (t + a) out
  | .pointerToGot => ∃ sym g, r.sym ctx = some sym ∧ sym.gotSlot = some g ∧
      (Fits32 (g + a - p) → w'.map (fun b => (word b).signExtend 64) = some (g + a - p))
  | .subtractor | .addend => False

/-- What a round's field means: a relocation's, or a pair's distance. -/
def RoundExact (ctx : Context) (base : Addr) (round : Round RelocType)
    (w w' : Option (List UInt8)) : Prop :=
  match round with
  | .one r => Exact ctx base r w w'
  | .pair sub r => PairExact ctx sub r w'

/-- The bytes a round writes. -/
def span : Round RelocType → Span
  | .one r => ⟨r.offset,if r.ty = .unsigned then 8 else 4⟩
  | .pair sub _ => pairSpan sub

end Meaning

section Frame

theorem apply_reloc_frames (ctx : Context) (base : Addr) (r : Reloc RelocType) (buf : List UInt8) :
    Frames (span (.one r)) buf (applyReloc ctx base r buf) := by
  have hspan : (span (.one r)).off = r.offset := rfl
  have hword : r.offset+4 ≤ (span (.one r)).off+(span (.one r)).len := by
    simp only [span]
    split
    all_goals omega
  have hedit : ∀ f, Frames (span (.one r)) buf (edit32 buf r.offset f) :=
    fun f => frames_edit32 buf f hspan.le hword
  have hwrite : ∀ v errs, Frames (span (.one r)) buf (write buf r.offset (bytes32 v) errs) :=
    fun v errs => frames_write buf errs hspan.le (by simpa using hword)
  simp only [applyReloc]
  cases hty : r.ty with
  | unsigned =>
    have hlong : ∀ v errs, Frames (span (.one r)) buf (write buf r.offset (bytes64 v) errs) :=
      fun v errs => frames_write buf errs hspan.le (by simp [span, hty])
    dsimp only
    split
    · exact frames_same _ _ _
    · split
      all_goals exact hlong _ _
  | branch26 =>
    dsimp only
    split
    · exact hwrite _ _
    · exact hedit _
  | page21 | pageoff12 =>
    dsimp only
    split
    · exact hedit _
    · exact frames_same _ _ _
  | gotLoadPage21 =>
    dsimp only
    split
    · exact hwrite _ _
    · exact frames_bind fun sym => frames_bind fun t => hedit _
  | tlvpLoadPage21 => exact frames_bind fun sym => frames_bind fun t => hedit _
  | gotLoadPageoff12 | tlvpLoadPageoff12 =>
    refine frames_bind fun sym => ?_
    split
    · exact hedit _
    · exact frames_bind fun g => hedit _
  | pointerToGot => exact frames_bind fun sym => frames_bind fun g => hwrite _ _
  | subtractor | addend => exact frames_none _ _

theorem apply_round_framed (ctx : Context) (base : Addr) : Framed (applyRound ctx base) span := by
  intro round buf
  show Frames (span round) buf (applyRound ctx base round buf)
  unfold applyRound
  split
  · exact frames_none _ _
  · cases round with
    | one r => exact apply_reloc_frames ctx base r buf
    | pair sub r => exact apply_pair_frames ctx sub r buf

end Frame

section Steps

variable {r : Reloc RelocType} {p t : Addr} {buf out : List UInt8}

theorem edit_adrp_exact (h : editAdrp r p t buf = some (out,[])) :
    Words (bytesAt buf r.offset 4) (bytesAt out r.offset 4) (PageExact p t) := by
  obtain ⟨b,hb,hout,herr⟩ := edit32_read h
  have hreach : adrpReaches t p = true := by
    by_contra hn
    simp [checkAdrp, hn] at herr
  refine ⟨b,_,hb,hout,?_⟩
  rw [word_bytes32]
  exact ⟨write_adrp_outside _ _ _,adrp_page_write _ hreach⟩

theorem offset_exact_of {t : Addr} {out : BitVec 32}
    (h : immOffset out = some (t.toNat % 2^12)) : OffsetExact t out := by
  refine ⟨_,h,?_⟩
  have hext : BitVec.ofNat 64 (t.toNat % 2^12) = (t.extractLsb' 0 12).setWidth 64 := by
    apply BitVec.eq_of_toNat_eq
    simp only [BitVec.toNat_ofNat, BitVec.toNat_setWidth, BitVec.extractLsb'_toNat,
      Nat.shiftRight_zero]
  rw [hext, page_add]

theorem edit_pageoff_exact (h : editPageoff r t buf = some (out,[])) :
    Words (bytesAt buf r.offset 4) (bytesAt out r.offset 4) fun insn out =>
      out &&& ~~~imm12 = insn &&& ~~~imm12 ∧ ((immOffset insn).isSome → OffsetExact t out) := by
  obtain ⟨b,hb,hout,herr⟩ := edit32_read h
  cases hw : writeAddLdst (word b) t with
  | error size => simp [hw] at herr
  | ok insn =>
    refine ⟨b,_,hb,hout,?_⟩
    simp only [hw, word_bytes32]
    exact ⟨write_add_ldst_outside hw,fun hi => offset_exact_of (imm_offset_write hw hi)⟩

theorem edit_relaxed_exact (h : editRelaxed r t buf = some (out,[])) :
    Words (bytesAt buf r.offset 4) (bytesAt out r.offset 4) fun insn out =>
      out &&& ~~~imm12 = 0x91000000#32 ||| (insn &&& 0x3ff#32) ∧ OffsetExact t out := by
  obtain ⟨b,hb,hout,herr⟩ := edit32_read h
  refine ⟨b,_,hb,hout,?_⟩
  split at herr
  case isTrue hc =>
    rw [if_pos hc, word_bytes32]
    exact ⟨relaxed_add_outside _ _,offset_exact_of (relaxed_add_offset _ _)⟩
  case isFalse => cases herr

theorem thunk_addr_some {sym : Symbol} {pc thunk : Addr} (h : thunkAddr sym pc = some thunk) :
    thunk ∈ sym.thunkAddrs ∧ BranchReaches (thunk - pc) := by
  rw [thunkAddr] at h
  have hnear := List.find?_some h
  exact ⟨List.mem_of_find?_eq_some h,of_decide_eq_true hnear⟩

/-- The distance of a branch that is not reported. -/
theorem branch_displacement_exact {ctx : Context} (h : (branchDisplacement ctx r p).2 = []) :
    ∃ dest, (branchDisplacement ctx r p).1 = dest - p ∧ BranchReaches (dest - p) ∧
      if BranchReaches (r.branchTarget ctx + r.addend - p)
        then dest = r.branchTarget ctx + r.addend
        else ∃ sym, r.sym ctx = some sym ∧ dest ∈ sym.thunkAddrs ∧
          jumpDest dest (thunkEntry sym.branchTargetAddr dest) =
            some (r.branchTarget ctx + r.addend) := by
  unfold branchDisplacement at h ⊢
  dsimp only at h ⊢
  by_cases hreach : BranchReaches (r.branchTarget ctx + r.addend - p)
  · rw [if_pos hreach]
    exact ⟨_,rfl,hreach,by rw [if_pos hreach]⟩
  · rw [if_neg hreach] at h ⊢
    split at h
    case h_2 => cases h
    case h_1 thunk hthunk =>
      split at h
      case isFalse => cases h
      case isTrue hadrp =>
        rw [Option.bind_eq_some_iff] at hthunk
        obtain ⟨sym,hsym,hthunk⟩ := hthunk
        split at hsym
        case isFalse => cases hsym
        case isTrue haddend =>
          obtain ⟨hmem,hnear⟩ := thunk_addr_some hthunk
          have htarget : r.branchTarget ctx + r.addend = sym.branchTargetAddr := by
            simp [Reloc.branchTarget, hsym, haddend]
          refine ⟨thunk,?_,hnear,?_⟩
          · simp only [if_pos hadrp]
          · rw [if_neg hreach, htarget]
            rw [htarget] at hadrp
            exact ⟨sym,hsym,hmem,thunk_entry_jumps hadrp⟩

theorem helper_exact (helper : Addr) (own : Bool) (p : Addr) :
    HelperExact helper own p
      ((if own then 0x14000000#32 else 0x94000000#32) ||| (bits (helper-p) 27 2).setWidth 32) := by
  have hop : (if own then 0x14000000#32 else 0x94000000#32) &&& ~~~bImm =
      (if own then 0x14000000#32 else 0x94000000#32) := by
    cases own
    all_goals rfl
  have hwrite : (if own then 0x14000000#32 else 0x94000000#32) |||
      (bits (helper-p) 27 2).setWidth 32 =
        writeBranch (if own then 0x14000000#32 else 0x94000000#32) (helper-p) := by
    rw [writeBranch, hop]
  rw [hwrite]
  refine ⟨(write_branch_outside _ _).trans hop,fun hreach halign => ?_⟩
  rw [branch_dest_write _ _ hreach halign]
  bv_omega

variable {ctx : Context} {base : Addr}

/-- The page of a load's slot, or of the symbol itself. -/
theorem page_load_exact (h : ((r.sym ctx).bind fun sym =>
      (if sym.canRelaxGot then some (r.addr ctx) else sym.gotSlot).bind fun t =>
        editAdrp r p (t + r.addend) buf) = some (out,[])) :
    ∃ t, LoadTarget ctx r t ∧
      Words (bytesAt buf r.offset 4) (bytesAt out r.offset 4) (PageExact p (t + r.addend)) := by
  rw [Option.bind_eq_some_iff] at h
  obtain ⟨sym,hsym,h⟩ := h
  rw [Option.bind_eq_some_iff] at h
  obtain ⟨t,ht,h⟩ := h
  refine ⟨t,⟨sym,hsym,?_⟩,edit_adrp_exact h⟩
  split at ht
  case isTrue hr =>
    rw [if_pos hr]
    exact (Option.some.inj ht).symm
  case isFalse hr => rwa [if_neg hr]

/-- The page offset of a load from a slot, or of the add it relaxes to. -/
theorem offset_load_exact (h : ((r.sym ctx).bind fun sym =>
      if sym.canRelaxGot then editRelaxed r (r.addr ctx + r.addend) buf
      else sym.gotSlot.bind fun g => editPageoff r (g + r.addend) buf) = some (out,[]))
    (hload : ∀ b, bytesAt buf r.offset 4 = some b → (immOffset (word b)).isSome) :
    ∃ t, LoadTarget ctx r t ∧ Words (bytesAt buf r.offset 4) (bytesAt out r.offset 4)
      fun insn out => out &&& ~~~imm12 = (if (r.sym ctx).any Symbol.canRelaxGot
        then 0x91000000#32 ||| (insn &&& 0x3ff#32) else insn &&& ~~~imm12) ∧
        OffsetExact (t + r.addend) out := by
  rw [Option.bind_eq_some_iff] at h
  obtain ⟨sym,hsym,h⟩ := h
  rw [hsym, Option.any_some]
  by_cases hr : sym.canRelaxGot = true
  · rw [if_pos hr] at h
    simp only [if_pos hr]
    exact ⟨r.addr ctx,⟨sym,hsym,by rw [if_pos hr]⟩,edit_relaxed_exact h⟩
  · rw [if_neg hr, Option.bind_eq_some_iff] at h
    obtain ⟨g,hg,h⟩ := h
    obtain ⟨b,b',hb,hb',houtside,hoff⟩ := edit_pageoff_exact h
    simp only [if_neg hr]
    exact ⟨g,⟨sym,hsym,by rwa [if_neg hr]⟩,b,b',hb,hb',houtside,hoff (hload b hb)⟩

theorem pointer_exact (hty : r.ty = .unsigned)
    (h : applyReloc ctx base r buf = some (out,[])) :
    Exact ctx base r (bytesAt buf r.offset 8) (bytesAt out r.offset 8) := by
  simp only [applyReloc, hty] at h
  simp only [Exact, hty]
  split at h
  case isTrue hi =>
    obtain ⟨rfl,-⟩ := Prod.mk.inj (Option.some.inj h)
    rw [if_pos hi]
  case isFalse hi =>
    rw [if_neg hi]
    split at h
    case isTrue ht =>
      rw [if_pos ht, ← bytes64_length, (write_read h).1, Option.map_some, dword_bytes64]
    case isFalse ht =>
      rw [if_neg ht, ← bytes64_length, (write_read h).1, Option.map_some, dword_bytes64]

theorem branch_exact (hty : r.ty = .branch26) (h : applyReloc ctx base r buf = some (out,[])) :
    Exact ctx base r (bytesAt buf r.offset 4) (bytesAt out r.offset 4) := by
  simp only [applyReloc, hty] at h
  simp only [Exact, hty]
  split at h
  case h_1 insn hsite =>
    rw [← bytes32_length insn, (write_read h).1, Option.map_some, word_bytes32]
  case h_2 hsite =>
    obtain ⟨b,hb,hout,herr⟩ := edit32_read h
    obtain ⟨dest,hdisp,hreach,hdest⟩ := branch_displacement_exact herr.symm
    refine ⟨b,_,hb,hout,?_⟩
    rw [word_bytes32, hdisp]
    refine ⟨write_branch_outside _ _,dest,hdest,fun halign => ?_⟩
    rw [branch_dest_write _ _ hreach halign]
    bv_omega

/-- A relocation of an instruction, applied without a report. -/
theorem insn_exact (hty : r.ty ≠ .unsigned) (h : applyReloc ctx base r buf = some (out,[]))
    (hload : r.ty = .gotLoadPageoff12 ∨ r.ty = .tlvpLoadPageoff12 →
      ∀ b, bytesAt buf r.offset 4 = some b → (immOffset (word b)).isSome) :
    Exact ctx base r (bytesAt buf r.offset 4) (bytesAt out r.offset 4) := by
  cases hcase : r.ty with
  | unsigned => exact absurd hcase hty
  | branch26 => exact branch_exact hcase h
  | page21 =>
    simp only [applyReloc, hcase] at h
    simp only [Exact, hcase]
    split at h
    case h_1 => exact edit_adrp_exact h
    case h_2 hn => exact absurd (Prod.mk.inj (Option.some.inj h)).2 hn
  | pageoff12 =>
    simp only [applyReloc, hcase] at h
    simp only [Exact, hcase]
    split at h
    case h_1 => exact edit_pageoff_exact h
    case h_2 hn => exact absurd (Prod.mk.inj (Option.some.inj h)).2 hn
  | gotLoadPage21 =>
    simp only [applyReloc, hcase] at h
    simp only [Exact, hcase]
    split at h
    case h_1 helper own hhelp =>
      refine ⟨_,?_,helper_exact helper own _⟩
      rw [← bytes32_length, (write_read h).1, Option.map_some, word_bytes32]
    case h_2 hhelp => exact page_load_exact h
  | tlvpLoadPage21 =>
    simp only [applyReloc, hcase] at h
    simp only [Exact, hcase]
    exact page_load_exact h
  | gotLoadPageoff12 =>
    simp only [applyReloc, hcase] at h
    simp only [Exact, hcase]
    exact offset_load_exact h (hload (Or.inl hcase))
  | tlvpLoadPageoff12 =>
    simp only [applyReloc, hcase] at h
    simp only [Exact, hcase]
    exact offset_load_exact h (hload (Or.inr hcase))
  | pointerToGot =>
    simp only [applyReloc, hcase, Option.bind_eq_some_iff] at h
    simp only [Exact, hcase]
    obtain ⟨sym,hsym,g,hg,h⟩ := h
    refine ⟨sym,g,hsym,hg,fun hfits => ?_⟩
    rw [← bytes32_length, (write_read h).1, Option.map_some, word_bytes32, sign_extend_low hfits]
  | subtractor | addend =>
    simp only [applyReloc, hcase] at h
    cases h

/-- A round that reports nothing. -/
theorem apply_round_exact {round : Round RelocType}
    (h : applyRound ctx base round buf = some (out,[]))
    (hload : ∀ r, round = .one r → r.ty = .gotLoadPageoff12 ∨ r.ty = .tlvpLoadPageoff12 →
      ∀ b, bytesAt buf r.offset 4 = some b → (immOffset (word b)).isSome) :
    RoundExact ctx base round ((span round).bytes buf) ((span round).bytes out) := by
  unfold applyRound at h
  split at h
  · cases h
  · cases round with
    | one r =>
      by_cases hty : r.ty = .unsigned
      · have hspan : ∀ b, (span (.one r)).bytes b = bytesAt b r.offset 8 := by
          intro b
          simp [Span.bytes, span, hty]
        rw [hspan, hspan]
        exact pointer_exact hty h
      · have hspan : ∀ b, (span (.one r)).bytes b = bytesAt b r.offset 4 := by
          intro b
          simp [Span.bytes, span, hty]
        rw [hspan, hspan]
        exact insn_exact hty h (hload r rfl)
    | pair sub r => exact apply_pair_exact h

end Steps

end MoldMacho.Arch.Arm64
