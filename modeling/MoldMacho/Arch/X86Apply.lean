import MoldMacho.Arch.X86

/-!
# Applying x86-64 relocations

The writes of each relocation type, and what a write that reports nothing
makes the field mean.
-/

set_option autoImplicit false

namespace MoldMacho.Arch.X86

open Bytes Edits BitFields
open InputSections (RelocTarget)

section Code

/-- What a DTrace probe site's call becomes, from its opcode on: nops, or
for an is-enabled test "xorl %eax, %eax" and nops. -/
def dtraceSiteCode (ctx : Context) (r : Reloc RelocType) : Option (List UInt8) :=
  if r.ty = .branch ∧ r.size = 4 then
    (r.sym ctx).bind fun sym => sym.siteKind.map fun
      | .probe => [0x90,0x0f,0x1f,0x40,0x00]
      | .isEnabled => [0x33,0xc0,0x90,0x90,0x90]
  else none

def relaxedGotLoad (ctx : Context) (r : Reloc RelocType) : Bool :=
  (r.ty == .gotLoad || r.ty == .tlv) && (r.sym ctx).any Symbol.canRelaxGot

/-- The helper called in place of a GOT load or compare. -/
def loadCall (ctx : Context) (r : Reloc RelocType) : Option Addr :=
  if r.ty = .gotLoad ∨ r.ty = .got then (loadHelper ctx r).map Prod.fst else none

/-- Makes the movq before a field a leaq. -/
def relaxOpcode (r : Reloc RelocType) (buf : List UInt8) : Option (List UInt8 × List Report) :=
  if r.offset < 2 then some (buf,[.notMovq r.offset])
  else
    (bytesAt buf (r.offset-2) 1).bind fun op =>
      if op = [0x8b] then write buf (r.offset-2) [0x8d] []
      else if op = [0x8d] then some (buf,[])
      else some (buf,[.notMovq r.offset])

/-- The nops after a helper's call, in the rest of the movq or cmpq. -/
def callNops (r : Reloc RelocType) : ℕ := if r.ty = .got then 3 else 2

def callCode (r : Reloc RelocType) (base helper : Addr) : List UInt8 :=
  0xe8 :: bytes32 ((helper - (base + BitVec.ofNat 64 (r.offset-3) + 5)).setWidth 32) ++
    List.replicate (callNops r) 0x90

/-- The displacement from the end of the instruction to `t`. -/
def ripDisplacement (r : Reloc RelocType) (p t : Addr) : BitVec 64 := t - (p+4) - r.ty.bias

def writeRip (r : Reloc RelocType) (p t : Addr) (buf : List UInt8) :
    Option (List UInt8 × List Report) :=
  write buf r.offset (bytes32 ((ripDisplacement r p t).setWidth 32))
    (if Fits32 (ripDisplacement r p t) then []
      else [.ripOutOfRange r.offset (ripDisplacement r p t).toInt p t])

/-- A one-byte branch's displacement, and what it reports: it takes no
stub. -/
def writeBranch8 (r : Reloc RelocType) (sym : Symbol) (t p : Addr) (buf : List UInt8) :
    Option (List UInt8 × List Report) :=
  write buf r.offset [((t - (p+1)).toNat % 256).toUInt8]
    (if sym.isImported then [.targetWithoutAddress r.offset]
      else if -128 ≤ (t - (p+1)).toInt ∧ (t - (p+1)).toInt < 128 then []
      else [.branchOutOfRange r.offset (t - (p+1)).toInt p t])

/-- Whether a call keeps its addend, for kmutil to bind. -/
def kextCall (ctx : Context) (r : Reloc RelocType) : Bool :=
  (r.sym ctx).any fun sym => sym.isImported && !sym.hasStub

/-- A 32-bit pointer: taken where no loader slides it and it fits, a text
relocation where a pointer would be one, and else an error. -/
def checkPointer32 (ctx : Context) (r : Reloc RelocType) (p : Addr) : List Report :=
  if ctx.staticLink then
    if 2^32 ≤ (r.addr ctx + r.addend).toNat then [.pointerOverflow r.offset] else []
  else if inTextRelocRange ctx p then checkTextReloc ctx r p
  else [.pointer32 r.offset]

def applyField (ctx : Context) (base : Addr) (r : Reloc RelocType) (buf : List UInt8) :
    Option (List UInt8 × List Report) :=
  let s := r.addr ctx
  let a := r.addend
  let p := r.place base
  match r.ty with
  | .unsigned =>
    if r.size = 4 then
      write buf r.offset (bytes32 ((s + a).setWidth 32)) (checkPointer32 ctx r p)
    else
      let errs := checkTextReloc ctx r p
      if (r.sym ctx).any (·.bindsPointer ctx) then some (buf,errs)
      else if r.refersToTls ctx then write buf r.offset (bytes64 (s + a - ctx.tlsBegin)) errs
      else write buf r.offset (bytes64 (s + a)) errs
  | .branch =>
    if r.size = 1 then (r.sym ctx).bind fun sym => writeBranch8 r sym (s + a) p buf
    else if kextCall ctx r then write buf r.offset (bytes32 (a.setWidth 32)) []
    else writeRip r p (r.branchTarget ctx + a) buf
  | .signed | .signed1 | .signed2 | .signed4 =>
    match targetHasAddress ctx r with
    | [] => writeRip r p (s + a) buf
    | errs => some (buf,errs)
  | .gotLoad | .got | .tlv =>
    if relaxedGotLoad ctx r then writeRip r p (s + a) buf
    else (r.sym ctx).bind fun sym => sym.gotSlot.bind fun g => writeRip r p (g + a) buf
  | .subtractor => none

/-- A relocation, its opcode relaxed where it is to be. -/
def applyReloc (ctx : Context) (base : Addr) (r : Reloc RelocType) (buf : List UInt8) :
    Option (List UInt8 × List Report) :=
  match loadCall ctx r with
  | some helper =>
    if r.offset < 3 then none else write buf (r.offset-3) (callCode r base helper) []
  | none =>
    match dtraceSiteCode ctx r with
    | some code => if r.offset < 1 then none else write buf (r.offset-1) code []
    | none => if buf.length < r.offset then none else applyField ctx base r buf

def applyRound (ctx : Context) (base : Addr) (round : Round RelocType) (buf : List UInt8) :
    Option (List UInt8 × List Report) :=
  match round with
  | .one r =>
    (if relaxedGotLoad ctx r then relaxOpcode r buf else some (buf,[])).bind fun (mid,errs) =>
      (applyReloc ctx base r mid).map fun (out,more) => (out,errs ++ more)
  | .pair sub r => if buf.length < sub.offset then none else applyPair ctx sub r buf

def applyRelocAlloc (ctx : Context) (rels : List (Reloc RelocType)) (base : Addr)
    (buf : List UInt8) : Option (List UInt8 × List Report) :=
  (rounds (· == .subtractor) rels).bind fun rs => run (applyRound ctx base) rs buf

end Code

section Meaning

/-- The address an instruction at field `p` reads or goes to. -/
def ripDest (r : Reloc RelocType) (p : Addr) (disp : BitVec 32) : Addr :=
  p + 4 + r.ty.bias + disp.signExtend 64

def DispExact (r : Reloc RelocType) (p t : Addr) (w' : Option (List UInt8)) : Prop :=
  w'.map (fun b => ripDest r p (word b)) = some t

/-- What a relocation's field means, from its bytes before and after: those
a helper's call or a probe's nops replace with it, or the opcode of a load
that relaxes. -/
def Exact (ctx : Context) (base : Addr) (r : Reloc RelocType) (w w' : Option (List UInt8)) : Prop :=
  let s := r.addr ctx
  let a := r.addend
  let p := r.place base
  match loadCall ctx r with
  | some helper => ∃ disp, w' = some (0xe8 :: bytes32 disp ++ List.replicate (callNops r) 0x90) ∧
      (Fits32 (helper - (p + 2)) → p + 2 + disp.signExtend 64 = helper)
  | none =>
  match dtraceSiteCode ctx r with
  | some code => w' = some code
  | none =>
  match r.ty with
  | .unsigned =>
    if r.size = 4 then
      ctx.staticLink = true ∨ (s + a).toNat < 2^32 →
        w'.map (fun b => (word b).setWidth 64) = some (s + a)
    else if (r.sym ctx).any (·.bindsPointer ctx) then w' = w
    else w'.map dword = some (if r.refersToTls ctx then s + a - ctx.tlsBegin else s + a)
  | .branch =>
    if r.size = 1 then
      w'.map (fun b => p + 1 + (BitVec.ofNat 8 (ofLe b)).signExtend 64) = some (s + a)
    else if kextCall ctx r then w'.map (fun b => (word b).signExtend 64) = some a
    else DispExact r p (r.branchTarget ctx + a) w'
  | .signed | .signed1 | .signed2 | .signed4 => DispExact r p (s + a) w'
  | .gotLoad | .got | .tlv =>
    if relaxedGotLoad ctx r then
      ∃ op modrm field disp, w = some (op :: modrm :: field) ∧ (op = 0x8b ∨ op = 0x8d) ∧
        w' = some (0x8d :: modrm :: bytes32 disp) ∧ ripDest r p disp = s + a
    else ∃ sym g, r.sym ctx = some sym ∧ sym.gotSlot = some g ∧ DispExact r p (g + a) w'
  | .subtractor => False

def RoundExact (ctx : Context) (base : Addr) (round : Round RelocType)
    (w w' : Option (List UInt8)) : Prop :=
  match round with
  | .one r => Exact ctx base r w w'
  | .pair sub r => PairExact ctx sub r w'

/-- The bytes of a relocation's field. -/
def fieldSize (r : Reloc RelocType) : ℕ :=
  match r.ty with
  | .unsigned => if r.size = 4 then 4 else 8
  | .branch => if r.size = 1 then 1 else 4
  | _ => 4

/-- The bytes a round writes: a field, and the instruction bytes before and
after it that a call or a relaxation rewrites. -/
def span (ctx : Context) : Round RelocType → Span
  | .one r =>
    match loadCall ctx r with
    | some _ => ⟨r.offset-3,5+callNops r⟩
    | none =>
      match dtraceSiteCode ctx r with
      | some _ => ⟨r.offset-1,5⟩
      | none =>
        if relaxedGotLoad ctx r then ⟨r.offset-2,6⟩ else ⟨r.offset,fieldSize r⟩
  | .pair sub _ => pairSpan sub

end Meaning

section Frame

variable (ctx : Context) (base : Addr) (r : Reloc RelocType) (buf : List UInt8)

theorem relaxed_type (h : relaxedGotLoad ctx r = true) : r.ty = .gotLoad ∨ r.ty = .tlv := by
  simp only [relaxedGotLoad, Bool.and_eq_true, Bool.or_eq_true, beq_iff_eq] at h
  exact h.1

theorem dtrace_type {code : List UInt8} (h : dtraceSiteCode ctx r = some code) :
    r.ty = .branch ∧ code.length = 5 := by
  rw [dtraceSiteCode] at h
  split at h
  case isFalse => cases h
  case isTrue hty =>
    rw [Option.bind_eq_some_iff] at h
    obtain ⟨sym,-,h⟩ := h
    rw [Option.map_eq_some_iff] at h
    obtain ⟨kind,-,rfl⟩ := h
    cases kind
    all_goals exact ⟨hty.1,rfl⟩

theorem write_rip_frames (p t : Addr) : Frames ⟨r.offset,4⟩ buf (writeRip r p t buf) :=
  frames_write buf _ le_rfl (by simp)

theorem apply_field_frames : Frames ⟨r.offset,fieldSize r⟩ buf (applyField ctx base r buf) := by
  simp only [applyField, fieldSize]
  cases r.ty with
  | unsigned =>
    dsimp only
    split
    · exact frames_write buf _ le_rfl (by simp)
    · split
      · exact frames_same _ _ _
      · split
        all_goals exact frames_write buf _ le_rfl (by simp)
  | branch =>
    dsimp only
    split
    · exact frames_bind fun sym => frames_write buf _ le_rfl (by simp)
    · split
      · exact frames_write buf _ le_rfl (by simp)
      · exact write_rip_frames r buf _ _
  | signed | signed1 | signed2 | signed4 =>
    dsimp only
    split
    · exact write_rip_frames r buf _ _
    · exact frames_same _ _ _
  | gotLoad | got | tlv =>
    dsimp only
    split
    · exact write_rip_frames r buf _ _
    · exact frames_bind fun sym => frames_bind fun g => write_rip_frames r buf _ _
  | subtractor => exact frames_none _ _

theorem relax_opcode_frames : Frames ⟨r.offset-2,1⟩ buf (relaxOpcode r buf) := by
  rw [relaxOpcode]
  split
  · exact frames_same _ _ _
  · refine frames_bind fun op => ?_
    split
    · exact frames_write buf _ le_rfl le_rfl
    · split
      all_goals exact frames_same _ _ _

theorem call_code_length (helper : Addr) : (callCode r base helper).length = 5+callNops r := by
  simp only [callCode, List.length_append, List.length_cons, bytes32_length, List.length_replicate]

theorem apply_reloc_frames : Frames (span ctx (.one r)) buf (applyReloc ctx base r buf) := by
  cases hcall : loadCall ctx r with
  | some helper =>
    simp only [applyReloc, span, hcall]
    split
    · exact frames_none _ _
    · exact frames_write buf _ le_rfl (by rw [call_code_length])
  | none =>
    cases hsite : dtraceSiteCode ctx r with
    | some code =>
      obtain ⟨-,hlen⟩ := dtrace_type ctx r hsite
      simp only [applyReloc, span, hcall, hsite]
      split
      · exact frames_none _ _
      · exact frames_write buf _ le_rfl (by rw [hlen])
    | none =>
      simp only [applyReloc, span, hcall, hsite]
      by_cases hlen : buf.length < r.offset
      · rw [if_pos hlen]
        exact frames_none _ _
      rw [if_neg hlen]
      split
      case isTrue hrelax =>
        have hsize : fieldSize r = 4 := by
          rcases relaxed_type ctx r hrelax with hty | hty
          all_goals simp [fieldSize, hty]
        refine frames_mono ?_ ?_ (apply_field_frames ctx base r buf)
        · show r.offset-2 ≤ r.offset
          omega
        · show r.offset+fieldSize r ≤ r.offset-2+6
          omega
      case isFalse => exact apply_field_frames ctx base r buf

/-- The opcode a load relaxes is in the span. -/
theorem span_opcode (h : relaxedGotLoad ctx r = true) :
    (span ctx (.one r)).off ≤ r.offset-2 ∧
      r.offset-2+1 ≤ (span ctx (.one r)).off+(span ctx (.one r)).len := by
  cases hcall : loadCall ctx r with
  | some helper =>
    simp only [span, hcall]
    omega
  | none =>
    cases hsite : dtraceSiteCode ctx r with
    | some code =>
      obtain ⟨hb,-⟩ := dtrace_type ctx r hsite
      rcases relaxed_type ctx r h with hty | hty
      all_goals exact absurd (hb.symm.trans hty) (by decide)
    | none =>
      simp only [span, hcall, hsite, if_pos h]
      omega

theorem apply_round_framed : Framed (applyRound ctx base) (span ctx) := by
  intro round buf
  show Frames (span ctx round) buf (applyRound ctx base round buf)
  unfold applyRound
  cases round with
  | one r =>
    refine frames_seq ?_ (apply_reloc_frames ctx base r)
    split
    case isTrue h =>
      obtain ⟨hlow,hhigh⟩ := span_opcode ctx r h
      exact frames_mono hlow hhigh (relax_opcode_frames r buf)
    case isFalse => exact frames_same _ _ _
  | pair sub r =>
    dsimp only
    split
    · exact frames_none _ _
    · exact apply_pair_frames ctx sub r buf

end Frame

section Steps

variable {ctx : Context} {base : Addr} {r : Reloc RelocType} {p t : Addr} {buf out : List UInt8}

/-- A displacement in reach. -/
theorem write_rip_disp (h : writeRip r p t buf = some (out,[])) :
    ∃ disp, bytesAt out r.offset 4 = some (bytes32 disp) ∧ ripDest r p disp = t := by
  obtain ⟨hread,herr⟩ := write_read h
  have hfits : Fits32 (ripDisplacement r p t) := by
    by_contra hn
    simp [hn] at herr
  rw [bytes32_length] at hread
  refine ⟨_,hread,?_⟩
  rw [ripDest, sign_extend_low hfits, ripDisplacement]
  bv_omega

theorem write_rip_exact (h : writeRip r p t buf = some (out,[])) :
    DispExact r p t (bytesAt out r.offset 4) := by
  obtain ⟨disp,hread,hdest⟩ := write_rip_disp h
  rw [DispExact, hread, Option.map_some, word_bytes32, hdest]

theorem of_low_byte (v : BitVec 64) (hlow : -128 ≤ v.toInt) (hhigh : v.toInt < 128) :
    (BitVec.ofNat 8 (ofLe [(v.toNat % 256).toUInt8])).signExtend 64 = v := by
  have hbyte : BitVec.ofNat 8 (ofLe [(v.toNat % 256).toUInt8]) = v.setWidth 8 := by
    apply BitVec.eq_of_toNat_eq
    simp [ofLe]
  rw [hbyte]
  exact sign_extend_set_width v (by omega) (by omega) (by omega)

theorem write_branch8_exact {sym : Symbol} (h : writeBranch8 r sym t p buf = some (out,[])) :
    (bytesAt out r.offset 1).map
      (fun b => p + 1 + (BitVec.ofNat 8 (ofLe b)).signExtend 64) = some t := by
  obtain ⟨hread,herr⟩ := write_read h
  have hfits : -128 ≤ (t - (p+1)).toInt ∧ (t - (p+1)).toInt < 128 := by
    split at herr
    · cases herr
    · split at herr
      · assumption
      · cases herr
  rw [List.length_singleton] at hread
  rw [hread, Option.map_some, of_low_byte _ hfits.1 hfits.2]
  congr 1
  bv_omega

/-- A load whose opcode is relaxed without a report: a movq, or a leaq
already. -/
theorem relax_opcode_exact (h : relaxOpcode r buf = some (out,[])) :
    2 ≤ r.offset ∧ out.length = buf.length ∧
      (∃ op, bytesAt buf (r.offset-2) 1 = some [op] ∧ (op = 0x8b ∨ op = 0x8d)) ∧
      bytesAt out (r.offset-2) 1 = some [0x8d] := by
  have hlen := (relax_opcode_frames r buf out [] h).1
  rw [relaxOpcode] at h
  split at h
  case isTrue => cases h
  case isFalse hoff =>
    rw [Option.bind_eq_some_iff] at h
    obtain ⟨op,hop,h⟩ := h
    refine ⟨by omega,hlen,?_⟩
    split at h
    case isTrue h8b =>
      exact ⟨⟨0x8b,by rw [hop, h8b],Or.inl rfl⟩,(write_read h).1⟩
    case isFalse =>
      split at h
      case isTrue h8d =>
        obtain ⟨rfl,-⟩ := Prod.mk.inj (Option.some.inj h)
        rw [h8d] at hop
        exact ⟨⟨0x8d,hop,Or.inr rfl⟩,hop⟩
      case isFalse => cases h

/-- A relaxed load: a leaq of the symbol. -/
theorem relaxed_exact {mid : List UInt8} (hopcode : relaxOpcode r buf = some (mid,[]))
    (h : writeRip r p t mid = some (out,[])) :
    ∃ op modrm field disp, bytesAt buf (r.offset-2) 6 = some (op :: modrm :: field) ∧
      (op = 0x8b ∨ op = 0x8d) ∧
      bytesAt out (r.offset-2) 6 = some (0x8d :: modrm :: bytes32 disp) ∧ ripDest r p disp = t := by
  obtain ⟨hoff,hlen,⟨op,hop,hcode⟩,hmid⟩ := relax_opcode_exact hopcode
  have hframe := (relax_opcode_frames r buf mid [] hopcode).2
  have hframe' := (write_rip_frames r mid p t out [] h).2
  obtain ⟨disp,hdisp,hdest⟩ := write_rip_disp h
  have hin : r.offset+4 ≤ buf.length := by
    have hle := (write_some h).1
    rw [bytes32_length] at hle
    omega
  have hsecond : ∃ modrm, bytesAt buf (r.offset-2+1) 1 = some [modrm] := by
    obtain ⟨bytes,hbytes,hone⟩ : ∃ bytes, bytesAt buf (r.offset-2+1) 1 = some bytes ∧
      bytes.length = 1 := bytes_at_in (by omega)
    obtain ⟨modrm,rfl⟩ := List.length_eq_one_iff.mp hone
    exact ⟨modrm,hbytes⟩
  obtain ⟨modrm,hmodrm⟩ := hsecond
  obtain ⟨field,hfield,-⟩ : ∃ field, bytesAt buf (r.offset-2+2) 4 = some field ∧
    field.length = 4 := bytes_at_in (by omega)
  have hopOut : bytesAt out (r.offset-2) 1 = some [0x8d] :=
    (hframe' ⟨r.offset-2,1⟩ (Or.inr (by dsimp only; omega))).trans hmid
  have hmodrmOut : bytesAt out (r.offset-2+1) 1 = some [modrm] := by
    calc bytesAt out (r.offset-2+1) 1 = bytesAt mid (r.offset-2+1) 1 :=
          hframe' ⟨r.offset-2+1,1⟩ (Or.inr (by dsimp only; omega))
      _ = bytesAt buf (r.offset-2+1) 1 := hframe ⟨r.offset-2+1,1⟩ (Or.inl le_rfl)
      _ = some [modrm] := hmodrm
  have hdispOut : bytesAt out (r.offset-2+2) 4 = some (bytes32 disp) := by
    rwa [Nat.sub_add_cancel hoff]
  exact ⟨op,modrm,field,disp,bytes_at_join (bytes_at_join hop hmodrm) hfield,hcode,
    bytes_at_join (bytes_at_join hopOut hmodrmOut) hdispOut,hdest⟩

theorem pointer32_exact {errs : List Report} (herr : checkPointer32 ctx r p = [])
    (h : write buf r.offset (bytes32 ((r.addr ctx + r.addend).setWidth 32)) errs = some (out,[]))
    (hfits : ctx.staticLink = true ∨ (r.addr ctx + r.addend).toNat < 2^32) :
    (bytesAt out r.offset 4).map (fun b => (word b).setWidth 64) =
      some (r.addr ctx + r.addend) := by
  have hlt : (r.addr ctx + r.addend).toNat < 2^32 := by
    rcases hfits with hstatic | hlt
    · rw [checkPointer32, if_pos hstatic] at herr
      split at herr
      · cases herr
      · omega
    · exact hlt
  rw [← bytes32_length, (write_read h).1, Option.map_some, word_bytes32]
  congr 1
  apply BitVec.eq_of_toNat_eq
  rw [BitVec.toNat_setWidth, BitVec.toNat_setWidth]
  omega

/-- A field written without a report, no load's opcode relaxed. -/
theorem field_exact (hcall : loadCall ctx r = none) (hsite : dtraceSiteCode ctx r = none)
    (hrelax : relaxedGotLoad ctx r = false)
    (hmade : r.ty = .branch → r.size = 4 → ∀ idx, r.target = .sym idx →
      (r.addend.setWidth 32).signExtend 64 = r.addend)
    (hsize : r.ty = .branch → r.size = 1 ∨ r.size = 4)
    (h : applyField ctx base r buf = some (out,[])) :
    Exact ctx base r (bytesAt buf r.offset (fieldSize r)) (bytesAt out r.offset (fieldSize r)) := by
  simp only [applyField] at h
  simp only [Exact, hcall, hsite, fieldSize]
  cases hty : r.ty with
  | unsigned =>
    rw [hty] at h
    dsimp only at h ⊢
    by_cases h4 : r.size = 4
    · rw [if_pos h4] at h
      rw [if_pos h4, if_pos h4]
      exact pointer32_exact (write_read h).2.symm h
    · rw [if_neg h4] at h
      rw [if_neg h4, if_neg h4]
      split at h
      case isTrue hb =>
        obtain ⟨rfl,-⟩ := Prod.mk.inj (Option.some.inj h)
        rw [if_pos hb]
      case isFalse hb =>
        rw [if_neg hb]
        split at h
        case isTrue ht =>
          rw [if_pos ht, ← bytes64_length, (write_read h).1, Option.map_some, dword_bytes64]
        case isFalse ht =>
          rw [if_neg ht, ← bytes64_length, (write_read h).1, Option.map_some, dword_bytes64]
  | branch =>
    rw [hty] at h
    dsimp only at h ⊢
    by_cases h1 : r.size = 1
    · rw [if_pos h1, Option.bind_eq_some_iff] at h
      obtain ⟨sym,-,h⟩ := h
      rw [if_pos h1, if_pos h1]
      exact write_branch8_exact h
    · have h4 := (hsize hty).resolve_left h1
      rw [if_neg h1] at h
      rw [if_neg h1, if_neg h1]
      by_cases hk : kextCall ctx r = true
      · rw [if_pos hk] at h
        rw [if_pos hk]
        obtain ⟨idx,hidx⟩ : ∃ idx, r.target = .sym idx := by
          rw [kextCall, Option.any_eq_true] at hk
          obtain ⟨sym,hsym,-⟩ := hk
          rw [Reloc.sym] at hsym
          split at hsym
          · exact ⟨_,by assumption⟩
          · cases hsym
        rw [← bytes32_length, (write_read h).1, Option.map_some, word_bytes32,
          hmade hty h4 idx hidx]
      · rw [if_neg hk] at h
        rw [if_neg hk]
        exact write_rip_exact h
  | signed | signed1 | signed2 | signed4 =>
    rw [hty] at h
    dsimp only at h ⊢
    split at h
    case h_1 => exact write_rip_exact h
    case h_2 hn => exact absurd (Prod.mk.inj (Option.some.inj h)).2 hn
  | gotLoad | got | tlv =>
    rw [hty] at h
    dsimp only at h ⊢
    rw [if_neg (by simp [hrelax]), Option.bind_eq_some_iff] at h
    obtain ⟨sym,hsym,h⟩ := h
    rw [Option.bind_eq_some_iff] at h
    obtain ⟨g,hg,h⟩ := h
    rw [if_neg (by simp [hrelax])]
    exact ⟨sym,g,hsym,hg,write_rip_exact h⟩
  | subtractor =>
    rw [hty] at h
    cases h

/-- A relaxed load's field: no other type relaxes. -/
theorem relaxed_field (hrelax : relaxedGotLoad ctx r = true)
    (h : applyField ctx base r buf = some (out,[])) :
    writeRip r (r.place base) (r.addr ctx + r.addend) buf = some (out,[]) := by
  simp only [applyField] at h
  rcases relaxed_type ctx r hrelax with hty | hty
  all_goals
    rw [hty] at h
    dsimp only at h
    rwa [if_pos hrelax] at h

/-- Where the call put three bytes before a field ends. -/
theorem call_end (base : Addr) (hoff : 3 ≤ r.offset) :
    base + BitVec.ofNat 64 (r.offset-3) + 5 = r.place base + 2 := by
  obtain ⟨k,hk⟩ := Nat.exists_eq_add_of_le hoff
  rw [Reloc.place, hk, Nat.add_sub_cancel_left, BitVec.ofNat_add]
  bv_omega

/-- A round that reports nothing. -/
theorem apply_round_exact {round : Round RelocType}
    (h : applyRound ctx base round buf = some (out,[]))
    (hmade : ∀ r, round = .one r → Made r) :
    RoundExact ctx base round ((span ctx round).bytes buf) ((span ctx round).bytes out) := by
  unfold applyRound at h
  cases round with
  | pair sub r =>
    dsimp only at h
    split at h
    · cases h
    · exact apply_pair_exact h
  | one r =>
    have hr := hmade r rfl
    dsimp only at h
    rw [Option.bind_eq_some_iff] at h
    obtain ⟨⟨mid,errs⟩,hmid,h⟩ := h
    rw [Option.map_eq_some_iff] at h
    obtain ⟨⟨out',more⟩,hout,h⟩ := h
    obtain ⟨rfl,herrs⟩ := Prod.mk.inj h
    obtain ⟨rfl,rfl⟩ := List.append_eq_nil_iff.mp herrs
    show Exact ctx base r _ _
    unfold applyReloc at hout
    split at hout
    case h_1 helper hcall =>
      split at hout
      · cases hout
      case isFalse hoff =>
        simp only [Exact, span, Span.bytes, hcall]
        have hread := (write_read hout).1
        rw [call_code_length] at hread
        refine ⟨_,hread,fun hfits => ?_⟩
        rw [call_end base (by omega), sign_extend_low hfits]
        bv_omega
    case h_2 hcall =>
      split at hout
      case h_1 code hsite =>
        split at hout
        · cases hout
        · have hread := (write_read hout).1
          rw [(dtrace_type ctx r hsite).2] at hread
          simpa only [Exact, span, Span.bytes, hcall, hsite] using hread
      case h_2 hsite =>
        split at hout
        · cases hout
        by_cases hrelax : relaxedGotLoad ctx r = true
        · rw [if_pos hrelax] at hmid
          have hrip := relaxed_field hrelax hout
          have hexact := relaxed_exact hmid hrip
          simp only [Exact, span, Span.bytes, hcall, hsite, if_pos hrelax]
          rcases relaxed_type ctx r hrelax with hty | hty
          all_goals
            rw [hty]
            exact hexact
        · have hno : relaxedGotLoad ctx r = false := Bool.eq_false_iff.mpr hrelax
          rw [if_neg hrelax] at hmid
          obtain ⟨rfl,-⟩ := Prod.mk.inj (Option.some.inj hmid)
          have hexact := field_exact hcall hsite hno hr.call hr.branch hout
          have hspan : ∀ b, (span ctx (.one r)).bytes b = bytesAt b r.offset (fieldSize r) := by
            intro b
            simp only [span, Span.bytes, hcall, hsite, if_neg hrelax]
          rw [hspan, hspan]
          exact hexact

end Steps

end MoldMacho.Arch.X86
