import MoldMacho.InputSections
import MoldMacho.Lib.BitFields
import MoldMacho.Lib.Edits

/-!
# Relocations

The records of an object's relocations, the relocations read from them,
and what applying one asks of the link: the final addresses of symbols,
stubs, slots and thunks, and what dyld does to a symbol at run time.
-/

set_option autoImplicit false

namespace MoldMacho.Arch

open InputSections (RelocTarget)
open Bytes Edits

abbrev Addr := BitVec 64

section Records

/-- A relocation record: its second word is idx:24, pcrel:1, p2size:2,
extern:1, type:4. -/
structure MachRel where
  offset : ℕ
  bits : BitVec 32

namespace MachRel

def idx (r : MachRel) : ℕ := (r.bits.extractLsb' 0 24).toNat
/-- The ordinal of the section a record that is not extern refers to. -/
def sect (r : MachRel) : ℕ := (r.bits.extractLsb' 0 8).toNat
def form (r : MachRel) : BitVec 4 := r.bits.extractLsb' 24 4
def isPcrel (r : MachRel) : Bool := r.bits.getLsbD 24
def p2size (r : MachRel) : ℕ := (r.bits.extractLsb' 25 2).toNat
def isExtern (r : MachRel) : Bool := r.bits.getLsbD 27
def ty (r : MachRel) : BitVec 4 := r.bits.extractLsb' 28 4

end MachRel

/-- One form of a record, as a bit in a set of the forms a type takes. -/
def relocForm (pcrel : Bool) (p2size : ℕ) (ext : Bool) : BitVec 16 :=
  1#16 <<< (pcrel.toNat ||| p2size <<< 1 ||| ext.toNat <<< 3)

def hasRelocForm (r : MachRel) (forms : BitVec 16) : Bool := forms.getLsbD r.form.toNat

theorem form_p2size (r : MachRel) : r.p2size = (r.form.extractLsb' 1 2).toNat := by
  rw [MachRel.p2size]
  apply congrArg
  ext i hi
  simp only [MachRel.form, BitVec.getElem_extractLsb', BitVec.getLsbD_extractLsb']
  grind

/-- A section header, less what no relocation reads. -/
structure MachSection where
  addr : Addr

/-- Where a record that names a section points, its address being `addr`. -/
def sectionTarget (sections : List MachSection) (r : MachRel) (addr : Addr) :
    Option (RelocTarget × BitVec 64) :=
  match r.sect with
  | 0 => none
  | i+1 => sections[i]?.map fun sec => (.section i,addr - sec.addr)

end Records

/-- A relocation of a target whose types are `T`. -/
structure Reloc (T : Type) where
  offset : ℕ
  ty : T
  size : ℕ
  isPcrel : Bool
  isSubtracted : Bool
  target : RelocTarget
  addend : BitVec 64
  deriving DecidableEq

/-- A section's relocation, handed to its subsection `subOff` bytes in.
The target of one that names a section is the subsection found there, so
its addend may change. -/
def Reloc.Rebased {T : Type} (subOff : ℕ) (y x : Reloc T) : Prop :=
  x.offset+subOff = y.offset ∧ x.ty = y.ty ∧ x.size = y.size ∧ x.isPcrel = y.isPcrel ∧
    x.isSubtracted = y.isSubtracted ∧
    ((∃ idx, y.target = .sym idx ∧ x.target = .sym idx ∧ x.addend = y.addend) ∨
      ∃ i j, y.target = .section i ∧ x.target = .section j)

section Link

/-- A DTrace probe, or an is-enabled test. -/
inductive SiteKind where
  | probe
  | isEnabled
  deriving DecidableEq

structure Symbol where
  addr : Addr := 0
  /-- The stub at `stub_idx`. -/
  stubAddr : Option Addr := none
  /-- A stub of any kind, a lazy or delay-init dylib's among them. -/
  hasStub : Bool := false
  /-- The `__got` slot, else the `__lazy_load_got` slot. -/
  gotSlot : Option Addr := none
  thunkAddrs : List Addr := []
  isImported : Bool := false
  isInterposableExport : Bool := false
  isWeakCoalesced : Bool := false
  bindsWeakLookup : Bool := false
  bindsToSelf : Bool := false
  isAbsolute : Bool := false
  isThreadLocal : Bool := false
  siteKind : Option SiteKind := none

namespace Symbol

def bindsAsImport (sym : Symbol) : Bool := sym.isImported || sym.isInterposableExport
def isInterposable (sym : Symbol) : Bool := sym.isWeakCoalesced || sym.isInterposableExport
def bindsAtRuntime (sym : Symbol) : Bool := sym.isImported || sym.isInterposable

/-- Whether a GOT load of the symbol becomes a computation of its address. -/
def canRelaxGot (sym : Symbol) : Bool :=
  !sym.bindsAsImport && !sym.bindsWeakLookup && !sym.isAbsolute

def branchTargetAddr (sym : Symbol) : Addr :=
  match sym.isInterposable, sym.stubAddr with
  | true, some stub => stub
  | _, _ => sym.addr

end Symbol

structure InputSection where
  addr : Addr := 0
  isThreadLocal : Bool := false

/-- The link, to the relocations of one subsection: the object's symbols by
index, the subsections, and the helpers by the offset of the load they
stand in for, each with whether it is the load's own. -/
structure Context where
  symbols : ℕ → Symbol
  isecs : ℕ → InputSection
  tlsBegin : Addr := 0
  textRelocRanges : List (Addr × Addr) := []
  legacyLinkedit : Bool := false
  staticLink : Bool := false
  slides : Bool := true
  lazyHelper : ℕ → Option (Addr × Bool) := fun _ => none
  delayHelper : ℕ → Option (Addr × Bool) := fun _ => none

def Symbol.bindsPointer (sym : Symbol) (ctx : Context) : Bool :=
  sym.bindsAsImport || (ctx.legacyLinkedit && sym.isWeakCoalesced)

/-- What a relocation reports: an error at its offset, or an entry of one
of the lists `report_text_relocs` fails the link on. -/
inductive Report where
  | targetWithoutAddress (offset : ℕ)
  | adrpOutOfRange (offset : ℕ) (p t : Addr)
  | misalignedLoadStore (offset size : ℕ)
  | branchOutOfRange (offset : ℕ) (displacement : ℤ) (p t : Addr)
  | notLdr (offset : ℕ)
  | notMovq (offset : ℕ)
  | ripOutOfRange (offset : ℕ) (displacement : ℤ) (p t : Addr)
  | pointerOverflow (offset : ℕ)
  | textReloc (offset : ℕ)
  | pointer32 (offset : ℕ)
  deriving DecidableEq

variable {T : Type}

namespace Reloc

def sym (r : Reloc T) (ctx : Context) : Option Symbol :=
  match r.target with
  | .sym idx => some (ctx.symbols idx)
  | .section _ => none

def addr (r : Reloc T) (ctx : Context) : Addr :=
  match r.target with
  | .sym idx => (ctx.symbols idx).addr
  | .section i => (ctx.isecs i).addr

def refersToTls (r : Reloc T) (ctx : Context) : Bool :=
  match r.target with
  | .sym idx => (ctx.symbols idx).isThreadLocal
  | .section i => (ctx.isecs i).isThreadLocal

def branchTarget (r : Reloc T) (ctx : Context) : Addr :=
  match r.sym ctx with
  | some sym => sym.branchTargetAddr
  | none => r.addr ctx

def place (r : Reloc T) (base : Addr) : Addr := base + BitVec.ofNat 64 r.offset

end Reloc

def targetHasAddress (ctx : Context) (r : Reloc T) : List Report :=
  match r.sym ctx with
  | some sym => if sym.isImported then [.targetWithoutAddress r.offset] else []
  | none => []

def inTextRelocRange (ctx : Context) (p : Addr) : Bool :=
  ctx.textRelocRanges.any fun range => range.1.ule p && p.ult range.2

def needsFixup (ctx : Context) (r : Reloc T) : Bool :=
  match r.sym ctx with
  | some sym =>
    if sym.bindsAtRuntime || sym.bindsToSelf then true
    else if sym.isAbsolute then false
    else ctx.slides && !r.refersToTls ctx
  | none => ctx.slides && !r.refersToTls ctx

def checkTextReloc (ctx : Context) (r : Reloc T) (p : Addr) : List Report :=
  if inTextRelocRange ctx p && needsFixup ctx r then [.textReloc r.offset] else []

/-- The helper that stands in for a load: a lazy dylib's, else a
delay-init dylib's. -/
def loadHelper (ctx : Context) (r : Reloc T) : Option (Addr × Bool) :=
  (ctx.lazyHelper r.offset).or (ctx.delayHelper r.offset)

end Link

section Buffers

def word (b : List UInt8) : BitVec 32 := BitVec.ofNat 32 (ofLe b)
def dword (b : List UInt8) : BitVec 64 := BitVec.ofNat 64 (ofLe b)

def bytes32 (v : BitVec 32) : List UInt8 := toLe 4 v.toNat
def bytes64 (v : BitVec 64) : List UInt8 := toLe 8 v.toNat

@[simp] theorem bytes32_length (v : BitVec 32) : (bytes32 v).length = 4 := to_le_length 4 _
@[simp] theorem bytes64_length (v : BitVec 64) : (bytes64 v).length = 8 := to_le_length 8 _

@[simp] theorem word_bytes32 (v : BitVec 32) : word (bytes32 v) = v := by
  apply BitVec.eq_of_toNat_eq
  rw [word, bytes32, BitVec.toNat_ofNat, of_to_le, Nat.mod_mod_of_dvd _ (by norm_num)]
  exact Nat.mod_eq_of_lt v.isLt

@[simp] theorem dword_bytes64 (v : BitVec 64) : dword (bytes64 v) = v := by
  apply BitVec.eq_of_toNat_eq
  rw [dword, bytes64, BitVec.toNat_ofNat, of_to_le, Nat.mod_mod_of_dvd _ (by norm_num)]
  exact Nat.mod_eq_of_lt v.isLt

/-- A write in place, with what it reports; past the buffer's end it
panics. -/
def write (buf : List UInt8) (off : ℕ) (bytes : List UInt8) (errs : List Report) :
    Option (List UInt8 × List Report) :=
  if off+bytes.length ≤ buf.length then some (writeAt buf off bytes,errs) else none

def edit32 (buf : List UInt8) (off : ℕ) (f : BitVec 32 → BitVec 32 × List Report) :
    Option (List UInt8 × List Report) :=
  (bytesAt buf off 4).bind fun b => write buf off (bytes32 (f (word b)).1) (f (word b)).2

theorem write_some {buf bytes out : List UInt8} {off : ℕ} {errs errs' : List Report}
    (h : write buf off bytes errs = some (out,errs')) :
    off+bytes.length ≤ buf.length ∧ out = writeAt buf off bytes ∧ errs' = errs := by
  rw [write] at h
  split at h
  · cases h
    exact ⟨by assumption,rfl,rfl⟩
  · cases h

theorem edit32_some {buf out : List UInt8} {off : ℕ} {f : BitVec 32 → BitVec 32 × List Report}
    {errs : List Report} (h : edit32 buf off f = some (out,errs)) :
    ∃ b, bytesAt buf off 4 = some b ∧ off+4 ≤ buf.length ∧
      out = writeAt buf off (bytes32 (f (word b)).1) ∧ errs = (f (word b)).2 := by
  rw [edit32, Option.bind_eq_some_iff] at h
  obtain ⟨b,hb,h⟩ := h
  obtain ⟨hle,rfl,rfl⟩ := write_some h
  exact ⟨b,hb,by simpa using hle,rfl,rfl⟩

theorem write_read {buf bytes out : List UInt8} {off : ℕ} {errs errs' : List Report}
    (h : write buf off bytes errs = some (out,errs')) :
    bytesAt out off bytes.length = some bytes ∧ errs' = errs := by
  obtain ⟨hle,rfl,rfl⟩ := write_some h
  exact ⟨bytes_at_write bytes hle,rfl⟩

theorem edit32_read {buf out : List UInt8} {off : ℕ} {f : BitVec 32 → BitVec 32 × List Report}
    {errs : List Report} (h : edit32 buf off f = some (out,errs)) :
    ∃ b, bytesAt buf off 4 = some b ∧ bytesAt out off 4 = some (bytes32 (f (word b)).1) ∧
      errs = (f (word b)).2 := by
  obtain ⟨b,hb,hle,rfl,rfl⟩ := edit32_some h
  refine ⟨b,hb,?_,rfl⟩
  have hread : bytesAt (writeAt buf off (bytes32 (f (word b)).1)) off
      (bytes32 (f (word b)).1).length = _ := bytes_at_write _ (by simpa using hle)
  rwa [bytes32_length] at hread

/-- An edit's outcome differs from the buffer in a span at most. -/
def Frames (s : Span) (buf : List UInt8) (res : Option (List UInt8 × List Report)) : Prop :=
  ∀ out errs, res = some (out,errs) →
    out.length = buf.length ∧ ∀ t, s.Apart t → t.bytes out = t.bytes buf

theorem frames_none (s : Span) (buf : List UInt8) : Frames s buf none := by
  intro out errs h
  cases h

theorem frames_same (s : Span) (buf : List UInt8) (errs : List Report) :
    Frames s buf (some (buf,errs)) := by
  intro out errs' h
  cases h
  exact ⟨rfl,fun _ _ => rfl⟩

theorem frames_write {s : Span} {off : ℕ} {bytes : List UInt8} (buf : List UInt8)
    (errs : List Report) (hlow : s.off ≤ off) (hhigh : off+bytes.length ≤ s.off+s.len) :
    Frames s buf (write buf off bytes errs) := by
  intro out errs' h
  obtain ⟨hle,rfl,-⟩ := write_some h
  refine ⟨write_at_length hle,fun t ht => ?_⟩
  have hapart : t.off+t.len ≤ off ∨ off+bytes.length ≤ t.off := by
    rcases ht with ht | ht
    · exact Or.inr (by omega)
    · exact Or.inl (by omega)
  exact bytes_at_write_apart hle hapart

theorem frames_bind {α : Type} {s : Span} {buf : List UInt8} {o : Option α}
    {f : α → Option (List UInt8 × List Report)} (h : ∀ a, Frames s buf (f a)) :
    Frames s buf (o.bind f) := by
  cases o with
  | none => exact frames_none s buf
  | some a => exact h a

theorem frames_mono {s t : Span} {buf : List UInt8} {res : Option (List UInt8 × List Report)}
    (hlow : t.off ≤ s.off) (hhigh : s.off+s.len ≤ t.off+t.len) (h : Frames s buf res) :
    Frames t buf res := by
  intro out errs hres
  obtain ⟨hlen,hframe⟩ := h out errs hres
  refine ⟨hlen,fun u hu => hframe u ?_⟩
  rcases hu with hu | hu
  · exact Or.inl (by omega)
  · exact Or.inr (by omega)

/-- Two edits of one span, one after the other. -/
theorem frames_seq {s : Span} {buf : List UInt8} {o : Option (List UInt8 × List Report)}
    {f : List UInt8 → Option (List UInt8 × List Report)} (h : Frames s buf o)
    (hf : ∀ mid, Frames s mid (f mid)) :
    Frames s buf (o.bind fun (mid,errs) => (f mid).map fun (out,more) => (out,errs ++ more)) := by
  intro out errs hres
  rw [Option.bind_eq_some_iff] at hres
  obtain ⟨⟨mid,first⟩,hmid,hres⟩ := hres
  rw [Option.map_eq_some_iff] at hres
  obtain ⟨⟨out',more⟩,hout,hres⟩ := hres
  cases hres
  obtain ⟨hlen,hframe⟩ := h mid first hmid
  obtain ⟨hlen',hframe'⟩ := hf mid out more hout
  exact ⟨hlen'.trans hlen,fun t ht => (hframe' t ht).trans (hframe t ht)⟩

theorem frames_edit32 {s : Span} {off : ℕ} (buf : List UInt8)
    (f : BitVec 32 → BitVec 32 × List Report) (hlow : s.off ≤ off) (hhigh : off+4 ≤ s.off+s.len) :
    Frames s buf (edit32 buf off f) :=
  frames_bind fun b => frames_write buf _ hlow (by simpa using hhigh)

end Buffers

section Distances

/-- The distances a signed 32-bit field holds. -/
def Fits32 (v : BitVec 64) : Prop := -2^31 ≤ v.toInt ∧ v.toInt < 2^31

instance (v : BitVec 64) : Decidable (Fits32 v) := inferInstanceAs (Decidable (_ ∧ _))

theorem sign_extend_low {v : BitVec 64} (h : Fits32 v) : (v.setWidth 32).signExtend 64 = v :=
  BitFields.sign_extend_set_width v (by omega) h.1 h.2

end Distances

/-- A round of the loop over relocations: one, or a SUBTRACTOR and the
relocation after it, which it takes with it. -/
inductive Round (T : Type) where
  | one (r : Reloc T)
  | pair (sub r : Reloc T)

def Round.first {T : Type} : Round T → Reloc T
  | .one r => r
  | .pair sub _ => sub

def rounds {T : Type} (isSubtractor : T → Bool) : List (Reloc T) → Option (List (Round T))
  | [] => some []
  | [r] => if isSubtractor r.ty then none else some [.one r]
  | r::next::rels =>
    if isSubtractor r.ty then (rounds isSubtractor rels).map (.pair r next :: ·)
    else (rounds isSubtractor (next::rels)).map (.one r :: ·)

section Pairs

variable {T : Type} {ctx : Context} {sub r : Reloc T} {buf out : List UInt8}

/-- The distance a SUBTRACTOR and the relocation after it make. -/
def difference (ctx : Context) (sub r : Reloc T) : BitVec 64 :=
  r.addr ctx + r.addend - sub.addr ctx

def applyPair (ctx : Context) (sub r : Reloc T) (buf : List UInt8) :
    Option (List UInt8 × List Report) :=
  if sub.size = 4 then write buf sub.offset (bytes32 ((difference ctx sub r).setWidth 32)) []
  else write buf sub.offset (bytes64 (difference ctx sub r)) []

def pairSpan (sub : Reloc T) : Span := ⟨sub.offset,if sub.size = 4 then 4 else 8⟩

/-- A pair's field is the distance; a 4-byte field only holds one that fits. -/
def PairExact (ctx : Context) (sub r : Reloc T) (w' : Option (List UInt8)) : Prop :=
  if sub.size = 4 then
    Fits32 (difference ctx sub r) →
      w'.map (fun b => (word b).signExtend 64) = some (difference ctx sub r)
  else w'.map dword = some (difference ctx sub r)

theorem apply_pair_frames (ctx : Context) (sub r : Reloc T) (buf : List UInt8) :
    Frames (pairSpan sub) buf (applyPair ctx sub r buf) := by
  rw [applyPair]
  split
  case isTrue h => exact frames_write buf _ le_rfl (by simp [pairSpan, h])
  case isFalse h => exact frames_write buf _ le_rfl (by simp [pairSpan, h])

theorem apply_pair_exact (h : applyPair ctx sub r buf = some (out,[])) :
    PairExact ctx sub r ((pairSpan sub).bytes out) := by
  rw [applyPair] at h
  simp only [PairExact, pairSpan, Span.bytes]
  split at h
  case isTrue hs =>
    rw [if_pos hs, if_pos hs]
    intro hfits
    rw [← bytes32_length, (write_read h).1, Option.map_some, word_bytes32, sign_extend_low hfits]
  case isFalse hs =>
    rw [if_neg hs, if_neg hs, ← bytes64_length, (write_read h).1, Option.map_some, dword_bytes64]

end Pairs

end MoldMacho.Arch
