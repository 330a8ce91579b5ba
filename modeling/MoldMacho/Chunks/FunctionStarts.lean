import Mathlib.Data.List.Pairwise
import Mathlib.Data.List.Sort
import MoldMacho.Chunks.OutputSection
import MoldMacho.Lib.Lookup
import MoldMacho.Passes.Replacements
import MoldMacho.Passes.SegmentLayout
import MoldMacho.Util.Leb128

/-!
# Function starts

The table of the image's functions: the distances from each address to the next,
from the mach header's on, up to a zero. The code sections' subsections, the
symbols in them and the thunks' entries are listed, wherever the segments are.
-/

set_option autoImplicit false

namespace MoldMacho.FunctionStarts
open MoldMacho.Chunks MoldMacho.LayOutSegments MoldMacho.Leb128
open MoldMacho.Lookup MoldMacho.Links MoldMacho.OutputSections MoldMacho.Replacements
open MoldMacho.InputSections (InputSection)
open MoldMacho.Symbols (Symbol FileId)
open MoldMacho.Thunks (Target)

/-- The image once its segments are placed. The header of output section `i` is
the chunk `.other i`. -/
structure Image where
  functionStarts : Bool := true
  segments : List Segment
  outputSections : List OutputSection := []
  isecs : List InputSection := []
  offsets : ℕ → ℕ
  outputSection : ℕ → Option ℕ
  symbols : List Symbol := []
  /-- Bounds the steps of following replacements. -/
  steps : ℕ := 1

def Image.chunkHeader (img : Image) (id : ChunkId) : Option Chunk :=
  (img.segments.flatMap fun seg => seg.chunks).find? fun chunk => chunk.id == id

def isCode (hdr : Chunk) : Bool := hdr.flags &&& sAttrPureInstructions != 0

/-- The header of an output section of code. -/
def Image.code (img : Image) (i : ℕ) : Option Chunk := (img.chunkHeader (.other i)).filter isCode

def Image.headerAddr (img : Image) : ℕ := ((img.chunkHeader .machHeader).map fun hdr => hdr.addr).getD 0

/-! ## The table -/

section Starts
variable (target : Target) (img : Image)

def memberStart (base id : ℕ) : Option ℕ :=
  (img.isecs[id]?.filter fun isec => isec.size != 0 && isec.isEmitted).map fun _ =>
    base + img.offsets id

def thunkStarts (base : ℕ) (thunk : Thunks.Thunk) : List ℕ :=
  (List.range thunk.syms.length).map fun i => base + thunk.offset + i*target.thunkSize

def sectionStarts (osec : OutputSection) (i : ℕ) : List ℕ :=
  match img.code i with
  | some hdr =>
    osec.members.filterMap (memberStart img hdr.addr) ++
      osec.thunks.flatMap (thunkStarts target hdr.addr)
  | none => []

/-- The label inside a subsection; one at its start repeats its entry. -/
def symbolStart (sym : Symbol) : Option ℕ :=
  if sym.value = 0 then none
  else
    match sym.file with
    | some (.obj _) =>
      (sym.inputSection.bind (resolve img.isecs img.steps)).bind fun id =>
        ((img.outputSection id).bind img.code).bind fun hdr =>
          (img.isecs[id]?.filter fun isec => isec.isAlive && decide (sym.value < isec.size)).map
            fun _ => hdr.addr + img.offsets id + sym.value
    | _ => none

def addresses : List ℕ :=
  (img.outputSections.zipIdx.flatMap fun osec => sectionStarts target img osec.1 osec.2) ++
    img.symbols.filterMap (symbolStart img)

/-- The distances, which wrap where the code is below the header. -/
def encodeDeltas : ℕ → List ℕ → List UInt8
  | _, [] => []
  | last, addr::addrs => encodeUleb ((addr + 2^64 - last) % 2^64) ++ encodeDeltas addr addrs

def padded (buf : List UInt8) : List UInt8 := buf ++ List.replicate ((8 - buf.length % 8) % 8) 0

def construct : List UInt8 :=
  let addrs := addresses target img
  if !img.functionStarts then []
  else if addrs.isEmpty then List.replicate 8 0
  else padded (encodeDeltas img.headerAddr (dedupBy (· == ·) addrs.mergeSort) ++ [0])

end Starts

/-! ## Reading the table -/

/-- Reads distances up to a zero, so many at most. -/
def readDeltas : ℕ → ℕ → List UInt8 → Option (List ℕ)
  | 0, _, _ => none
  | fuel+1, last, buf =>
    (decodeUleb buf).bind fun (delta,rest) =>
      if delta = 0 then some []
      else
        let addr := (last + delta) % 2^64
        (readDeltas fuel addr rest).map (addr :: ·)

def readStarts (headerAddr : ℕ) (buf : List UInt8) : Option (List ℕ) :=
  readDeltas buf.length headerAddr buf

theorem encode_deltas_length (last : ℕ) (addrs : List ℕ) :
    addrs.length ≤ (encodeDeltas last addrs).length := by
  induction addrs generalizing last with
  | nil => exact le_rfl
  | cons addr addrs ih =>
    have hpos := List.length_pos_iff.2 (encode_uleb_ne_nil ((addr + 2^64 - last) % 2^64))
    have hrest := ih addr
    rw [encodeDeltas, List.length_append, List.length_cons]
    omega

/-- The distances between different addresses read back as the addresses. -/
theorem read_encode_deltas (addrs : List ℕ) {fuel last : ℕ} (rest : List UInt8)
    (hfuel : addrs.length < fuel) (hlast : last < 2^64) (hfits : ∀ addr ∈ addrs, addr < 2^64)
    (hne : (last::addrs).IsChain (· ≠ ·)) :
    readDeltas fuel last (encodeDeltas last addrs ++ 0::rest) = some addrs := by
  induction addrs generalizing fuel last with
  | nil =>
    obtain ⟨fuel,rfl⟩ := Nat.exists_eq_add_one.2 hfuel
    have hzero : decodeUleb (0::rest) = some (0,rest) := rfl
    simp only [encodeDeltas, List.nil_append, readDeltas, hzero, Option.bind_some, if_true]
  | cons addr addrs ih =>
    obtain ⟨fuel,rfl⟩ := Nat.exists_eq_add_one.2 (Nat.zero_lt_of_lt hfuel)
    obtain ⟨hdiff,hchain⟩ := List.isChain_cons_cons.1 hne
    have haddr := hfits addr List.mem_cons_self
    have hdelta : (addr + 2^64 - last) % 2^64 ≠ 0 := by omega
    have hback : (last + (addr + 2^64 - last) % 2^64) % 2^64 = addr := by omega
    have hread := @ih fuel addr (Nat.lt_of_succ_lt_succ hfuel) haddr
      (fun a ha => hfits a (List.mem_cons_of_mem _ ha)) hchain
    rw [encodeDeltas, List.append_assoc, readDeltas, decode_encode_uleb, Option.bind_some]
    dsimp only
    rw [if_neg hdelta, hback, hread]
    rfl

/-- The table of different addresses in order reads back. -/
theorem read_table {headerAddr : ℕ} {addrs : List ℕ} (hheader : headerAddr < 2^64)
    (hlt : addrs.Pairwise (· < ·)) (haddrs : ∀ addr ∈ addrs, addr ≠ headerAddr ∧ addr < 2^64) :
    readStarts headerAddr (padded (encodeDeltas headerAddr addrs ++ [0])) = some addrs := by
  have hchain : (headerAddr::addrs).Pairwise (· ≠ ·) :=
    List.pairwise_cons.2 ⟨fun addr h => (haddrs addr h).1.symm,hlt.imp Nat.ne_of_lt⟩
  have hlen := encode_deltas_length headerAddr addrs
  rw [readStarts, padded, List.append_assoc, List.singleton_append]
  refine read_encode_deltas addrs _ ?_ hheader (fun addr h => (haddrs addr h).2) hchain.isChain
  rw [List.length_append, List.length_cons]
  omega

/-! ## What the table lists -/

/-- The starts of the image's functions: of the nonempty subsections in the
output as themselves, of the symbols strictly inside one, and the thunks' entries. -/
inductive IsStart (target : Target) (img : Image) : ℕ → Prop
  | subsection {osec : OutputSection} {i id : ℕ} {hdr : Chunk} {isec : InputSection}
      (hosec : img.outputSections[i]? = some osec) (hcode : img.code i = some hdr)
      (hid : id ∈ osec.members) (hisec : img.isecs[id]? = some isec) (hsize : isec.size ≠ 0)
      (hemitted : isec.isEmitted = true) : IsStart target img (hdr.addr + img.offsets id)
  | symbol {sym : Symbol} {file first id i : ℕ} {hdr : Chunk} {isec : InputSection}
      (hsym : sym ∈ img.symbols) (hfile : sym.file = some (.obj file))
      (hfirst : sym.inputSection = some first)
      (hends : Ends (replacementOf img.isecs) first id) (hisec : img.isecs[id]? = some isec)
      (hemitted : isec.isEmitted = true) (hplace : img.outputSection id = some i)
      (hcode : img.code i = some hdr) (hpos : 0 < sym.value) (hlt : sym.value < isec.size) :
      IsStart target img (hdr.addr + img.offsets id + sym.value)
  | thunk {osec : OutputSection} {i k : ℕ} {hdr : Chunk} {thunk : Thunks.Thunk}
      (hosec : img.outputSections[i]? = some osec) (hcode : img.code i = some hdr)
      (hthunk : thunk ∈ osec.thunks) (hk : k < thunk.syms.length) :
      IsStart target img (hdr.addr + thunk.offset + k*target.thunkSize)

/-- Replacements end within the steps they are followed for. -/
def Image.Resolves (img : Image) : Prop :=
  ∀ sym ∈ img.symbols, ∀ i, sym.inputSection = some i → (resolve img.isecs img.steps i).isSome

section Members
variable {target : Target} {img : Image}

theorem mem_section_starts {osec : OutputSection} {i addr : ℕ}
    (hosec : img.outputSections[i]? = some osec) (h : addr ∈ sectionStarts target img osec i) :
    IsStart target img addr := by
  rw [sectionStarts] at h
  cases hcode : img.code i with
  | none => simp [hcode] at h
  | some hdr =>
    simp only [hcode] at h
    rcases List.mem_append.1 h with h | h
    · obtain ⟨id,hid,hstart⟩ := List.mem_filterMap.1 h
      obtain ⟨isec,hfilter,rfl⟩ := Option.map_eq_some_iff.1 hstart
      obtain ⟨hisec,hkept⟩ := Option.filter_eq_some_iff.1 hfilter
      obtain ⟨hsize,hemitted⟩ := Bool.and_eq_true_iff.1 hkept
      exact .subsection hosec hcode hid hisec (by simpa using hsize) hemitted
    · obtain ⟨thunk,hthunk,hentry⟩ := List.mem_flatMap.1 h
      obtain ⟨k,hk,rfl⟩ := List.mem_map.1 hentry
      exact .thunk hosec hcode hthunk (List.mem_range.1 hk)

theorem symbol_start_is_start {sym : Symbol} {addr : ℕ} (hsym : sym ∈ img.symbols)
    (h : symbolStart img sym = some addr) : IsStart target img addr := by
  rw [symbolStart] at h
  split at h
  · cases h
  · rename_i hvalue
    split at h
    · rename_i file hfile
      obtain ⟨id,hid,h⟩ := Option.bind_eq_some_iff.1 h
      obtain ⟨first,hfirst,hresolve⟩ := Option.bind_eq_some_iff.1 hid
      obtain ⟨hdr,hhdr,h⟩ := Option.bind_eq_some_iff.1 h
      obtain ⟨i,hplace,hcode⟩ := Option.bind_eq_some_iff.1 hhdr
      obtain ⟨isec,hfilter,rfl⟩ := Option.map_eq_some_iff.1 h
      obtain ⟨hisec,hkept⟩ := Option.filter_eq_some_iff.1 hfilter
      obtain ⟨halive,hlt⟩ := Bool.and_eq_true_iff.1 hkept
      have hends := follow_ends hresolve
      have hlast : isec.replacement = none := by
        have hlast := hends.last
        rwa [replacementOf, hisec] at hlast
      exact .symbol hsym hfile hfirst hends hisec (by simp [InputSection.isEmitted, halive, hlast])
        hplace hcode (Nat.pos_of_ne_zero hvalue) (of_decide_eq_true hlt)
    · cases h

theorem mem_addresses (hresolves : img.Resolves) {addr : ℕ} :
    addr ∈ addresses target img ↔ IsStart target img addr := by
  rw [addresses, List.mem_append]
  constructor
  · rintro (h | h)
    · obtain ⟨⟨osec,i⟩,hosec,h⟩ := List.mem_flatMap.1 h
      exact mem_section_starts (List.mem_zipIdx_iff_getElem?.1 hosec) h
    · obtain ⟨sym,hsym,h⟩ := List.mem_filterMap.1 h
      exact symbol_start_is_start hsym h
  · intro h
    cases h with
    | @subsection osec i id hdr isec hosec hcode hid hisec hsize hemitted =>
      refine Or.inl (List.mem_flatMap.2 ⟨(osec,i),List.mem_zipIdx_iff_getElem?.2 hosec,?_⟩)
      have hstart : memberStart img hdr.addr id = some (hdr.addr + img.offsets id) := by
        simp [memberStart, hisec, hsize, hemitted]
      simp only [sectionStarts, hcode]
      exact List.mem_append_left _ (List.mem_filterMap.2 ⟨id,hid,hstart⟩)
    | @symbol sym file first id i hdr isec hsym hfile hfirst hends hisec hemitted hplace hcode hpos
        hlt =>
      refine Or.inr (List.mem_filterMap.2 ⟨sym,hsym,?_⟩)
      obtain ⟨r,hr⟩ := Option.isSome_iff_exists.1 (hresolves sym hsym first hfirst)
      obtain rfl := (follow_ends hr).unique hends
      have halive : isec.isAlive = true := (Bool.and_eq_true_iff.1 hemitted).1
      simp [symbolStart, hpos.ne', hfile, hfirst, hr, hplace, hcode, hisec, halive, hlt]
    | @thunk osec i k hdr thunk hosec hcode hthunk hk =>
      refine Or.inl (List.mem_flatMap.2 ⟨(osec,i),List.mem_zipIdx_iff_getElem?.2 hosec,?_⟩)
      simp only [sectionStarts, hcode]
      refine List.mem_append_right _ (List.mem_flatMap.2 ⟨thunk,hthunk,?_⟩)
      exact List.mem_map.2 ⟨k,List.mem_range.2 hk,rfl⟩

end Members

/-! ## Where the segments are -/

/-- A segment that is laid out with its sections. -/
def Sectioned (seg : Segment) : Prop := ¬isBare seg ∧ seg.name ≠ linkeditName

instance (seg : Segment) : Decidable (Sectioned seg) :=
  inferInstanceAs (Decidable (¬(_ ∨ _) ∧ _))

/-- The segments are laid out from their chunks, with the mach header and the code
in them, and each output section has room for its parts. -/
structure Placed (target : Target) (ctx : LayOutSegments.Context) (source : List Segment)
    (img : Image) : Prop where
  args : ctx.args.Checked
  laid : ∃ fileoff, layOutSegments ctx source = .ok (img.segments,fileoff)
  fits : ∀ seg ∈ img.segments.dropLast, seg.vmaddr + seg.vmsize ≤ 2^64
  header : ∃ seg ∈ img.segments.dropLast, Sectioned seg ∧
    ∃ hdr ∈ seg.chunks, img.chunkHeader .machHeader = some hdr ∧ 0 < hdr.size
  code : ∀ i hdr, img.code i = some hdr → ∃ seg ∈ img.segments.dropLast, Sectioned seg ∧
    hdr ∈ seg.chunks
  members : ∀ i osec hdr, img.outputSections[i]? = some osec → img.code i = some hdr →
    ∀ id ∈ osec.members, img.outputSection id = some i
  subsections : ∀ i hdr id isec, img.code i = some hdr → img.outputSection id = some i →
    img.isecs[id]? = some isec → isec.isEmitted = true → img.offsets id + isec.size ≤ hdr.size
  thunks : ∀ i osec hdr, img.outputSections[i]? = some osec → img.code i = some hdr →
    ∀ thunk ∈ osec.thunks, 0 < target.thunkSize ∧ thunk.offset + thunk.size target ≤ hdr.size
  resolves : img.Resolves

section Placed
variable {target : Target} {ctx : LayOutSegments.Context} {source : List Segment} {img : Image}

/-- A listed address is in a code section. -/
theorem Placed.inside (h : Placed target ctx source img) {addr : ℕ} (haddr : IsStart target img addr) :
    ∃ i hdr, img.code i = some hdr ∧ hdr.addr ≤ addr ∧ addr < hdr.addr + hdr.size := by
  cases haddr with
  | @subsection osec i id hdr isec hosec hcode hid hisec hsize hemitted =>
    have hin := h.subsections i hdr id isec hcode (h.members i osec hdr hosec hcode id hid) hisec
      hemitted
    exact ⟨i,hdr,hcode,Nat.le_add_right _ _,by omega⟩
  | @symbol sym file first id i hdr isec hsym hfile hfirst hends hisec hemitted hplace hcode hpos
      hlt =>
    have hin := h.subsections i hdr id isec hcode hplace hisec hemitted
    exact ⟨i,hdr,hcode,by omega,by omega⟩
  | @thunk osec i k hdr thunk hosec hcode hthunk hk =>
    obtain ⟨hpos,hin⟩ := h.thunks i osec hdr hosec hcode thunk hthunk
    have hentry : (k+1)*target.thunkSize ≤ thunk.syms.length*target.thunkSize :=
      Nat.mul_le_mul_right _ hk
    rw [Nat.succ_mul] at hentry
    rw [Thunks.Thunk.size] at hin
    exact ⟨i,hdr,hcode,by omega,by omega⟩

/-- Chunks of segments with sections share no address. -/
theorem Placed.apart (h : Placed target ctx source img) {s t : Segment} {a b : Chunk}
    (hs : s ∈ img.segments.dropLast) (ht : t ∈ img.segments.dropLast) (hsects : Sectioned s)
    (htsects : Sectioned t) (ha : a ∈ s.chunks) (hb : b ∈ t.chunks) (hne : a ≠ b) (hasize : 0 < a.size)
    (hbsize : 0 < b.size) : a.addr + a.size ≤ b.addr ∨ b.addr + b.size ≤ a.addr := by
  obtain ⟨fileoff,hlaid⟩ := h.laid
  have hslaid := (lay_out_segments_laid h.args hlaid s hs hsects.1 hsects.2).1
  have htlaid := (lay_out_segments_laid h.args hlaid t ht htsects.1 htsects.2).1
  by_cases hst : s = t
  · subst hst
    have : Std.Symm fun a b : Chunk => a.addr + a.size ≤ b.addr ∨ b.addr + b.size ≤ a.addr :=
      ⟨fun _ _ => Or.symm⟩
    exact hslaid.apart.forall ha hb hne
  · have : Std.Symm fun a b : Segment => a.vmsize ≠ 0 → b.vmsize ≠ 0 →
        a.vmaddr + a.vmsize ≤ b.vmaddr ∨ b.vmaddr + b.vmsize ≤ a.vmaddr :=
      ⟨fun _ _ hab hb ha => (hab ha hb).symm⟩
    have hain := hslaid.inside a ha
    have hbin := htlaid.inside b hb
    have hboth := (lay_out_segments_apart hlaid).forall hs ht hst (by omega) (by omega)
    omega

theorem Placed.fits_in (h : Placed target ctx source img) {s : Segment} {a : Chunk}
    (hs : s ∈ img.segments.dropLast) (hsects : Sectioned s) (ha : a ∈ s.chunks) :
    a.addr + a.size ≤ 2^64 := by
  obtain ⟨fileoff,hlaid⟩ := h.laid
  have hslaid := (lay_out_segments_laid h.args hlaid s hs hsects.1 hsects.2).1
  exact (hslaid.inside a ha).2.trans (h.fits s hs)

theorem chunk_header_id {id : ChunkId} {hdr : Chunk} (h : img.chunkHeader id = some hdr) :
    hdr.id = id := by
  rw [Image.chunkHeader] at h
  simpa using List.find?_some h

theorem Placed.header_fits (h : Placed target ctx source img) : img.headerAddr < 2^64 := by
  obtain ⟨s,hs,hsects,header,hmem,hfind,hsize⟩ := h.header
  have hfits := h.fits_in hs hsects hmem
  rw [Image.headerAddr, hfind]
  exact Nat.lt_of_lt_of_le (Nat.lt_add_of_pos_right hsize) hfits

/-- No listed address is the mach header's, and all fit in 64 bits. -/
theorem Placed.start_ne (h : Placed target ctx source img) {addr : ℕ}
    (haddr : IsStart target img addr) : addr ≠ img.headerAddr ∧ addr < 2^64 := by
  obtain ⟨i,hdr,hcode,hle,hlt⟩ := h.inside haddr
  obtain ⟨s,hs,hsects,header,hmem,hfind,hsize⟩ := h.header
  obtain ⟨t,ht,htsects,hhdr⟩ := h.code i hdr hcode
  have hheaderAddr : img.headerAddr = header.addr := by
    rw [Image.headerAddr, hfind]
    rfl
  have hne : header ≠ hdr := by
    rintro rfl
    obtain ⟨hother,-⟩ := Option.filter_eq_some_iff.1 hcode
    have hid := (chunk_header_id hfind).symm.trans (chunk_header_id hother)
    cases hid
  have hapart := h.apart hs ht hsects htsects hmem hhdr hne hsize (by omega)
  have hfits := h.fits_in ht htsects hhdr
  rw [hheaderAddr]
  omega

/-- The table reads back as the starts of the image's functions, each once and in
order, wherever the segments are. -/
theorem read_construct (h : Placed target ctx source img) (hon : img.functionStarts = true) :
    ∃ addrs, readStarts img.headerAddr (construct target img) = some addrs ∧
      addrs.Pairwise (· < ·) ∧ ∀ addr, addr ∈ addrs ↔ IsStart target img addr := by
  have hmem (addr : ℕ) : addr ∈ addresses target img ↔ IsStart target img addr :=
    mem_addresses h.resolves
  rw [construct, hon]
  cases hempty : (addresses target img).isEmpty with
  | true =>
    refine ⟨[],rfl,List.Pairwise.nil,fun addr => ?_⟩
    rw [← hmem, List.isEmpty_iff.1 hempty]
  | false =>
    obtain ⟨hlt,hsame⟩ := dedup_by_lt (List.pairwise_mergeSort' (· ≤ ·) (addresses target img))
    have hlisted (addr : ℕ) : addr ∈ dedupBy (· == ·) ((addresses target img).mergeSort) ↔
        IsStart target img addr := by
      rw [hsame, List.mem_mergeSort, hmem]
    exact ⟨_,read_table h.header_fits hlt fun addr haddr => h.start_ne ((hlisted addr).1 haddr),hlt,
      hlisted⟩

end Placed

/-- A static image with code in a segment that `-segaddr` pins below the header's. -/
def pinnedCode : LayOutSegments.Context where
  args := { segmentAlign := 0x1000, staticLink := true, imageBase := some 0x10000,
            segaddrs := [(bytes "__CODE",0x4000)] }
  machHeaderSize := 0x100
  unwindInfoSize := 0
  codeSignatureSize := fun _ => 0

def codeSegments : List Segment :=
  let text (n : ℕ) (name : String) : Chunk :=
    { id := .other n, segname := bytes name, sectname := [], size := 16, flags := sAttrPureInstructions }
  [{ Segment.new (bytes "__TEXT") with
      chunks := [{ id := .machHeader, segname := bytes "__TEXT", sectname := [] },text 0 "__TEXT"] },
    { Segment.new (bytes "__CODE") with chunks := [text 1 "__CODE"] },
    Segment.new linkeditName]

def codeImage : Image where
  segments := ((layOutSegments pinnedCode codeSegments).toOption.map Prod.fst).getD []
  outputSections := [{ members := [0] },{ members := [1] }]
  isecs := [{ file := 0, size := 16 },{ file := 0, size := 16 }]
  offsets := fun _ => 0
  outputSection := fun id => if id < 2 then some id else none
  symbols := [{ file := some (.obj 0), inputSection := some 1, value := 8 }]

theorem code_image_code {i : ℕ} {hdr : Chunk} (h : codeImage.code i = some hdr) : hdr.size = 16 ∧
    ∃ seg ∈ codeImage.segments.dropLast, Sectioned seg ∧ hdr ∈ seg.chunks := by
  have hall : ∀ hdr ∈ codeImage.segments.flatMap fun seg => seg.chunks, isCode hdr = true →
      hdr.size = 16 ∧ ∃ seg ∈ codeImage.segments.dropLast, Sectioned seg ∧ hdr ∈ seg.chunks := by
    decide +kernel
  obtain ⟨hfind,hcode⟩ := Option.filter_eq_some_iff.1 h
  exact hall hdr (List.mem_of_find?_eq_some hfind) hcode

theorem code_image_placed : Placed Thunks.arm64 pinnedCode codeSegments codeImage where
  args := ⟨⟨12,rfl⟩,by decide⟩
  laid := ⟨_,rfl⟩
  fits := by decide +kernel
  header := ⟨_,List.mem_cons_self,by decide +kernel,_,List.mem_cons_self,rfl,by decide +kernel⟩
  code := fun _ _ hcode => (code_image_code hcode).2
  members := by
    intro i osec hdr hosec _ id hid
    match i, hosec with
    | 0, rfl => rw [List.mem_singleton.1 hid]; rfl
    | 1, rfl => rw [List.mem_singleton.1 hid]; rfl
  subsections := by
    intro i hdr id isec hcode _ hisec _
    rw [(code_image_code hcode).1]
    match id, hisec with
    | 0, rfl => exact le_rfl
    | 1, rfl => exact le_rfl
  thunks := by
    intro i osec hdr hosec _ thunk hthunk
    match i, hosec with
    | 0, rfl => cases hthunk
    | 1, rfl => cases hthunk
  resolves := by
    intro sym hsym i hi
    rw [List.mem_singleton.1 hsym] at hi
    obtain rfl := Option.some.inj hi
    rfl

theorem read_construct_pinned : ∃ addrs,
    readStarts codeImage.headerAddr (construct Thunks.arm64 codeImage) = some addrs ∧
      addrs.Pairwise (· < ·) ∧ ∀ addr, addr ∈ addrs ↔ IsStart Thunks.arm64 codeImage addr :=
  read_construct code_image_placed rfl

end MoldMacho.FunctionStarts
