import Mathlib.Data.List.Pairwise
import MoldMacho.Chunks.ChainedFixupsWalk

/-!
# The image dyld fixes up

The starts table and the words, written one after the other, put every
fixup on the chain of its page.
-/

set_option autoImplicit false

namespace MoldMacho.ChainedFixups
open MoldMacho.Segments MoldMacho.Opcodes MoldMacho.Bytes MoldMacho.Lists

/-! The words written. -/

/-- Where the word of an address of `seg` lies in the file. -/
def fileSlot (seg : OutputSegment) (addr : ℕ) : ℕ := seg.fileoff+(addr-seg.vmaddr)

/-- What the pointer at `addr` holds before the fixups are written. -/
def held (img : Image) (buf : List UInt8) (addr : ℕ) : ℕ := (loadWord img buf addr).getD 0

/-- The value a fixup stands for. -/
def Fixup.value (img : Image) (buf : List UInt8) (f : Fixup) : Value :=
  f.sym.elim (.rebase (held img buf f.addr)) fun sym => .bind sym f.addend

/-- A layout the chains can be written in: segments apart in memory and
file, fixups apart in the file part of segments that have a load command,
and rebase targets that fit. -/
structure Chainable (img : Image) (fixups : List Fixup) (buf : List UInt8) : Prop where
  plain : img.fixupChainsSection = false
  page : chainPageSize img = 0x1000 ∨ chainPageSize img = 0x4000
  base : img.base < 2^64
  ends : ∀ seg ∈ img.segments, seg.vmaddr+seg.vmsize < 2^64
  files : ∀ seg ∈ img.segments, seg.filesize ≤ seg.vmsize ∧ seg.fileoff+seg.filesize ≤ buf.length
  apart : img.segments.Pairwise fun a b =>
    (a.vmaddr+a.vmsize ≤ b.vmaddr ∨ b.vmaddr+b.vmsize ≤ a.vmaddr) ∧
      (a.fileoff+a.filesize ≤ b.fileoff ∨ b.fileoff+b.filesize ≤ a.fileoff)
  commands : ∀ seg ∈ img.segments.drop (segCount img), segmentFixups fixups seg = []
  spaced : Spaced fixups
  aligned : ∀ f ∈ fixups, f.addr%4 = 0
  inside : ∀ f ∈ fixups, ∃ seg ∈ img.segments,
    seg.vmaddr ≤ f.addr ∧ f.addr+8 ≤ seg.vmaddr+seg.filesize
  pages : ∀ seg ∈ img.segments, numPages img seg (segmentFixups fixups seg) ≤ 65535
  imports : (importTable fixups).length ≤ 2^24
  targets : ∀ f ∈ fixups, f.sym = none →
    ∃ word, rebaseWord (targetBase img) (held img buf f.addr) = some word

section Words
variable {img : Image} {fixups : List Fixup} {buf : List UInt8}

/-- Two segments that share an address are one. -/
theorem Chainable.unique (h : Chainable img fixups buf) {a b : OutputSegment}
    (ha : a ∈ img.segments) (hb : b ∈ img.segments) (addr : ℕ)
    (hca : a.vmaddr ≤ addr ∧ addr < a.vmaddr+a.vmsize)
    (hcb : b.vmaddr ≤ addr ∧ addr < b.vmaddr+b.vmsize) : a = b := by
  by_contra hne
  have hsym : Std.Symm fun a b : OutputSegment =>
      a.vmaddr+a.vmsize ≤ b.vmaddr ∨ b.vmaddr+b.vmsize ≤ a.vmaddr := ⟨fun _ _ => Or.symm⟩
  have hp : img.segments.Pairwise fun a b : OutputSegment =>
      a.vmaddr+a.vmsize ≤ b.vmaddr ∨ b.vmaddr+b.vmsize ≤ a.vmaddr := h.apart.imp And.left
  have := hp.forall ha hb hne
  omega

theorem Chainable.mem_segment (h : Chainable img fixups buf) {seg : OutputSegment}
    (hseg : seg ∈ img.segments) {f : Fixup} (hf : f ∈ segmentFixups fixups seg) :
    f ∈ fixups ∧ seg.vmaddr ≤ f.addr ∧ f.addr+8 ≤ seg.vmaddr+seg.filesize := by
  obtain ⟨hmem,hlo,hhi⟩ := (mem_segment_fixups h.spaced seg f).1 hf
  obtain ⟨s,hs,hslo,hshi⟩ := h.inside f hmem
  have hsize := (h.files s hs).1
  obtain rfl := h.unique hs hseg f.addr (by omega) (by omega)
  exact ⟨hmem,hslo,hshi⟩

theorem Chainable.load_word (h : Chainable img fixups buf) {seg : OutputSegment}
    (hseg : seg ∈ img.segments) {addr : ℕ} (hlo : seg.vmaddr ≤ addr)
    (hhi : addr+8 ≤ seg.vmaddr+seg.filesize) (out : List UInt8) :
    loadWord img out addr = readLe 8 out (fileSlot seg addr) := by
  have hsome : (img.segments.find? fun seg =>
      seg.vmaddr ≤ addr ∧ addr+8 ≤ seg.vmaddr+seg.filesize) = some seg := by
    cases hf : img.segments.find? (fun seg =>
        seg.vmaddr ≤ addr ∧ addr+8 ≤ seg.vmaddr+seg.filesize) with
    | none =>
      have := List.find?_eq_none.1 hf seg hseg
      simp [hlo, hhi] at this
    | some s =>
      have hs := List.mem_of_find?_eq_some hf
      have hp := List.find?_some hf
      simp only [decide_eq_true_eq] at hp
      have hssize := (h.files s hs).1
      have hsize := (h.files seg hseg).1
      rw [h.unique hs hseg addr (by omega) (by omega)]
  rw [loadWord, hsome]
  rfl

theorem mem_segment_patches {imports : List (ℕ × ℕ)} {seg : OutputSegment} {fx : List Fixup}
    {p : Patch} :
    p ∈ segmentPatches img imports seg fx ↔ ∃ f rest, (f::rest) <:+ fx ∧
      p = ⟨fileSlot seg f.addr, fixupWord img imports f (linkNext img seg f.addr rest)⟩ := by
  induction fx with
  | nil => simp [segmentPatches]
  | cons g fx ih =>
    rw [segmentPatches, List.mem_cons, ih]
    constructor
    · intro h
      rcases h with rfl | ⟨f,rest,hsuf,rfl⟩
      · exact ⟨g,fx,List.suffix_rfl,rfl⟩
      · exact ⟨f,rest,hsuf.trans (List.suffix_cons g fx),rfl⟩
    · intro h
      obtain ⟨f,rest,hsuf,rfl⟩ := h
      rcases List.suffix_cons_iff.1 hsuf with he | hsuf
      · rw [List.cons.injEq] at he
        left
        rw [he.1, he.2, fileSlot]
      · exact .inr ⟨f,rest,hsuf,rfl⟩

theorem segment_patches_apart {imports : List (ℕ × ℕ)} {seg : OutputSegment} {fx : List Fixup}
    (hs : Spaced fx) (hlo : ∀ f ∈ fx, seg.vmaddr ≤ f.addr) :
    (segmentPatches img imports seg fx).Pairwise fun p q => p.Apart q.off 8 := by
  induction fx with
  | nil => exact .nil
  | cons f fx ih =>
    obtain ⟨hf,hs⟩ := List.pairwise_cons.1 hs
    apply List.pairwise_cons.2
    constructor
    · intro p hp
      obtain ⟨g,rest,hsuf,rfl⟩ := mem_segment_patches.1 hp
      have hg : g ∈ fx := hsuf.subset (by simp)
      have := hf g hg
      have := hlo f (by simp)
      simp only [Patch.Apart, fileSlot]
      omega
    · exact ih hs fun g hg => hlo g (by simp [hg])

/-- The words written link the fixups of every segment. -/
theorem words_linked (h : Chainable img fixups buf) :
    ∃ out, writeFixupChains img fixups buf = some out ∧
      ∀ seg ∈ img.segments, Linked img (importTable fixups) out seg (Fixup.value img buf)
        (segmentFixups fixups seg) := by
  have hslot : ∀ seg ∈ img.segments, ∀ f ∈ segmentFixups fixups seg,
      seg.fileoff ≤ fileSlot seg f.addr ∧ fileSlot seg f.addr+8 ≤ seg.fileoff+seg.filesize := by
    intro seg hseg f hf
    obtain ⟨_,hlo,hhi⟩ := h.mem_segment hseg hf
    simp only [fileSlot]
    omega
  have hval : ∀ seg ∈ img.segments, ∀ f ∈ segmentFixups fixups seg, ∀ val,
      readLe 8 buf (fileSlot seg f.addr) = some val → val = held img buf f.addr := by
    intro seg hseg f hf val hv
    obtain ⟨_,hlo,hhi⟩ := h.mem_segment hseg hf
    rw [held, h.load_word hseg hlo hhi, hv]
    rfl
  have hword : ∀ f ∈ fixups, ∀ next,
      ∃ word, fixupWord img (importTable fixups) f next (held img buf f.addr) = some word := by
    intro f hf next
    rw [fixupWord, if_neg (by simp [h.aligned f hf])]
    cases hs : f.sym with
    | none =>
      obtain ⟨word,hw⟩ := h.targets f hf hs
      simp [Fixup.imported, hs, hw]
    | some sym => simp [Fixup.imported, hs]
  obtain ⟨out,hout,hlen,hread,_⟩ := patches_apply (img.segments.flatMap fun seg =>
      segmentPatches img (importTable fixups) seg (segmentFixups fixups seg)) buf
    (by
      rw [List.pairwise_flatMap]
      constructor
      · intro seg hseg
        exact segment_patches_apart (segment_fixups_spaced h.spaced seg)
          fun f hf => (h.mem_segment hseg hf).2.1
      · apply h.apart.imp_of_mem
        intro a b ha hb hab p hp q hq
        obtain ⟨f,_,hsf,rfl⟩ := mem_segment_patches.1 hp
        obtain ⟨g,_,hsg,rfl⟩ := mem_segment_patches.1 hq
        have := hslot a ha f (hsf.subset (by simp))
        have := hslot b hb g (hsg.subset (by simp))
        simp only [Patch.Apart]
        omega)
    (by
      intro p hp
      obtain ⟨seg,hseg,hp⟩ := List.mem_flatMap.1 hp
      obtain ⟨f,_,hsf,rfl⟩ := mem_segment_patches.1 hp
      have := hslot seg hseg f (hsf.subset (by simp))
      have := (h.files seg hseg).2
      simp only
      omega)
    (by
      intro p hp val hv
      obtain ⟨seg,hseg,hp⟩ := List.mem_flatMap.1 hp
      obtain ⟨f,rest,hsf,rfl⟩ := mem_segment_patches.1 hp
      have hf := hsf.subset (by simp : f ∈ f::rest)
      rw [hval seg hseg f hf val hv]
      exact hword f (h.mem_segment hseg hf).1 _)
  refine ⟨out,hout,?_⟩
  intro seg hseg f rest hsuf
  have hf := hsuf.subset (by simp : f ∈ f::rest)
  obtain ⟨hmem,hlo,hhi⟩ := h.mem_segment hseg hf
  obtain ⟨val,hv⟩ := read_le_some 8 (fileSlot seg f.addr) buf (by
    have := hslot seg hseg f hf
    have := (h.files seg hseg).2
    omega)
  have hheld := hval seg hseg f hf val hv
  obtain ⟨word,hw⟩ := hword f hmem (linkNext img seg f.addr rest)
  have hpatch := hread ⟨fileSlot seg f.addr,
      fixupWord img (importTable fixups) f (linkNext img seg f.addr rest)⟩
    (List.mem_flatMap.2 ⟨seg,hseg,mem_segment_patches.2 ⟨f,rest,hsuf,rfl⟩⟩) val word hv
    (by rw [hheld]; exact hw)
  have hnext : linkNext img seg f.addr rest < 2^12 := by
    cases rest with
    | nil => simp [linkNext]
    | cons g rest =>
      rw [linkNext]
      split
      case isFalse => decide
      case isTrue hc =>
        -- two addresses of one page are less than a page apart
        have hpage := (chains_to_page h.plain h.page _ _).1 hc
        have hpos : 0 < chainPageSize img := by have := h.page; omega
        have hdf := Nat.div_add_mod (f.addr-seg.vmaddr) (chainPageSize img)
        have hdg := Nat.div_add_mod (g.addr-seg.vmaddr) (chainPageSize img)
        have hmg := Nat.mod_lt (g.addr-seg.vmaddr) hpos
        simp only [page] at hpage
        rw [hpage] at hdg
        have := h.page
        omega
  refine ⟨word % 2^64,?_,?_⟩
  · rw [h.load_word hseg hlo hhi]
    exact hpatch
  · rw [fixup_word hmem h.imports h.base (read_le_lt hv) hnext (hheld ▸ hw), Fixup.value, hheld]

end Words

/-! The starts written. -/

section Starts
variable {img : Image} {fixups : List Fixup} {startsOffset : ℕ}

/-- The place of a segment's entry in the table at the front. -/
def entrySlot (startsOffset i : ℕ) : ℕ := startsOffset+4+i*4

/-- The entry of a segment without fixups is 0; another's is the offset of
its record. -/
def Entry (img : Image) (fixups : List Fixup) (startsOffset count : ℕ) (buf : List UInt8)
    (e : OutputSegment × ℕ) : Prop :=
  if segmentFixups fixups e.1 = [] then readLe 4 buf (entrySlot startsOffset e.2) = some 0
  else ∃ off, 4+count*4 ≤ off ∧ readLe 4 buf (entrySlot startsOffset e.2) = some (off % 256^4) ∧
    bytesAt buf (startsOffset+off) (startsRecord img e.1 (segmentFixups fixups e.1)).length =
      some (startsRecord img e.1 (segmentFixups fixups e.1))

/-- The bytes at an offset are in no entry of the table. -/
def Clear (startsOffset count : ℕ) (es : List (OutputSegment × ℕ)) (off n : ℕ) : Prop :=
  ∀ e ∈ es, e.2 < count → off+n ≤ entrySlot startsOffset e.2 ∨ entrySlot startsOffset e.2+4 ≤ off

theorem pad8_length (buf : List UInt8) : buf.length ≤ (pad8 buf).length := by simp [pad8]

/-- One segment's turn fills its entry and touches no other byte. -/
theorem write_segment (hpage : chainPageSize img = 0x1000 ∨ chainPageSize img = 0x4000)
    {buf : List UInt8} {e : OutputSegment × ℕ} {count : ℕ}
    (hcount : segmentFixups fixups e.1 ≠ [] → e.2 < count)
    (hlen : startsOffset+4+count*4 ≤ buf.length)
    (hzero : e.2 < count → readLe 4 buf (entrySlot startsOffset e.2) = some 0) :
    ∃ out, writeSegment img fixups startsOffset buf e = some out ∧ buf.length ≤ out.length ∧
      (∀ off n bytes, Clear startsOffset count [e] off n → bytesAt buf off n = some bytes →
        bytesAt out off n = some bytes) ∧
      (e.2 < count → Entry img fixups startsOffset count out e) := by
  by_cases hfx : segmentFixups fixups e.1 = []
  · refine ⟨buf,?_,le_refl _,fun _ _ _ _ h => h,?_⟩
    · simp [writeSegment, hfx]
    · intro he
      rw [Entry, if_pos hfx]
      exact hzero he
  · have he := hcount hfx
    have hpad := pad8_length buf
    have hin : entrySlot startsOffset e.2+4 ≤ (pad8 buf).length := by
      simp only [entrySlot]
      omega
    have hwlen : (writeAt (pad8 buf) (entrySlot startsOffset e.2)
        (toLe 4 ((pad8 buf).length-startsOffset))).length = (pad8 buf).length :=
      write_at_length (by simpa using hin)
    refine ⟨writeAt (pad8 buf) (entrySlot startsOffset e.2)
        (toLe 4 ((pad8 buf).length-startsOffset)) ++
      startsRecord img e.1 (segmentFixups fixups e.1),?_,?_,?_,?_⟩
    · rw [writeSegment, if_neg hfx, if_pos hpage]
      rfl
    · rw [List.length_append, hwlen]
      omega
    · intro off n bytes hclear hb
      apply bytes_at_append
      rw [bytes_at_write_apart (by simpa using hin)]
      · exact bytes_at_append hb _
      · simpa using hclear e (by simp) he
    · intro _
      rw [Entry, if_neg hfx]
      refine ⟨(pad8 buf).length-startsOffset,by omega,?_,?_⟩
      · have hread := read_le_write (v := (pad8 buf).length-startsOffset) hin
        rw [readLe, Option.map_eq_some_iff] at hread ⊢
        obtain ⟨bytes,hb,hv⟩ := hread
        exact ⟨bytes,bytes_at_append hb _,hv⟩
      · have hend := bytes_at_end (writeAt (pad8 buf) (entrySlot startsOffset e.2)
          (toLe 4 ((pad8 buf).length-startsOffset)))
          (startsRecord img e.1 (segmentFixups fixups e.1))
        rw [hwlen] at hend
        rw [Nat.add_sub_cancel' (by omega)]
        exact hend

/-- The loop fills every entry. -/
theorem write_segments (img : Image) (fixups : List Fixup) (startsOffset : ℕ)
    (hpage : chainPageSize img = 0x1000 ∨ chainPageSize img = 0x4000)
    (count : ℕ) (es : List (OutputSegment × ℕ)) (buf : List UInt8)
    (hnodup : (es.map Prod.snd).Nodup)
    (hcount : ∀ e ∈ es, segmentFixups fixups e.1 ≠ [] → e.2 < count)
    (hlen : startsOffset+4+count*4 ≤ buf.length)
    (hzero : ∀ e ∈ es, e.2 < count → readLe 4 buf (entrySlot startsOffset e.2) = some 0) :
    ∃ out, es.foldlM (writeSegment img fixups startsOffset) buf = some out ∧
      buf.length ≤ out.length ∧
      (∀ off n bytes, Clear startsOffset count es off n → bytesAt buf off n = some bytes →
        bytesAt out off n = some bytes) ∧
      ∀ e ∈ es, e.2 < count → Entry img fixups startsOffset count out e := by
  induction es generalizing buf with
  | nil => exact ⟨buf,rfl,le_refl _,fun _ _ _ _ h => h,by simp⟩
  | cons e es ih =>
    rw [List.map_cons, List.nodup_cons] at hnodup
    obtain ⟨mid,hmid,hle,hframe,hentry⟩ := write_segment hpage (hcount e (by simp)) hlen
      (hzero e (by simp))
    have hother : ∀ e' ∈ es, entrySlot startsOffset e.2+4 ≤ entrySlot startsOffset e'.2 ∨
        entrySlot startsOffset e'.2+4 ≤ entrySlot startsOffset e.2 := by
      intro e' he'
      have hne : e.2 ≠ e'.2 := fun h => hnodup.1 (h ▸ List.mem_map_of_mem he')
      simp only [entrySlot]
      omega
    obtain ⟨out,hout,hle',hframe',hentry'⟩ := ih mid hnodup.2
      (fun e' he' => hcount e' (by simp [he'])) (by omega) (by
        intro e' he' hlt
        have hz := hzero e' (by simp [he']) hlt
        rw [readLe, Option.map_eq_some_iff] at hz ⊢
        obtain ⟨bytes,hb,hv⟩ := hz
        refine ⟨bytes,hframe _ _ _ ?_ hb,hv⟩
        intro d hd _
        have := hother e' he'
        rw [List.mem_singleton.1 hd]
        omega)
    refine ⟨out,?_,hle.trans hle',?_,?_⟩
    · rw [List.foldlM_cons, hmid]
      exact hout
    · intro off n bytes hclear hb
      apply hframe' off n bytes (fun d hd => hclear d (by simp [hd]))
      exact hframe off n bytes (fun d hd => hclear d (by simp_all)) hb
    · intro d hd hlt
      cases List.mem_cons.1 hd with
      | inr hm => exact hentry' d hm hlt
      | inl heq =>
        subst heq
        have hd := hentry hlt
        unfold Entry at hd ⊢
        have hkeep : ∀ v, readLe 4 mid (entrySlot startsOffset d.2) = some v →
            readLe 4 out (entrySlot startsOffset d.2) = some v := by
          intro v hv
          rw [readLe, Option.map_eq_some_iff] at hv ⊢
          obtain ⟨bytes,hb,hv⟩ := hv
          exact ⟨bytes,hframe' _ _ _ (fun e' he' _ => hother e' he') hb,hv⟩
        by_cases hfx : segmentFixups fixups d.1 = []
        · rw [if_pos hfx] at hd ⊢
          exact hkeep 0 hd
        · rw [if_neg hfx] at hd ⊢
          obtain ⟨off,hoff,hread,hrec⟩ := hd
          refine ⟨off,hoff,hkeep _ hread,hframe' _ _ _ ?_ hrec⟩
          intro e' _ he'
          right
          simp only [entrySlot]
          omega

theorem page_starts_length (vmaddr pageSize n i : ℕ) (fx : List Fixup) :
    (pageStarts vmaddr pageSize n i fx).length = n := by
  induction n generalizing i fx with
  | zero => rfl
  | succ n ih => rw [pageStarts, List.length_cons, ih]

theorem page_starts_lt {vmaddr pageSize : ℕ} (hpage : pageSize ≤ 0x4000) (n i : ℕ)
    (fx : List Fixup) : ∀ s ∈ pageStarts vmaddr pageSize n i fx, s < 2^16 := by
  induction n generalizing i fx with
  | zero => simp [pageStarts]
  | succ n ih =>
    intro s hs
    rw [pageStarts, List.mem_cons] at hs
    cases hs with
    | inr hs => exact ih _ _ s hs
    | inl hs =>
      subst hs
      split
      · decide
      · split
        · omega
        · decide

/-- A segment's record reads back. -/
theorem read_record {payload : List UInt8} {record : ℕ} {seg : OutputSegment} {fx : List Fixup}
    (hpage : chainPageSize img = 0x1000 ∨ chainPageSize img = 0x4000)
    (hcount : numPages img seg fx ≤ 65535)
    (h : bytesAt payload record (startsRecord img seg fx).length = some (startsRecord img seg fx)) :
    readLe 2 payload (record+4) = some (chainPageSize img) ∧
      readLe 8 payload (record+8) = some (wrappingSub seg.vmaddr img.base) ∧
      readLe 2 payload (record+20) = some (numPages img seg fx) ∧
      (List.range (numPages img seg fx)).mapM (fun j => readLe 2 payload (record+22+j*2)) =
        some (pageStarts seg.vmaddr (chainPageSize img) (numPages img seg fx) 0 fx) := by
  obtain ⟨hoff,hdrop⟩ := bytes_at_drop h
  generalize payload.drop (record+(startsRecord img seg fx).length) = tail at hdrop
  simp only [startsRecord, List.append_assoc] at hdrop
  obtain ⟨_,hoff,hdrop⟩ := read_field hoff hdrop
  obtain ⟨hpageSize,hoff,hdrop⟩ := read_field hoff hdrop
  obtain ⟨_,hoff,hdrop⟩ := read_field hoff hdrop
  obtain ⟨hsegment,hoff,hdrop⟩ := read_field hoff hdrop
  obtain ⟨_,hoff,hdrop⟩ := read_field hoff hdrop
  obtain ⟨hpages,hoff,hdrop⟩ := read_field hoff hdrop
  have hstarts := read_le_run 2 _ hoff hdrop
  rw [page_starts_length] at hstarts
  have hsame : (pageStarts seg.vmaddr (chainPageSize img) (numPages img seg fx) 0 fx).map
      (· % 256^2) = pageStarts seg.vmaddr (chainPageSize img) (numPages img seg fx) 0 fx := by
    conv_rhs => rw [← List.map_id (pageStarts _ _ _ _ _)]
    apply List.map_congr_left
    intro s hs
    exact Nat.mod_eq_of_lt (page_starts_lt (by omega) _ _ _ s hs)
  refine ⟨?_,?_,?_,?_⟩
  · rw [hpageSize, Nat.mod_eq_of_lt (by omega)]
  · have := wrapping_sub_lt seg.vmaddr img.base
    rw [hsegment, Nat.mod_eq_of_lt (by omega)]
  · rw [hpages, Nat.mod_eq_of_lt (by omega)]
  · rw [hstarts, hsame]

end Starts

/-! The walk over the image. -/

section Image
variable {img : Image} {fixups : List Fixup} {buf out payload : List UInt8}

/-- What the walk finds in a segment. -/
def visits (img : Image) (fixups : List Fixup) (buf : List UInt8) (seg : OutputSegment) :
    List (ℕ × Value) :=
  (segmentFixups fixups seg).map fun f => (f.addr, f.value img buf)

theorem walk_segment (h : Chainable img fixups buf) {startsOffset count : ℕ}
    {e : OutputSegment × ℕ} (hseg : e.1 ∈ img.segments)
    (hl : Linked img (importTable fixups) out e.1 (Fixup.value img buf)
      (segmentFixups fixups e.1))
    (hentry : Entry img fixups startsOffset count payload e) (hsize : payload.length < 2^32)
    {fuel : ℕ} (hfuel : fixups.length < fuel) :
    walkSegment img (importTable fixups) out fuel payload startsOffset e.2 =
      some (visits img fixups buf e.1) := by
  unfold Entry at hentry
  by_cases hfx : segmentFixups fixups e.1 = []
  · rw [if_pos hfx] at hentry
    rw [walkSegment, ← entrySlot, hentry]
    simp [visits, hfx]
  · rw [if_neg hfx] at hentry
    obtain ⟨off,hoff,hread,hrec⟩ := hentry
    have hle := (bytes_at_some hrec).1
    have hmod : off % 256^4 = off := Nat.mod_eq_of_lt (by omega)
    obtain ⟨hps,hso,hpc,hst⟩ := read_record h.page (h.pages e.1 hseg) hrec
    have hbase : (img.base+wrappingSub e.1.vmaddr img.base) % 2^64 = e.1.vmaddr := by
      have := h.ends e.1 hseg
      have := h.base
      simp only [wrappingSub]
      omega
    have hlen : (segmentFixups fixups e.1).length < fuel := by
      have : (segmentFixups fixups e.1).Sublist fixups :=
        (List.drop_sublist _ _).trans (List.take_sublist _ _)
      exact Nat.lt_of_le_of_lt this.length_le hfuel
    have hwalk := walk_segment_pages h.plain h.page hl (segment_fixups_spaced h.spaced e.1)
      (fun g hg => h.aligned g (h.mem_segment hseg hg).1)
      (fun g hg => (h.mem_segment hseg hg).2.1) hlen
    rw [walkSegment, ← entrySlot, hread, hmod]
    simp only [Option.bind_eq_bind, Option.bind_some, hps, hso, hpc, hst, hbase, hwalk, visits]
    rw [if_neg (by omega)]

theorem visits_perm (h : Chainable img fixups buf) :
    (img.segments.flatMap (segmentFixups fixups)).Perm fixups := by
  have hnodup : ∀ l : List Fixup, Spaced l → l.Nodup := by
    intro l hl
    apply hl.imp
    intro f g hfg he
    rw [he] at hfg
    omega
  rw [List.perm_ext_iff_of_nodup _ (hnodup _ h.spaced)]
  · intro f
    rw [List.mem_flatMap]
    constructor
    · intro hf
      obtain ⟨seg,hseg,hf⟩ := hf
      exact (h.mem_segment hseg hf).1
    · intro hf
      obtain ⟨seg,hseg,hlo,hhi⟩ := h.inside f hf
      have := (h.files seg hseg).1
      exact ⟨seg,hseg,(mem_segment_fixups h.spaced seg f).2 ⟨hf,hlo,by omega⟩⟩
  · rw [List.nodup_flatMap]
    constructor
    · intro seg _
      exact hnodup _ (segment_fixups_spaced h.spaced seg)
    · apply h.apart.imp
      intro a b hab f hfa hfb
      have ha := ((mem_segment_fixups h.spaced a f).1 hfa).2
      have hb := ((mem_segment_fixups h.spaced b f).1 hfb).2
      omega

/-- The starts table of a chainable image leads to the chains of every
segment. -/
theorem starts_entries (h : Chainable img fixups buf) (front : List UInt8) :
    ∃ payload, writeStartsInImage img fixups front = some payload ∧
      readLe 4 payload front.length = some (segCount img % 256^4) ∧
      front.length+4+segCount img*4 ≤ payload.length ∧
      ∀ e ∈ img.segments.zipIdx, e.2 < segCount img →
        Entry img fixups front.length (segCount img) payload e := by
  have hlen : (front ++ toLe 4 (segCount img) ++ List.replicate (segCount img*4) (0 : UInt8)).length =
      front.length+4+segCount img*4 := by simp [Nat.add_assoc]
  obtain ⟨payload,hp,hle,hframe,hentry⟩ := write_segments img fixups
    front.length h.page (segCount img) img.segments.zipIdx
    (front ++ toLe 4 (segCount img) ++ List.replicate (segCount img*4) 0)
    (by
      rw [List.zipIdx_map_snd]
      exact List.nodup_range')
    (by
      intro e he hfx
      by_contra hge
      apply hfx
      apply h.commands
      rw [List.mem_zipIdx_iff_getElem?] at he
      apply List.mem_of_getElem? (i := e.2-segCount img)
      rw [List.getElem?_drop, Nat.add_sub_cancel' (by omega)]
      exact he)
    hlen.ge
    (by
      intro e _ hlt
      have hz : (front ++ toLe 4 (segCount img) ++
          List.replicate (segCount img*4) (0 : UInt8)).drop (entrySlot front.length e.2) =
          toLe 4 0 ++ List.replicate ((segCount img-e.2-1)*4) 0 := by
        have hsplit : segCount img*4 = e.2*4+(4+(segCount img-e.2-1)*4) := by omega
        rw [hsplit, List.replicate_add, List.replicate_add, entrySlot, ← List.append_assoc,
          List.drop_left' (by simp [Nat.add_assoc])]
        rfl
      have hslot : entrySlot front.length e.2 ≤ front.length+4+segCount img*4 := by
        simp only [entrySlot]
        omega
      exact (read_field (hlen.symm ▸ hslot) hz).1)
  refine ⟨payload,hp,?_,hlen ▸ hle,hentry⟩
  have hdrop : (front ++ toLe 4 (segCount img) ++
      List.replicate (segCount img*4) (0 : UInt8)).drop front.length =
      toLe 4 (segCount img) ++ List.replicate (segCount img*4) 0 := by
    rw [List.append_assoc, List.drop_left]
  have hcount := (read_field (by simp) hdrop).1
  rw [readLe, Option.map_eq_some_iff] at hcount
  obtain ⟨bytes,hb,hv⟩ := hcount
  rw [readLe, hframe _ _ bytes (by
    intro e _ _
    left
    simp only [entrySlot]
    omega) hb, Option.map_some, hv]

/-- dyld finds every fixup of every segment once, in order, and nothing
else, each with its value. -/
theorem chained_fixups_walk (h : Chainable img fixups buf) (front : List UInt8)
    (hsize : ∀ p ∈ writeStartsInImage img fixups front, p.length < 2^32) :
    ∃ payload out, writeStartsInImage img fixups front = some payload ∧
      writeFixupChains img fixups buf = some out ∧
      (∀ fuel, fixups.length < fuel →
        walkImage img (importTable fixups) out fuel payload front.length =
          some ((img.segments.flatMap (segmentFixups fixups)).map
            fun f => (f.addr, f.value img buf))) ∧
      (img.segments.flatMap (segmentFixups fixups)).Perm fixups := by
  obtain ⟨out,hout,hl⟩ := words_linked h
  obtain ⟨payload,hp,hcount,hlen,hentry⟩ := starts_entries h front
  have hsmall := hsize payload hp
  refine ⟨payload,out,hp,hout,?_,visits_perm h⟩
  intro fuel hfuel
  have hmod : segCount img % 256^4 = segCount img := Nat.mod_eq_of_lt (by omega)
  have hchains : (List.range (segCount img)).mapM
      (walkSegment img (importTable fixups) out fuel payload front.length) =
      some ((List.range (segCount img)).map fun i =>
        (img.segments[i]?.elim [] (visits img fixups buf))) := by
    apply mapM_some
    intro i hi
    have hlt : i < img.segments.length := by
      have := List.mem_range.1 hi
      simp only [segCount] at this
      omega
    have hmem : (img.segments[i], i) ∈ img.segments.zipIdx := by
      rw [List.mem_zipIdx_iff_getElem?]
      exact List.getElem?_eq_getElem hlt
    have hseg : img.segments[i] ∈ img.segments := List.getElem_mem hlt
    have := walk_segment h (e := (img.segments[i], i)) hseg (hl _ hseg)
      (hentry _ hmem (List.mem_range.1 hi)) hsmall hfuel
    rw [this, List.getElem?_eq_getElem hlt]
    rfl
  have hrange : ((List.range (segCount img)).map fun i =>
      (img.segments[i]?.elim [] (visits img fixups buf))) =
      (img.segments.take (segCount img)).map (visits img fixups buf) := by
    apply List.ext_getElem
    · simp only [segCount, List.length_map, List.length_range, List.length_take]
      omega
    · intro i hi _
      have hlt : i < img.segments.length := by
        simp only [segCount, List.length_map, List.length_range] at hi
        omega
      simp [hlt]
  have hrest : (img.segments.drop (segCount img)).flatMap (segmentFixups fixups) = [] := by
    rw [List.flatMap_eq_nil_iff]
    exact h.commands
  have hall : img.segments.flatMap (segmentFixups fixups) =
      (img.segments.take (segCount img)).flatMap (segmentFixups fixups) := by
    conv_lhs => rw [← List.take_append_drop (segCount img) img.segments, List.flatMap_append, hrest,
      List.append_nil]
  rw [walkImage, hcount, hmod]
  simp only [Option.bind_eq_bind, Option.bind_some, hchains, hrange, hall]
  rw [List.map_flatMap]
  rfl

end Image

/-- A segment of three words: a rebase, a bind with a table addend and one
with an inline addend. -/
def small : Image where
  segments := [⟨[], 0x1000, 0x1000, 0, 24⟩]
  base := 0x1000
  segmentAlign := 0x4000

theorem chained_fixups_walk_small :
    let fixups : List Fixup := [⟨0x1000, none, 0⟩, ⟨0x1008, some 7, 300⟩, ⟨0x1010, some 7, 3⟩]
    ∃ payload out, writeStartsInImage small fixups [] = some payload ∧
      writeFixupChains small fixups (toLe 8 0x1010 ++ List.replicate 16 0) = some out ∧
      walkImage small (importTable fixups) out 4 payload 0 =
        some [(0x1000, .rebase 0x1010), (0x1008, .bind 7 300), (0x1010, .bind 7 3)] := by
  intro fixups
  have h : Chainable small fixups (toLe 8 0x1010 ++ List.replicate 16 0) := {
    plain := rfl
    page := .inr rfl
    base := by decide
    ends := by decide
    files := by decide
    apart := by simp [small]
    commands := by decide
    spaced := by simp [Spaced, fixups]
    aligned := by decide
    inside := by decide
    pages := by decide
    imports := by decide
    targets := by
      have : ∃ word, rebaseWord (targetBase small)
          (held small (toLe 8 0x1010 ++ List.replicate 16 0) 0x1000) = some word :=
        ⟨0x10,by decide⟩
      simpa [fixups] using this
  }
  obtain ⟨payload,out,hp,hout,hwalk,_⟩ := chained_fixups_walk h [] (by decide)
  exact ⟨payload,out,hp,hout,hwalk 4 (by decide)⟩

/-- Two binds four bytes apart share bytes: the second word takes the first
one's link and its bind bit with it. -/
theorem chained_fixups_walk_overlap :
    ∃ payload out,
      writeStartsInImage small [⟨0x1000, some 7, 0⟩, ⟨0x1004, some 8, 0⟩] [] = some payload ∧
      writeFixupChains small [⟨0x1000, some 7, 0⟩, ⟨0x1004, some 8, 0⟩] (List.replicate 24 0) =
        some out ∧
      walkImage small [(7, 0), (8, 0)] out 3 payload 0 = some [(0x1000, .rebase 0x100001000)] := by
  refine ⟨_,_,rfl,rfl,?_⟩
  decide

end MoldMacho.ChainedFixups
