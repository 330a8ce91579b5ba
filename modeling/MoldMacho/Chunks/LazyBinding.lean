import MoldMacho.Arch.Stubs
import MoldMacho.Chunks.BindInfo

/-!
# Lazy binding

A stub bound lazily jumps through its lazy pointer, which starts at the stub's entry of
the stub helper. The entry hands dyld the offset of the stub's record in the lazy-bind
stream, and the record binds the pointer. This is classic dyld info; the entries of a
legacy linkedit, without a header before them, are left out.
-/

set_option autoImplicit false

namespace MoldMacho.LazyBinding

open Segments OpStream Opcodes BindInfo Bytes Pieces LengthRecords Stubs MoldMacho.Lists

/-- What is read of a link with dyld info: the symbols with a stub in the stubs' order, and
the addresses of the sections, of `__dyld_private` and of `dyld_stub_binder`. The stream has
four bits for a segment's index. -/
structure Context where
  layout : Layout
  few : layout.segs.length ≤ 16
  lazyBinding : Bool
  stubs : List ℕ
  bindsWeakLookup : ℕ → Bool
  isWeakRef : ℕ → Bool
  name : ℕ → List UInt8
  name_nul : ∀ id, 0 ∉ name id
  bindOrdinal : ℕ → ℤ
  ordinal_ge : ∀ id, -3 ≤ bindOrdinal id
  ordinal_lt : ∀ id, bindOrdinal id < 2^31
  gotAddr : ℕ → ℕ
  got_aligned : ∀ id, 8 ∣ gotAddr id
  got_lt : ∀ id, gotAddr id < 2^64
  stubsAddr : ℕ
  stubHelper : ℕ
  dyldPrivate : ℕ
  private_lt : dyldPrivate < 2^64
  stubBinder : ℕ
  lazyPtrs : ℕ
  ptrs_aligned : 8 ∣ lazyPtrs

variable (ctx : Context)

/-- The stubs bound lazily, in the stubs' order. -/
def finishStubs : List ℕ :=
  match ctx.lazyBinding with
  | true => (List.range ctx.stubs.length).filter fun i =>
      (ctx.stubs[i]?).any fun id => !ctx.bindsWeakLookup id
  | false => []

def slotAddr (i : ℕ) : ℕ := ctx.lazyPtrs+i*8

/-- The slot that the stub of a symbol jumps through. The stubs are in increasing order,
and the search returns the only place of the stub's index. -/
def stubPtrAddr (id i : ℕ) : Option ℕ :=
  if ctx.lazyBinding && !ctx.bindsWeakLookup id then
    ((finishStubs ctx).idxOf? i).map (slotAddr ctx)
  else some (ctx.gotAddr id)

def symbolFlags (id : ℕ) : ℕ := if ctx.isWeakRef id then 1 else 0

def slotOps (id seg off : ℕ) : List Op :=
  [.segOffset seg off, .dylib (ctx.bindOrdinal id), .symbol (ctx.name id) (symbolFlags ctx id),
    .bind]

def recordOps (i : ℕ) : Option (List Op) := do
  let id ← ctx.stubs[i]?
  let addr ← stubPtrAddr ctx id i
  let (seg,off) ← segmentAndOffset ctx.layout.segs addr
  some (slotOps ctx id seg off)

def recordBytes (ops : List Op) : List UInt8 := ops.flatMap encodeOp ++ [0]

def addRecord (st : List UInt8 × List ℕ) (i : ℕ) : Option (List UInt8 × List ℕ) := do
  let ops ← recordOps ctx i
  some (st.1 ++ recordBytes ops,st.2 ++ [st.1.length%2^32])

/-- The stream, and each record's offset in it. -/
def construct : Option (List UInt8 × List ℕ) :=
  if finishStubs ctx = [] then some ([],[])
  else do
    let (buf,offsets) ← (finishStubs ctx).foldlM (addRecord ctx) ([],[])
    some (buf ++ padding buf.length,offsets)

/-! ## The sections -/

/-- None where the source reports a pointer out of reach. -/
def writeStub (E : Target) (buf : List UInt8) (e : ℕ × ℕ) : Option (List UInt8) := do
  let ptr ← stubPtrAddr ctx e.1 e.2
  if E.reaches ptr (ctx.stubsAddr+e.2*E.stubSize) then
    put buf (e.2*E.stubSize) (E.stub (ctx.stubsAddr+e.2*E.stubSize) ptr)
  else none

def writeStubs (E : Target) (buf : List UInt8) : Option (List UInt8) :=
  ctx.stubs.zipIdx.foldlM (writeStub ctx E) buf

def writeStubHelper (E : Target) (lazyOffsets : List ℕ) (buf : List UInt8) :
    Option (List UInt8) := do
  let addr := ctx.stubHelper
  let buf ← put buf 0 (E.header addr ctx.dyldPrivate (ctx.gotAddr ctx.stubBinder))
  lazyOffsets.zipIdx.foldlM
    (fun buf e => put buf (E.entryOffset e.2) (E.entry addr (addr+E.entryOffset e.2) e.1)) buf

/-- Each lazy pointer starts at its stub helper entry. -/
def copyLazyPtrs (E : Target) (buf : List UInt8) : Option (List UInt8) :=
  (finishStubs ctx).zipIdx.foldlM
    (fun buf e => put buf (e.2*8) (toLe 8 (ctx.stubHelper+E.entryOffset e.2))) buf

/-! ## The lazy stubs -/

variable {ctx}

/-- The lazy stubs are those of symbols that dyld does not look up weakly. -/
theorem mem_lazy {i : ℕ} : i ∈ finishStubs ctx ↔ ∃ id, ctx.stubs[i]? = some id ∧
    (ctx.lazyBinding && !ctx.bindsWeakLookup id) = true := by
  unfold finishStubs
  cases ctx.lazyBinding with
  | false => simp
  | true =>
    simp only [List.mem_filter, List.mem_range, Option.any_eq_true, Bool.true_and]
    constructor
    · exact fun h => h.2
    · rintro ⟨id,hid,hweak⟩
      exact ⟨(List.getElem?_eq_some_iff.1 hid).1,id,hid,hweak⟩

/-- A lazy stub jumps through the lazy pointer of its place among the lazy ones. -/
theorem stub_ptr {i id : ℕ} (hid : ctx.stubs[i]? = some id)
    (hlazy : (ctx.lazyBinding && !ctx.bindsWeakLookup id) = true) :
    ∃ k, (finishStubs ctx)[k]? = some i ∧ stubPtrAddr ctx id i = some (slotAddr ctx k) := by
  have hmem : i ∈ finishStubs ctx := mem_lazy.2 ⟨id,hid,hlazy⟩
  obtain ⟨k,hk⟩ := Option.isSome_iff_exists.1 (List.isSome_idxOf?.2 hmem)
  obtain ⟨hlt,hget,-⟩ := List.idxOf?_eq_some_iff.1 hk
  refine ⟨k,?_,?_⟩
  · rw [List.getElem?_eq_getElem hlt, hget]
  · rw [stubPtrAddr, if_pos hlazy, hk, Option.map_some]

/-- The opcodes of a lazy stub's record. -/
theorem record_ops {i k id : ℕ} (hid : ctx.stubs[i]? = some id)
    (hptr : stubPtrAddr ctx id i = some (slotAddr ctx k))
    (hslot : ctx.layout.Slot (slotAddr ctx k)) :
    ∃ (seg : ℕ) (s : OutputSegment),
      recordOps ctx i = some (slotOps ctx id seg (slotAddr ctx k-s.vmaddr)) ∧
      ctx.layout.segs[seg]? = some s ∧ s.vmaddr ≤ slotAddr ctx k ∧
      slotAddr ctx k+8 ≤ s.vmaddr+s.vmsize := by
  obtain ⟨seg,s,hseg,hs,hin,hend⟩ := ctx.layout.slot_segment hslot
  refine ⟨seg,s,?_,hs,hin.1,hend⟩
  simp [recordOps, hid, hptr, hseg]

/-- Every record of the lazy stubs stands in the stream at its offset. -/
def Recorded (ctx : Context) (buf : List UInt8) (offsets : List ℕ) (l : List ℕ) : Prop :=
  offsets.length = l.length ∧ ∀ (k i : ℕ), l[k]? = some i → ∃ ops off, recordOps ctx i = some ops ∧
    offsets[k]? = some (off%2^32) ∧ Holds buf off (recordBytes ops)

theorem Recorded.append {buf : List UInt8} {offsets l : List ℕ} (h : Recorded ctx buf offsets l)
    (more : List UInt8) : Recorded ctx (buf ++ more) offsets l := by
  refine ⟨h.1,fun k i hk => ?_⟩
  obtain ⟨ops,off,hops,hoff,hbytes⟩ := h.2 k i hk
  refine ⟨ops,off,hops,hoff,?_⟩
  simpa using hbytes.inside [] more

theorem records_added {l : List ℕ} (hops : ∀ i ∈ l, ∃ ops, recordOps ctx i = some ops) :
    ∃ buf offsets, l.foldlM (addRecord ctx) ([],[]) = some (buf,offsets) ∧
      Recorded ctx buf offsets l := by
  induction l using List.reverseRecOn with
  | nil => exact ⟨[],[],rfl,rfl,nofun⟩
  | append_singleton l i ih =>
    obtain ⟨buf,offsets,hfold,hrec⟩ := ih fun j hj => hops j (List.mem_append_left _ hj)
    obtain ⟨ops,hi⟩ := hops i (by simp)
    refine ⟨buf ++ recordBytes ops,offsets ++ [buf.length%2^32],?_,?_,?_⟩
    · rw [List.foldlM_append, hfold]
      simp [addRecord, hi]
    · simp [hrec.1]
    · intro k j hk
      by_cases hlast : k = l.length
      · subst hlast
        obtain rfl : i = j := by simpa using hk
        refine ⟨ops,buf.length,hi,?_,?_⟩
        · rw [← hrec.1]
          simp
        · simpa using holds_mid buf (recordBytes ops) []
      · have hlt : k < l.length := by
          have := (List.getElem?_eq_some_iff.1 hk).1
          rw [List.length_append, List.length_singleton] at this
          omega
        rw [List.getElem?_append_left hlt] at hk
        obtain ⟨ops',off,hops',hoff,hbytes⟩ := (hrec.append (recordBytes ops)).2 k j hk
        refine ⟨ops',off,hops',?_,hbytes⟩
        rw [List.getElem?_append_left (by rw [hrec.1]; exact hlt)]
        exact hoff

/-- The lazy pointers lie in the image's segments. -/
def Placed (ctx : Context) : Prop :=
  ∀ k < (finishStubs ctx).length, ctx.layout.Slot (slotAddr ctx k)

instance (ctx : Context) : Decidable (Placed ctx) :=
  inferInstanceAs (Decidable (∀ k < _, _))

theorem construct_records (h : Placed ctx) : ∃ stream offsets,
    construct ctx = some (stream,offsets) ∧ Recorded ctx stream offsets (finishStubs ctx) := by
  have hops : ∀ i ∈ finishStubs ctx, ∃ ops, recordOps ctx i = some ops := by
    intro i hi
    obtain ⟨id,hid,hlazy⟩ := mem_lazy.1 hi
    obtain ⟨k,hk,hptr⟩ := stub_ptr hid hlazy
    obtain ⟨seg,s,hrec,-⟩ := record_ops hid hptr (h k (List.getElem?_eq_some_iff.1 hk).1)
    exact ⟨_,hrec⟩
  obtain ⟨buf,offsets,hfold,hrec⟩ := records_added hops
  by_cases hnone : finishStubs ctx = []
  · refine ⟨[],[],if_pos hnone,?_⟩
    rw [hnone]
    exact ⟨rfl,nofun⟩
  · refine ⟨buf ++ padding buf.length,offsets,?_,hrec.append _⟩
    rw [construct, if_neg hnone, hfold]
    rfl

/-- The bind of a slot to a symbol. -/
def slotBound (ctx : Context) (id addr : ℕ) : Bound :=
  ⟨addr,some (ctx.bindOrdinal id),ctx.name id,symbolFlags ctx id,0⟩

section Record

variable (id : ℕ) {seg addr : ℕ} {s : OutputSegment} (hs : ctx.layout.segs[seg]? = some s)
  (hle : s.vmaddr ≤ addr) (hend : addr+8 ≤ s.vmaddr+s.vmsize)
include hs hend

theorem slot_ops_valid : ∀ o ∈ slotOps ctx id seg (addr-s.vmaddr), Valid o := by
  have hlt : seg < ctx.layout.segs.length := (List.getElem?_eq_some_iff.1 hs).1
  have hfew := ctx.few
  have hends := ctx.layout.ends s (List.mem_of_getElem? hs)
  have hge := ctx.ordinal_ge id
  have hflags : symbolFlags ctx id < 16 := by
    unfold symbolFlags
    split <;> decide
  simp only [slotOps, List.mem_cons, List.not_mem_nil, or_false, forall_eq_or_imp, forall_eq, Valid]
  exact ⟨⟨by omega,by omega⟩,⟨by omega,ctx.ordinal_lt id⟩,⟨ctx.name_nul id,hflags⟩,trivial⟩

include hle

theorem slot_ops_run : ∃ m, execOps (step ctx.layout.segs) (slotOps ctx id seg (addr-s.vmaddr))
      { pointer := true } = some m ∧ m.bound = [slotBound ctx id addr] := by
  let m : Machine :=
    { ordinal := some (ctx.bindOrdinal id)
      symbol := some (ctx.name id,symbolFlags ctx id)
      pointer := true
      segment := some seg
      offset := addr-s.vmaddr }
  have hbind := do_bind ctx.layout.segs m s seg _ _ rfl hs rfl rfl (by simp only [m]; omega)
  have hrun : execOps (step ctx.layout.segs) (slotOps ctx id seg (addr-s.vmaddr))
      { pointer := true } = doBind ctx.layout.segs m := by
    simp [slotOps, execOps, step, m]
  refine ⟨_,hrun.trans hbind,?_⟩
  simp [m, slotBound, Nat.add_sub_cancel' hle]

/-- The record that stands at an offset of the stream binds its slot. -/
theorem record_binds {stream : List UInt8} {off : ℕ}
    (h : Holds stream off (recordBytes (slotOps ctx id seg (addr-s.vmaddr)))) :
    ∃ m rest, execute codec (step ctx.layout.segs) (stream.drop off) { pointer := true } =
        some (m,rest) ∧ m.bound = [slotBound ctx id addr] := by
  obtain ⟨-,c,hc⟩ := h
  obtain ⟨m,hrun,hbound⟩ := slot_ops_run id hs hle hend
  have hexec := execute_program codec (step ctx.layout.segs) _ (slot_ops_valid id hs hend) c
    { pointer := true }
  rw [hrun] at hexec
  refine ⟨m,some c,?_,hbound⟩
  rw [hc, recordBytes, List.append_assoc]
  exact hexec

end Record

/-! ## The first call -/

variable (ctx)

/-- The sections of a link with stubs. -/
structure Sections where
  stubs : List UInt8
  lazyPtrs : List UInt8
  stubHelper : List UInt8
  stream : List UInt8

/-- All of them written. -/
def writeSections (E : Target) (s : Sections) : Option Sections := do
  let (stream,offsets) ← construct ctx
  let stubs ← writeStubs ctx E s.stubs
  let lazyPtrs ← copyLazyPtrs ctx E s.lazyPtrs
  let stubHelper ← writeStubHelper ctx E offsets s.stubHelper
  some ⟨stubs,lazyPtrs,stubHelper,stream⟩

/-- The pointer that a stub jumps through. -/
def stubThrough (E : Target) (s : Sections) (i : ℕ) : Option ℕ :=
  E.through s.stubs (i*E.stubSize) (ctx.stubsAddr+i*E.stubSize)

/-- What a call of a stub binds while its pointer is as it was written: the code there hands
an offset of the stream over and goes to the header, which enters dyld by the slot of
`dyld_stub_binder`; dyld runs the record at the offset, whose type is a pointer unless the
record sets another. -/
def firstCall (E : Target) (s : Sections) (i : ℕ) : Option (List Bound) := do
  let slot ← stubThrough ctx E s i
  let ptr ← readLe 8 s.lazyPtrs (slot-ctx.lazyPtrs)
  let (off,target) ← E.enter s.stubHelper (ptr-ctx.stubHelper)
  let handed ← E.handed s.stubHelper ctx.stubHelper
  if target = 0 ∧ handed = (ctx.dyldPrivate,ctx.gotAddr ctx.stubBinder) then
    let (m,_) ← execute codec (step ctx.layout.segs) (s.stream.drop off) { pointer := true }
    some m.bound
  else none

variable {ctx} {E : Target}

/-- The header's operands are in reach, which the source does not check. -/
def HeaderNear (ctx : Context) (E : Target) : Prop :=
  E.near ctx.stubHelper ctx.dyldPrivate (ctx.gotAddr ctx.stubBinder) = true

instance (ctx : Context) (E : Target) : Decidable (HeaderNear ctx E) :=
  inferInstanceAs (Decidable (_ = _))

theorem helper_written (E : Target) {n : ℕ} {offsets : List ℕ} {helper : List UInt8}
    (hlen : offsets.length = n) (hhelper : helper.length = E.entryOffset n)
    (hnear : E.entryOffset n < 2^27) (hends : ctx.stubHelper+E.entryOffset n < 2^64)
    (hheader : HeaderNear ctx E) :
    ∃ out, writeStubHelper ctx E offsets helper = some out ∧
      E.handed out ctx.stubHelper = some (ctx.dyldPrivate,ctx.gotAddr ctx.stubBinder) ∧
      ∀ k off, offsets[k]? = some off → off < 2^31 →
        E.enter out (E.entryOffset k) = some (off,0) := by
  subst hlen
  let header := E.header ctx.stubHelper ctx.dyldPrivate (ctx.gotAddr ctx.stubBinder)
  have hsize : header.length = E.headerSize := E.header_length _ _ _
  have hroom : E.headerSize ≤ E.entryOffset offsets.length := Nat.le_add_right _ _
  have hput : put helper 0 header = some (header ++ helper.drop E.headerSize) := by
    rw [put, if_pos (by omega), writeAt, hsize, Nat.zero_add]
    rfl
  have hentries : (helper.drop E.headerSize).length = offsets.length*E.entrySize := by
    rw [List.length_drop, hhelper, Target.entryOffset, Nat.add_sub_cancel_left]
  obtain ⟨back,hout,hentry⟩ := rows_hold E.entryOffset
    (fun e => E.entry ctx.stubHelper (ctx.stubHelper+E.entryOffset e.2) e.1) header
    (fun _ => rfl) (fun _ => E.entry_length _ _ _) hsize hentries
  refine ⟨header ++ back,?_,?_,fun k off hk hoff => ?_⟩
  · rw [writeStubHelper, hput]
    exact hout
  · exact E.header_hands (by omega) ctx.private_lt (ctx.got_lt _) (ctx.got_aligned _) hheader
      (holds_mid [] header back)
  · have hfits := entry_offset_le (E := E) (List.getElem?_eq_some_iff.1 hk).1
    exact E.entered (by omega) (by omega) (entry_offset_aligned k) hoff (hentry k off hk)

theorem lazy_ptrs_copied (E : Target) {ptrs : List UInt8}
    (hptrs : ptrs.length = (finishStubs ctx).length*8)
    (hends : ctx.stubHelper+E.entryOffset (finishStubs ctx).length < 2^64) :
    ∃ words, copyLazyPtrs ctx E ptrs = some words ∧ ∀ k < (finishStubs ctx).length,
      readLe 8 words (k*8) = some (ctx.stubHelper+E.entryOffset k) := by
  obtain ⟨words,hwords,hword⟩ := rows_hold (fun k => k*8)
    (fun e : ℕ × ℕ => toLe 8 (ctx.stubHelper+E.entryOffset e.2)) []
    (fun k => (Nat.zero_add _).symm) (fun _ => to_le_length _ _) rfl hptrs
  rw [List.nil_append, List.nil_append] at hwords
  rw [List.nil_append] at hword
  refine ⟨words,hwords,fun k hk => ?_⟩
  have hfits := entry_offset_le (E := E) hk
  obtain ⟨hle,c,hc⟩ := hword k _ (List.getElem?_eq_getElem hk)
  rw [(read_field hle hc).1, Nat.mod_eq_of_lt]
  dsimp only
  omega

theorem stub_ptr_some {i id : ℕ} (hid : ctx.stubs[i]? = some id) (hplaced : Placed ctx) :
    ∃ ptr, stubPtrAddr ctx id i = some ptr ∧ ptr < 2^64 ∧ 8 ∣ ptr := by
  by_cases hlazy : (ctx.lazyBinding && !ctx.bindsWeakLookup id) = true
  · obtain ⟨k,hk,hptr⟩ := stub_ptr hid hlazy
    obtain ⟨seg,hseg,hin,-⟩ := hplaced k (List.getElem?_eq_some_iff.1 hk).1
    have hend := ctx.layout.ends seg hseg
    exact ⟨_,hptr,lt_trans hin.2.1 hend,Nat.dvd_add ctx.ptrs_aligned (Nat.dvd_mul_left 8 k)⟩
  · exact ⟨ctx.gotAddr id,if_neg hlazy,ctx.got_lt id,ctx.got_aligned id⟩

/-- Every stub's pointer is in reach. -/
def InReach (ctx : Context) (E : Target) : Prop :=
  ∀ e ∈ ctx.stubs.zipIdx, ∀ ptr ∈ stubPtrAddr ctx e.1 e.2,
    E.reaches ptr (ctx.stubsAddr+e.2*E.stubSize) = true

instance (ctx : Context) (E : Target) : Decidable (InReach ctx E) :=
  inferInstanceAs (Decidable (∀ e ∈ _, _))

/-- The stubs jump through their pointers. -/
theorem stubs_written (hplaced : Placed ctx) (hreach : InReach ctx E) {code : List UInt8}
    (hcode : code.length = ctx.stubs.length*E.stubSize)
    (hends : ctx.stubsAddr+ctx.stubs.length*E.stubSize < 2^64) :
    ∃ stubs, writeStubs ctx E code = some stubs ∧ ∀ i id, ctx.stubs[i]? = some id →
      ∃ ptr, stubPtrAddr ctx id i = some ptr ∧
        E.through stubs (i*E.stubSize) (ctx.stubsAddr+i*E.stubSize) = some ptr := by
  let enc : ℕ × ℕ → List UInt8 := fun e =>
    E.stub (ctx.stubsAddr+e.2*E.stubSize) ((stubPtrAddr ctx e.1 e.2).getD 0)
  obtain ⟨stubs,hstubs,hstub⟩ := rows_hold (fun k => k*E.stubSize) enc []
    (fun k => (Nat.zero_add _).symm) (fun _ => E.stub_length _ _) rfl hcode
  rw [List.nil_append, List.nil_append] at hstubs
  rw [List.nil_append] at hstub
  have hsteps : writeStubs ctx E code = some stubs := by
    rw [← hstubs]
    refine foldlM_congr (fun e he buf => ?_) code
    obtain ⟨ptr,hptr,-⟩ := stub_ptr_some (List.mem_zipIdx_iff_getElem?.1 he) hplaced
    simp [writeStub, enc, hptr, hreach e he ptr hptr]
  refine ⟨stubs,hsteps,fun i id hid => ?_⟩
  obtain ⟨ptr,hptr,hlt,halign⟩ := stub_ptr_some hid hplaced
  have hmem : (id,i) ∈ ctx.stubs.zipIdx := List.mem_zipIdx_iff_getElem?.2 hid
  have hrow := Nat.mul_le_mul_right E.stubSize (List.getElem?_eq_some_iff.1 hid).1
  have hhold := hstub i id hid
  simp only [enc, hptr, Option.getD_some] at hhold
  refine ⟨ptr,hptr,E.through_ptr ?_ hlt halign (hreach _ hmem ptr hptr) hhold⟩
  rw [Nat.succ_mul] at hrow
  omega

/-- The sections are of the sizes that their headers have, before they are written. -/
structure Sized (ctx : Context) (E : Target) (s : Sections) : Prop where
  stubs : s.stubs.length = ctx.stubs.length*E.stubSize
  lazyPtrs : s.lazyPtrs.length = (finishStubs ctx).length*8
  stubHelper : s.stubHelper.length = E.entryOffset (finishStubs ctx).length
  stubs_end : ctx.stubsAddr+ctx.stubs.length*E.stubSize < 2^64
  helper_near : E.entryOffset (finishStubs ctx).length < 2^27
  helper_end : ctx.stubHelper+E.entryOffset (finishStubs ctx).length < 2^64

/-- Each stub jumps through its pointer, and the first call of a stub that is bound lazily
binds the pointer to its symbol, where the stream's offsets fit. -/
theorem first_call_binds (ctx : Context) (E : Target) {s : Sections} (hplaced : Placed ctx)
    (hreach : InReach ctx E) (hheader : HeaderNear ctx E) (hsized : Sized ctx E s) :
    ∃ out, writeSections ctx E s = some out ∧ ∀ i id, ctx.stubs[i]? = some id →
      ∃ slot, stubPtrAddr ctx id i = some slot ∧ stubThrough ctx E out i = some slot ∧
        ((ctx.lazyBinding && !ctx.bindsWeakLookup id) = true → out.stream.length < 2^31 →
          firstCall ctx E out i = some [slotBound ctx id slot]) := by
  obtain ⟨stream,offsets,hstream,hlen,hrec⟩ := construct_records hplaced
  obtain ⟨stubs,hstubs,hthrough⟩ := stubs_written hplaced hreach hsized.stubs hsized.stubs_end
  obtain ⟨words,hwords,hread⟩ := lazy_ptrs_copied E hsized.lazyPtrs hsized.helper_end
  obtain ⟨helper,hhelper,hhanded,henter⟩ :=
    helper_written E hlen hsized.stubHelper hsized.helper_near hsized.helper_end hheader
  refine ⟨⟨stubs,words,helper,stream⟩,?_,fun i id hid => ?_⟩
  · simp [writeSections, hstream, hstubs, hwords, hhelper]
  obtain ⟨slot,hslot,hjump⟩ := hthrough i id hid
  refine ⟨slot,hslot,hjump,fun hlazy hshort => ?_⟩
  obtain ⟨k,hk,hptr⟩ := stub_ptr hid hlazy
  obtain rfl := Option.some.inj (hptr.symm.trans hslot)
  have hlt : k < (finishStubs ctx).length := (List.getElem?_eq_some_iff.1 hk).1
  obtain ⟨seg,s,hops,hs,hle,hend⟩ := record_ops hid hptr (hplaced k hlt)
  obtain ⟨ops,off,hops',hoff,hbytes⟩ := hrec k i hk
  obtain rfl := Option.some.inj (hops.symm.trans hops')
  have hin : off < 2^31 := lt_of_le_of_lt hbytes.1 hshort
  rw [Nat.mod_eq_of_lt (by omega)] at hoff
  obtain ⟨m,rest,hexec,hbound⟩ := record_binds id hs hle hend hbytes
  have hcell : slotAddr ctx k-ctx.lazyPtrs = k*8 := Nat.add_sub_cancel_left ..
  have hcode : ctx.stubHelper+E.entryOffset k-ctx.stubHelper = E.entryOffset k :=
    Nat.add_sub_cancel_left ..
  rw [firstCall, stubThrough, hjump, ← hbound]
  simp [hcell, hread k hlt, hcode, henter k off hoff hin, hhanded, hexec]

/-- Two stubs, of which the first is looked up weakly. -/
def twoStubs : Context where
  layout := adjacent
  few := by decide
  lazyBinding := true
  stubs := [7,9]
  bindsWeakLookup id := id == 7
  isWeakRef _ := false
  name _ := [95,103]
  name_nul _ := by decide
  bindOrdinal _ := 1
  ordinal_ge _ := by decide
  ordinal_lt _ := by decide
  gotAddr _ := 0x2f00
  got_aligned _ := by decide
  got_lt _ := by decide
  stubsAddr := 0x1080
  stubHelper := 0x1100
  dyldPrivate := 0x2f10
  private_lt := by decide
  stubBinder := 3
  lazyPtrs := 0x2000
  ptrs_aligned := by decide

def blankSections (E : Target) : Sections where
  stubs := List.replicate (2*E.stubSize) 0
  lazyPtrs := List.replicate 8 0
  stubHelper := List.replicate (E.entryOffset 1) 0
  stream := []

/-- The first stub jumps through its GOT slot, and a call of the second binds its pointer. -/
def TwoBound (E : Target) : Prop :=
  ∃ out, writeSections twoStubs E (blankSections E) = some out ∧
    stubThrough twoStubs E out 0 = some 0x2f00 ∧ stubThrough twoStubs E out 1 = some 0x2000 ∧
    (out.stream.length < 2^31 →
      firstCall twoStubs E out 1 = some [⟨0x2000,some 1,[95,103],0,0⟩])

theorem first_call_binds_two_stubs : TwoBound arm64 ∧ TwoBound x86 := by
  have hbound {E : Target} (hsized : Sized twoStubs E (blankSections E))
      (hreach : InReach twoStubs E) (hheader : HeaderNear twoStubs E) : TwoBound E := by
    obtain ⟨out,hout,h⟩ := first_call_binds twoStubs E (by decide) hreach hheader hsized
    obtain ⟨got,hgot,hfirst,-⟩ := h 0 7 rfl
    obtain ⟨slot,hslot,hsecond,hcall⟩ := h 1 9 rfl
    obtain rfl : 0x2f00 = got := Option.some.inj hgot
    obtain rfl : 0x2000 = slot := Option.some.inj hslot
    exact ⟨out,hout,hfirst,hsecond,hcall rfl⟩
  constructor
  · exact hbound ⟨rfl,rfl,rfl,by decide,by decide,by decide⟩ (by decide) (by decide)
  · exact hbound ⟨rfl,rfl,rfl,by decide,by decide,by decide⟩ (by decide) (by decide)

end MoldMacho.LazyBinding
