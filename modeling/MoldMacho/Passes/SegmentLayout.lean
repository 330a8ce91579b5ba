import Mathlib.Data.List.Infix
import Mathlib.Algebra.Divisibility.Basic
import MoldMacho.Passes.LayOutSegments

/-!
# What the layout of the segments keeps

Within a segment the chunks lie apart, the file in step with memory and the
zero-fill behind; moving a segment keeps that, and the alignments that divide
both of its addresses.
-/

set_option autoImplicit false

namespace MoldMacho.LayOutSegments
open MoldMacho.Segments MoldMacho.Chunks MoldMacho.Align MoldMacho.Lists

/-- The chunks of a segment are in it, apart, file-backed ones where the file
has them and the others behind those. -/
structure Laid (seg : Segment) : Prop where
  inside : ∀ c ∈ seg.chunks, seg.vmaddr ≤ c.addr ∧ c.addr + c.size ≤ seg.vmaddr + seg.vmsize
  apart : seg.chunks.Pairwise fun a b => a.addr + a.size ≤ b.addr ∨ b.addr + b.size ≤ a.addr
  file : ∀ c ∈ seg.chunks, c.isZerofill = false →
    seg.fileoff ≤ c.fileoff ∧ c.addr - seg.vmaddr = c.fileoff - seg.fileoff ∧
    c.fileoff + c.size ≤ seg.fileoff + seg.filesize
  behind : ∀ a ∈ seg.chunks, ∀ b ∈ seg.chunks, a.isZerofill = false → b.isZerofill = true →
    a.addr + a.size ≤ b.addr

/-! ## The chunks with file contents -/

section Files
variable (ctx : Context) (fileoff vmaddr : ℕ)

theorem place_file_flags (cursor : ℕ) (chunk : Chunk) :
    (placeFile ctx fileoff vmaddr false cursor chunk).2.isZerofill = chunk.isZerofill := by
  rw [placeFile]
  split <;> rfl

/-- A chunk at the address that goes with its file offset. -/
structure FilePlaced (fileoff vmaddr : ℕ) (c : Chunk) : Prop where
  start : fileoff ≤ c.fileoff
  step : c.addr + fileoff = c.fileoff + vmaddr
  aligned : 2^c.p2align ∣ c.addr

theorem place_file (cursor : ℕ) (chunk : Chunk) (hcursor : fileoff ≤ cursor) :
    let placed := placeFile ctx fileoff vmaddr false cursor chunk
    cursor ≤ placed.1 ∧ (placed.2.isZerofill = false →
      FilePlaced fileoff vmaddr placed.2 ∧ cursor ≤ placed.2.fileoff ∧
      placed.2.fileoff + placed.2.size ≤ placed.1) := by
  have hflags := place_file_flags ctx fileoff vmaddr cursor chunk
  cases hz : chunk.isZerofill with
  | true =>
    simp only [placeFile, hz, if_true]
    exact ⟨le_rfl,fun h => by cases h⟩
  | false =>
    have hle := le_align_to (vmaddr + (cursor - fileoff)) (2^chunk.p2align)
    have hdvd := align_to_dvd (Nat.two_pow_pos chunk.p2align) (vmaddr + (cursor - fileoff))
    simp only [placeFile, hz, Bool.false_eq_true, if_false]
    constructor
    · omega
    · intro _
      constructor
      · exact ⟨Nat.le_add_right _ _,by dsimp only; omega,hdvd⟩
      · exact ⟨by omega,le_rfl⟩

/-- The chunks with file contents follow one another in the file. -/
theorem place_files (chunks : List Chunk) :
    let placed := mapAccum (placeFile ctx fileoff vmaddr false) fileoff chunks
    fileoff ≤ placed.1 ∧
    (∀ c ∈ placed.2, c.isZerofill = false →
      FilePlaced fileoff vmaddr c ∧ c.fileoff + c.size ≤ placed.1) ∧
    placed.2.Pairwise fun a b =>
      a.isZerofill = false → b.isZerofill = false → a.fileoff + a.size ≤ b.fileoff := by
  have hstep (cursor : ℕ) (chunk : Chunk) (h : fileoff ≤ cursor) :=
    place_file ctx fileoff vmaddr cursor chunk h
  obtain ⟨hle,hall,hpair⟩ := map_accum_ranges (I := fun cursor => fileoff ≤ cursor)
    (p := fun c : Chunk => c.isZerofill = false) (m := fun cursor => cursor)
    (u := fun c => c.fileoff) (v := fun c => c.fileoff + c.size)
    (fun cursor chunk _ h => ⟨h.trans (hstep cursor chunk h).1,(hstep cursor chunk h).1,
      fun hz => ((hstep cursor chunk h).2 hz).2⟩) (l := chunks) le_rfl
  have hplaced := map_accum_forall (I := fun cursor => fileoff ≤ cursor)
    (p := fun c => c.isZerofill = false → FilePlaced fileoff vmaddr c)
    (fun cursor chunk _ h => ⟨h.trans (hstep cursor chunk h).1,
      fun hz => ((hstep cursor chunk h).2 hz).1⟩) (l := chunks) le_rfl
  exact ⟨hle,fun c hc hz => ⟨hplaced c hc hz,(hall c hc hz).2⟩,hpair⟩

end Files

/-! ## The zero-fill -/

theorem place_zerofill (vmEnd : ℕ) (chunk : Chunk) :
    let placed := placeZerofill vmEnd chunk
    vmEnd ≤ placed.1 ∧ (placed.2.isZerofill = false → placed.2 = chunk) ∧
    (placed.2.isZerofill = true →
      2^placed.2.p2align ∣ placed.2.addr ∧ vmEnd ≤ placed.2.addr ∧
      placed.2.addr + placed.2.size ≤ placed.1) := by
  cases hz : chunk.isZerofill with
  | false =>
    have hne : ¬ chunk.isZerofill = true := by simp [hz]
    simp only [placeZerofill, if_neg hne]
    exact ⟨le_rfl,fun _ => trivial,fun h => absurd h hne⟩
  | true =>
    have hle := le_align_to vmEnd (2^chunk.p2align)
    have hdvd := align_to_dvd (Nat.two_pow_pos chunk.p2align) vmEnd
    simp only [placeZerofill, if_pos hz]
    exact ⟨hle.trans (Nat.le_add_right _ _),fun h => absurd (hz.symm.trans h) (by decide),
      fun _ => ⟨hdvd,hle,le_rfl⟩⟩

/-- The zero-fill chunks follow one another in memory. -/
theorem place_zerofills (vmEnd : ℕ) (chunks : List Chunk) :
    let placed := mapAccum placeZerofill vmEnd chunks
    vmEnd ≤ placed.1 ∧
    (∀ c ∈ placed.2, c.isZerofill = true →
      2^c.p2align ∣ c.addr ∧ vmEnd ≤ c.addr ∧ c.addr + c.size ≤ placed.1) ∧
    placed.2.Pairwise fun a b =>
      a.isZerofill = true → b.isZerofill = true → a.addr + a.size ≤ b.addr := by
  obtain ⟨hle,hall,hpair⟩ := map_accum_ranges (I := fun _ => True)
    (p := fun c : Chunk => c.isZerofill = true) (m := fun vmEnd => vmEnd)
    (u := fun c => c.addr) (v := fun c => c.addr + c.size)
    (fun vmEnd chunk _ _ => ⟨trivial,(place_zerofill vmEnd chunk).1,
      fun hz => ((place_zerofill vmEnd chunk).2.2 hz).2⟩) (l := chunks) (s := vmEnd) trivial
  have haligned := map_accum_forall (I := fun _ => True)
    (p := fun c : Chunk => c.isZerofill = true → 2^c.p2align ∣ c.addr)
    (fun vmEnd chunk _ _ => ⟨trivial,fun hz => ((place_zerofill vmEnd chunk).2.2 hz).1⟩)
    (l := chunks) (s := vmEnd) trivial
  exact ⟨hle,fun c hc hz => ⟨haligned c hc hz,hall c hc hz⟩,hpair⟩

/-! ## One segment -/

section Segment
variable (ctx : Context) {seg : Segment} (fileoff vmaddr : ℕ)

def isBare (seg : Segment) : Prop := seg.name = pagezero ∨ seg.name = unixStack

/-- A segment as it is laid out lies in order, each chunk on its alignment. -/
theorem layout_segment_laid (hbare : ¬ isBare seg) (hlinkedit : seg.name ≠ linkeditName) :
    let laid := (layoutSegment ctx seg fileoff vmaddr).1
    Laid laid ∧ laid.vmaddr = vmaddr ∧ ∀ c ∈ laid.chunks, 2^c.p2align ∣ c.addr := by
  obtain ⟨hpagezero,hstack⟩ := not_or.1 hbare
  have hname : (seg.name == linkeditName) = false := by simpa using hlinkedit
  simp only [layoutSegment, hpagezero, hstack, hname, if_false, Bool.false_eq_true]
  obtain ⟨hfile,hfiles,hfilePairs⟩ := place_files ctx fileoff vmaddr seg.chunks
  generalize mapAccum (placeFile ctx fileoff vmaddr false) fileoff seg.chunks = files at *
  obtain ⟨hend,hzeros,hzeroPairs⟩ := place_zerofills (vmaddr + (files.1 - fileoff)) files.2
  obtain ⟨hkept,hkeptPairs⟩ := map_accum_kept (p := fun c : Chunk => c.isZerofill = false)
    (fun vmEnd chunk => (place_zerofill vmEnd chunk).2.1) (vmaddr + (files.1 - fileoff)) files.2
  generalize mapAccum placeZerofill (vmaddr + (files.1 - fileoff)) files.2 = zeros at *
  have hfilePairs := hkeptPairs _ hfilePairs
  have hsize := le_align_to (files.1 - fileoff) ctx.args.segmentAlign
  have hspan := le_align_to (zeros.1 - vmaddr) ctx.args.segmentAlign
  have hfileAt (c : Chunk) (hc : c ∈ zeros.2) (hz : c.isZerofill = false) :=
    hfiles c (hkept c hc hz) hz
  refine ⟨⟨?_,?_,?_,?_⟩,trivial,?_⟩
  · intro c hc
    cases hz : c.isZerofill with
    | false =>
      obtain ⟨hplaced,hstop⟩ := hfileAt c hc hz
      have := hplaced.start
      have := hplaced.step
      dsimp only
      omega
    | true =>
      obtain ⟨-,hstart,hstop⟩ := hzeros c hc hz
      dsimp only
      omega
  · refine (hfilePairs.and hzeroPairs).imp_of_mem ?_
    intro a b ha hb hab
    cases hza : a.isZerofill <;> cases hzb : b.isZerofill
    · have := (hfileAt a ha hza).1.step
      have := (hfileAt b hb hzb).1.step
      have := hab.1 hza hzb
      omega
    · have := (hfileAt a ha hza).1.step
      have := (hfileAt a ha hza).2
      have := (hzeros b hb hzb).2.1
      omega
    · have := (hfileAt b hb hzb).1.step
      have := (hfileAt b hb hzb).2
      have := (hzeros a ha hza).2.1
      omega
    · exact Or.inl (hab.2 hza hzb)
  · intro c hc hz
    obtain ⟨hplaced,hstop⟩ := hfileAt c hc hz
    have := hplaced.start
    have := hplaced.step
    dsimp only
    omega
  · intro a ha b hb hza hzb
    have := (hfileAt a ha hza).1.step
    have := (hfileAt a ha hza).2
    have := (hzeros b hb hzb).2.1
    omega
  · intro c hc
    cases hz : c.isZerofill with
    | false => exact (hfileAt c hc hz).1.aligned
    | true => exact (hzeros c hc hz).1

/-- What the layout leaves of a chunk as it is. -/
def unplaced (c : Chunk) : Chunk := { c with addr := 0, fileoff := 0, size := 0 }

theorem layout_segment_keeps (seg : Segment) :
    let laid := (layoutSegment ctx seg fileoff vmaddr).1
    laid.name = seg.name ∧ laid.chunks.map unplaced = seg.chunks.map unplaced := by
  have hfile (linkedit : Bool) (cursor : ℕ) (c : Chunk) :
      unplaced (placeFile ctx fileoff vmaddr linkedit cursor c).2 = unplaced c := by
    rw [placeFile]
    split <;> rfl
  have hzero (vmEnd : ℕ) (c : Chunk) : unplaced (placeZerofill vmEnd c).2 = unplaced c := by
    rw [placeZerofill]
    split <;> rfl
  simp only [layoutSegment]
  split
  · exact ⟨rfl,rfl⟩
  · split
    · exact ⟨rfl,rfl⟩
    · split
      all_goals
        refine ⟨rfl,?_⟩
        dsimp only
        rw [map_accum_map hzero, map_accum_map (hfile _)]

/-- A segment takes up the file from its offset to the one past it. -/
theorem layout_segment_file (hsize : isBare seg → seg.filesize = 0) :
    let laid := layoutSegment ctx seg fileoff vmaddr
    fileoff ≤ laid.2 ∧ (laid.1.filesize ≠ 0 →
      fileoff ≤ laid.1.fileoff ∧ laid.1.fileoff + laid.1.filesize ≤ laid.2) := by
  simp only [layoutSegment]
  split
  · next h => exact ⟨le_rfl,fun hne => absurd (hsize (Or.inl h)) hne⟩
  · split
    · next h => exact ⟨le_rfl,fun hne => absurd (hsize (Or.inr h)) hne⟩
    · split
      · exact ⟨Nat.le_add_right _ _,fun _ => ⟨le_rfl,le_rfl⟩⟩
      · exact ⟨Nat.le_add_right _ _,
          fun _ => ⟨le_rfl,Nat.add_le_add_left (le_align_to _ _) _⟩⟩

end Segment

/-! ## The segments in turn -/

section Next
variable (ctx : Context)

theorem layout_next_keeps (state : Progress) (seg : Segment) :
    let laid := (layoutNext ctx state seg).2
    laid.name = seg.name ∧ laid.chunks.map unplaced = seg.chunks.map unplaced := by
  simp only [layoutNext]
  split
  · exact layout_segment_keeps ctx _ _ seg
  · split
    · exact layout_segment_keeps ctx _ _ seg
    · exact layout_segment_keeps ctx _ _ seg

theorem layout_next_file (state : Progress) {seg : Segment} (hsize : isBare seg → seg.filesize = 0) :
    let laid := layoutNext ctx state seg
    state.fileoff ≤ laid.1.fileoff ∧ (laid.2.filesize ≠ 0 →
      state.fileoff ≤ laid.2.fileoff ∧ laid.2.fileoff + laid.2.filesize ≤ laid.1.fileoff) := by
  simp only [layoutNext]
  split
  · exact layout_segment_file ctx _ _ hsize
  · split
    · exact layout_segment_file ctx _ _ hsize
    · obtain ⟨hle,hrange⟩ := layout_segment_file ctx
        (state.fileoff + if ctx.args.segaddrs.isEmpty then
          alignTo state.addr (segmentStartAlign ctx.args seg) - state.addr else 0)
        (alignTo state.addr (segmentStartAlign ctx.args seg)) hsize
      have hgap := Nat.le_add_right state.fileoff (if ctx.args.segaddrs.isEmpty then
        alignTo state.addr (segmentStartAlign ctx.args seg) - state.addr else 0)
      exact ⟨hgap.trans hle,fun hne => ⟨hgap.trans (hrange hne).1,(hrange hne).2⟩⟩

theorem start_align_pos (args : Args) (seg : Segment) : 0 < segmentStartAlign args seg :=
  lt_of_lt_of_le (Nat.two_pow_pos _) (le_max_right _ _)

theorem start_align_congr (args : Args) {seg seg' : Segment}
    (h : seg.chunks.map unplaced = seg'.chunks.map unplaced) :
    segmentStartAlign args seg = segmentStartAlign args seg' := by
  have hhead (seg : Segment) : (seg.chunks.head?.map fun chunk => chunk.p2align) =
      (seg.chunks.map unplaced).head?.map fun chunk => chunk.p2align := by
    rw [List.head?_map, Option.map_map]
    rfl
  rw [segmentStartAlign, segmentStartAlign, hhead, hhead, h]

/-- A segment laid out in turn lies in order, at its start alignment unless it
is in place. -/
theorem layout_next_laid (state : Progress) {seg : Segment} (hbare : ¬ isBare seg)
    (hlinkedit : seg.name ≠ linkeditName) :
    let laid := (layoutNext ctx state seg).2
    Laid laid ∧ (∀ c ∈ laid.chunks, 2^c.p2align ∣ c.addr) ∧
    (isInPlace ctx laid = false → segmentStartAlign ctx.args laid ∣ laid.vmaddr) := by
  have hpagezero : seg.name ≠ pagezero := fun h => hbare (Or.inl h)
  have hkeeps := layout_next_keeps ctx state seg
  revert hkeeps
  simp only [layoutNext, hpagezero, if_false]
  split
  · next hplace =>
    intro hkeeps
    obtain ⟨hlaid,-,haligned⟩ := layout_segment_laid ctx state.fileoff (machHeaderAddr ctx.args)
      hbare hlinkedit
    refine ⟨hlaid,haligned,fun hnot => ?_⟩
    rw [isInPlace, hkeeps.1, hplace] at hnot
    simp at hnot
  · intro hkeeps
    obtain ⟨hlaid,hvmaddr,haligned⟩ := layout_segment_laid ctx
      (state.fileoff + if ctx.args.segaddrs.isEmpty then
          alignTo state.addr (segmentStartAlign ctx.args seg) - state.addr else 0)
      (alignTo state.addr (segmentStartAlign ctx.args seg)) hbare hlinkedit
    refine ⟨hlaid,haligned,fun _ => ?_⟩
    rw [start_align_congr ctx.args hkeeps.2, hvmaddr]
    exact align_to_dvd (start_align_pos ctx.args seg) _

end Next

/-! ## The segments' addresses -/

section Place
variable (ctx : Context)

/-- The address a segment is given: its own if it is in place, its pin, or one
on its start alignment. -/
def Given (seg : Segment) (addr : ℕ) : Prop :=
  isInPlace ctx seg = true ∨ ctx.args.segaddr seg.name = some addr ∨
    ctx.args.segaddr seg.name = none ∧ segmentStartAlign ctx.args seg ∣ addr

/-- A fixed address is one the segment may be given, and only one without a pin
floats. -/
def FixedOk (seg : Segment × Option ℕ) : Prop :=
  (∀ addr, seg.2 = some addr → Given ctx seg.1 addr) ∧
    (seg.2 = none → ctx.args.segaddr seg.1.name = none)

theorem fixed_addrs_length (prev : Option (Segment × ℕ)) (segs : List Segment) :
    (fixedAddrs ctx prev segs).length = segs.length := by
  induction segs generalizing prev with
  | nil => rfl
  | cons seg segs ih => simp only [fixedAddrs, List.length_cons, ih]

theorem fixed_addrs_given (prev : Option (Segment × ℕ)) (segs : List Segment) :
    ∀ seg ∈ segs.zip (fixedAddrs ctx prev segs), FixedOk ctx seg := by
  induction segs generalizing prev with
  | nil => simp [fixedAddrs]
  | cons seg segs ih =>
    simp only [fixedAddrs, List.zip_cons_cons, List.forall_mem_cons]
    refine ⟨?_,ih _⟩
    by_cases hplace : isInPlace ctx seg = true
    · simp only [hplace, if_true]
      exact ⟨fun _ _ => Or.inl hplace,fun h => by cases h⟩
    · simp only [hplace, if_false, Bool.false_eq_true]
      cases hpin : ctx.args.segaddr seg.name with
      | some addr =>
        refine ⟨fun a h => Or.inr (Or.inl ?_),fun h => by cases h⟩
        rw [hpin]
        exact h
      | none =>
        refine ⟨fun a h => Or.inr (Or.inr ⟨hpin,?_⟩),fun _ => hpin⟩
        cases prev with
        | none => cases h
        | some before =>
          dsimp only at h
          split at h
          · cases h
            exact align_to_dvd (start_align_pos ctx.args seg) _
          · cases h

theorem lowest_free_span {base floor size align : ℕ} {used : List Span} {span : Span}
    (h : lowestFreeSpan base floor size align used = some span) :
    span.stop - size = alignTo span.start align := by
  obtain ⟨start,-,rfl⟩ := Option.map_eq_some_iff.1 h
  exact Nat.add_sub_cancel _ _

theorem float_segments_given {base floor : ℕ} {firstPin : Option ℕ} {fixed : List Span} {i : ℕ}
    {used : List Span} {segs : List (Segment × Option ℕ)} {addrs : List ℕ}
    (hsegs : ∀ seg ∈ segs, FixedOk ctx seg)
    (h : floatSegments ctx base floor firstPin fixed i used segs = some addrs) :
    addrs.length = segs.length ∧
    ∀ seg ∈ (segs.map Prod.fst).zip addrs, Given ctx seg.1 seg.2 := by
  induction segs generalizing i used addrs with
  | nil =>
    cases h
    simp
  | cons seg segs ih =>
    obtain ⟨seg,fixedAddr⟩ := seg
    rw [List.forall_mem_cons] at hsegs
    cases fixedAddr with
    | some addr =>
      simp only [floatSegments] at h
      obtain ⟨rest,hrest,rfl⟩ := Option.map_eq_some_iff.1 h
      obtain ⟨hlength,hgiven⟩ := ih hsegs.2 hrest
      refine ⟨by simp [hlength],?_⟩
      rw [List.map_cons, List.zip_cons_cons, List.forall_mem_cons]
      exact ⟨hsegs.1.1 addr rfl,hgiven⟩
    | none =>
      simp only [floatSegments] at h
      split at h
      · cases h
      · next span hspan =>
        obtain ⟨rest,hrest,rfl⟩ := Option.map_eq_some_iff.1 h
        obtain ⟨hlength,hgiven⟩ := ih hsegs.2 hrest
        refine ⟨by simp [hlength],?_⟩
        rw [List.map_cons, List.zip_cons_cons, List.forall_mem_cons]
        refine ⟨Or.inr (Or.inr ⟨hsegs.1.2 rfl,?_⟩),hgiven⟩
        dsimp only
        rw [lowest_free_span hspan]
        exact align_to_dvd (start_align_pos ctx.args seg) _

theorem placed_addrs_given {segs : List Segment} {addrs : List ℕ}
    (h : placedAddrs ctx segs = some addrs) :
    addrs.length = segs.length ∧ ∀ seg ∈ segs.zip addrs, Given ctx seg.1 seg.2 := by
  have hlength := fixed_addrs_length ctx none segs
  obtain ⟨hsame,hgiven⟩ := float_segments_given ctx (fixed_addrs_given ctx none segs) h
  rw [List.map_fst_zip hlength.ge] at hgiven
  rw [List.length_zip, hlength, Nat.min_self] at hsame
  exact ⟨hsame,hgiven⟩

/-- There is always an address left. -/
theorem lowest_free_span_some {base floor : ℕ} (size align : ℕ) (used : List Span)
    (h : floor ≤ base) : ∃ span, lowestFreeSpan base floor size align used = some span := by
  have hfree (start : ℕ) (hstart : start ∈ base::(used.map Span.stop).filter
      fun stop => decide (floor < stop)) (hall : ∀ r ∈ used, r.stop ≤ start) :
      ∃ span, lowestFreeSpan base floor size align used = some span := by
    rw [lowestFreeSpan]
    dsimp only
    rw [← Option.isSome_iff_exists, Option.isSome_map, List.isSome_min?_iff]
    apply List.ne_nil_of_mem (a := start)
    rw [List.mem_filter]
    refine ⟨hstart,List.all_eq_true.2 fun r hr => ?_⟩
    exact decide_eq_true (Or.inl (hall r hr))
  cases hmax : ((used.map Span.stop).filter fun stop => decide (floor < stop)).max? with
  | none =>
    apply hfree base List.mem_cons_self
    intro r hr
    by_contra hlt
    have hmem : r.stop ∈ (used.map Span.stop).filter fun stop => decide (floor < stop) :=
      List.mem_filter.2 ⟨List.mem_map_of_mem hr,decide_eq_true (by omega)⟩
    rw [List.max?_eq_none_iff.1 hmax] at hmem
    cases hmem
  | some last =>
    obtain ⟨hmem,hle⟩ := List.max?_eq_some_iff.1 hmax
    apply hfree last (List.mem_cons_of_mem _ hmem)
    intro r hr
    by_cases hlt : floor < r.stop
    · exact hle _ (List.mem_filter.2 ⟨List.mem_map_of_mem hr,decide_eq_true hlt⟩)
    · have hfloor := of_decide_eq_true (List.mem_filter.1 hmem).2
      omega

/-- Two spans share no address, an empty one is at none that the other covers, and
none straddles an empty one that is in use. -/
structure Apart (r span : Span) : Prop where
  addrs : ∀ x, r.start ≤ x → x < r.stop → span.start ≤ x → ¬ x < span.stop
  point : span.stop = span.start → r.start ≤ span.start → ¬ span.start < r.stop
  straddle : r.stop = r.start → span.start < r.start → ¬ r.start < span.stop

theorem apart_iff {r span : Span} (hr : r.start ≤ r.stop) (hspan : span.start ≤ span.stop) :
    Apart r span ↔ r.stop ≤ span.start ∨ max span.stop (span.start+1) ≤ r.start := by
  constructor
  · intro h
    by_contra hover
    rw [not_or, Nat.not_le, Nat.not_le, lt_max_iff] at hover
    obtain ⟨hstop,hstart⟩ := hover
    rcases hr.eq_or_lt with hempty | hlt
    · exact h.straddle hempty.symm (by omega) (by omega)
    · rcases hspan.eq_or_lt with hpoint | hspan
      · exact h.point hpoint.symm (by omega) hstop
      · exact h.addrs (max r.start span.start) (by omega) (by omega) (by omega) (by omega)
  · intro h
    constructor
    · intro x
      omega
    · omega
    · omega

/-- The rule that the candidates are picked by. -/
def isFree (size align : ℕ) (used : List Span) (start : ℕ) : Bool :=
  used.all fun r => decide (r.stop ≤ start ∨ max (alignTo start align + size) (start+1) ≤ r.start)

theorem lowest_free_start {base floor size align : ℕ} {used : List Span} {span : Span}
    (h : lowestFreeSpan base floor size align used = some span) :
    span.start ∈ base::(used.map Span.stop).filter (fun stop => decide (floor < stop)) ∧
    span.stop = alignTo span.start align + size ∧ isFree size align used span.start = true ∧
    ∀ s ∈ base::(used.map Span.stop).filter (fun stop => decide (floor < stop)),
      isFree size align used s = true → span.start ≤ s := by
  obtain ⟨start,hmin,rfl⟩ := Option.map_eq_some_iff.1 h
  obtain ⟨hmem,hle⟩ := List.min?_eq_some_iff.1 hmin
  obtain ⟨hstart,hfree⟩ := List.mem_filter.1 hmem
  exact ⟨hstart,rfl,hfree,fun s hs hfree => hle s (List.mem_filter.2 ⟨hs,hfree⟩)⟩

/-- A free place is not before the last start at or before it, which is free too. -/
theorem free_before {base size align s : ℕ} {used : List Span} (hs : base ≤ s)
    (hfree : isFree size align used s = true) :
    ∃ t ∈ base::(used.map Span.stop).filter (fun stop => decide (base < stop)),
      t ≤ s ∧ isFree size align used t = true := by
  have hbase : base ∈ (base::(used.map Span.stop).filter fun stop => decide (base < stop)).filter
      fun t => decide (t ≤ s) := List.mem_filter.2 ⟨List.mem_cons_self,decide_eq_true hs⟩
  obtain ⟨t,ht⟩ := Option.isSome_iff_exists.1 (List.isSome_max?_iff.2 (List.ne_nil_of_mem hbase))
  obtain ⟨hmem,hmax⟩ := List.max?_eq_some_iff.1 ht
  obtain ⟨hstart,hle⟩ := List.mem_filter.1 hmem
  have hts := of_decide_eq_true hle
  refine ⟨t,hstart,hts,List.all_eq_true.2 fun r hr => decide_eq_true ?_⟩
  have hr' := of_decide_eq_true (List.all_eq_true.1 hfree r hr)
  rcases hr' with hbefore | hafter
  · left
    by_cases hlt : base < r.stop
    · apply hmax
      have hstop : r.stop ∈ (used.map Span.stop).filter fun stop => decide (base < stop) :=
        List.mem_filter.2 ⟨List.mem_map_of_mem hr,decide_eq_true hlt⟩
      exact List.mem_filter.2 ⟨List.mem_cons_of_mem _ hstop,decide_eq_true hbefore⟩
    · exact (Nat.not_lt.1 hlt).trans (hmax base hbase)
  · right
    have hmono := align_to_mono hts align
    omega

/-- A free span is always found: it is apart from the used ones and aligned but for
its padding, and from the base on no aligned address before its is free, nor with the
padding that would lead to it. -/
theorem lowest_free_span_found {base floor : ℕ} (hfloor : floor ≤ base) (size k : ℕ)
    {used : List Span} (hused : ∀ r ∈ used, r.start ≤ r.stop) :
    ∃ span, lowestFreeSpan base floor size (2^k) used = some span ∧
      (∀ r ∈ used, Apart r span) ∧ span.start ≤ span.stop - size ∧ size ≤ span.stop ∧
      2^k ∣ span.stop - size ∧
      (floor = base → base ≤ span.start ∧ ∀ s, base ≤ s →
        (∀ r ∈ used, Apart r { start := s, stop := alignTo s (2^k) + size }) →
        span.stop - size ≤ alignTo s (2^k)) := by
  obtain ⟨span,hspan⟩ := lowest_free_span_some size (2^k) used hfloor
  obtain ⟨hstart,hstop,hfree,hmin⟩ := lowest_free_start hspan
  have haddr := lowest_free_span hspan
  have hle := le_align_to span.start (2^k)
  refine ⟨span,hspan,?_,by omega,by omega,?_,?_⟩
  · intro r hr
    rw [apart_iff (hused r hr) (by omega), hstop]
    exact of_decide_eq_true (List.all_eq_true.1 hfree r hr)
  · rw [haddr]
    exact align_to_dvd (Nat.two_pow_pos k) _
  · rintro rfl
    refine ⟨?_,fun s hs hapart => ?_⟩
    · rcases List.mem_cons.1 hstart with heq | hend
      · exact heq.ge
      · exact (of_decide_eq_true (List.mem_filter.1 hend).2).le
    · have hs' : isFree size (2^k) used s = true := by
        refine List.all_eq_true.2 fun r hr => decide_eq_true ?_
        have hlow := le_align_to s (2^k)
        exact (apart_iff (hused r hr) (by dsimp only; omega)).1 (hapart r hr)
      obtain ⟨t,ht,hts,hfreeT⟩ := free_before hs hs'
      rw [haddr]
      exact align_to_mono ((hmin t ht hfreeT).trans hts) _

theorem lowest_free_span_found_padded :
    lowestFreeSpan 0x4000 0x4000 100 (2^14) [{ start := 0x4000, stop := 0x5000 }] =
      some { start := 0x5000, stop := 0x8064 } ∧
    2^14 ∣ 0x8064 - 100 := by
  obtain ⟨span,hspan,-,-,-,hdvd,-⟩ := @lowest_free_span_found 0x4000 0x4000 le_rfl 100 14
    [{ start := 0x4000, stop := 0x5000 }] (by decide)
  have heval : lowestFreeSpan 0x4000 0x4000 100 (2^14) [{ start := 0x4000, stop := 0x5000 }] =
      some { start := 0x5000, stop := 0x8064 } := by decide
  obtain rfl := Option.some.inj (hspan.symm.trans heval)
  exact ⟨heval,hdvd⟩


theorem float_segments_some {base floor : ℕ} (h : floor ≤ base) (firstPin : Option ℕ)
    (fixed : List Span) (i : ℕ) (used : List Span) (segs : List (Segment × Option ℕ)) :
    ∃ addrs, floatSegments ctx base floor firstPin fixed i used segs = some addrs := by
  induction segs generalizing i used with
  | nil => exact ⟨[],rfl⟩
  | cons seg segs ih =>
    obtain ⟨seg,fixedAddr⟩ := seg
    cases fixedAddr with
    | some addr =>
      obtain ⟨addrs,haddrs⟩ := ih (i+1) (if firstPin = some i then used ++ fixed else used)
      exact ⟨addr::addrs,by simp only [floatSegments, haddrs, Option.map_some]⟩
    | none =>
      obtain ⟨span,hspan⟩ := lowest_free_span_some (segmentSpan ctx.args seg)
        (segmentStartAlign ctx.args seg) (if firstPin = some i then used ++ fixed else used) h
      obtain ⟨addrs,haddrs⟩ :=
        ih (i+1) ((if firstPin = some i then used ++ fixed else used) ++ [span])
      exact ⟨_,by simp only [floatSegments, hspan, haddrs, Option.map_some]; rfl⟩

/-- Every segment finds its address. -/
theorem place_segments_some (segs : List Segment) : ∃ placed, placeSegments ctx segs = some placed := by
  have hsome : ∃ addrs, placedAddrs ctx segs = some addrs := by
    apply float_segments_some
    split
    · exact Nat.zero_le _
    · exact le_rfl
  obtain ⟨addrs,haddrs⟩ := hsome
  exact ⟨_,by rw [placeSegments, haddrs]; rfl⟩

end Place

/-! ## Moving a segment -/

theorem Laid.move {seg : Segment} (h : Laid seg) (addr : ℕ) : Laid (moveSegment seg addr) := by
  have hshift {c : Chunk} (hc : c ∈ seg.chunks) := (h.inside c hc).1
  constructor
  · intro moved hmoved
    obtain ⟨c,hc,rfl⟩ := List.mem_map.1 hmoved
    have := h.inside c hc
    dsimp only [moveSegment]
    omega
  · dsimp only [moveSegment]
    rw [List.pairwise_map]
    refine h.apart.imp_of_mem ?_
    intro a b ha hb hab
    have := hshift ha
    have := hshift hb
    dsimp only
    omega
  · intro moved hmoved hz
    obtain ⟨c,hc,rfl⟩ := List.mem_map.1 hmoved
    have := hshift hc
    have := h.file c hc hz
    dsimp only [moveSegment]
    omega
  · intro front hfront back hback hza hzb
    obtain ⟨a,ha,rfl⟩ := List.mem_map.1 hfront
    obtain ⟨b,hb,rfl⟩ := List.mem_map.1 hback
    have := hshift ha
    have := hshift hb
    have := h.behind a ha b hb hza hzb
    dsimp only
    omega

/-- Moving a segment keeps an alignment that divides both of its addresses. -/
theorem move_aligned {seg : Segment} {addr align : ℕ}
    (hfrom : align ∣ seg.vmaddr) (hto : align ∣ addr)
    (haligned : ∀ c ∈ seg.chunks, 2^c.p2align ∣ c.addr) :
    ∀ c ∈ (moveSegment seg addr).chunks, 2^c.p2align ∣ align → 2^c.p2align ∣ c.addr := by
  intro moved hmoved hdvd
  obtain ⟨c,hc,rfl⟩ := List.mem_map.1 hmoved
  have hsum := Nat.dvd_add (haligned c hc) (hdvd.trans hto)
  exact Nat.dvd_sub hsum (hdvd.trans hfrom)

/-! ## The whole layout -/

/-- The page is a power of two, and the pins lie on its boundaries. -/
structure Args.Checked (args : Args) : Prop where
  page : ∃ k, args.segmentAlign = 2^k
  pins : ∀ pin ∈ args.segaddrs, args.segmentAlign ∣ pin.2

/-- A chunk that comes to lie on its alignment wherever its segment goes: the
segment stays in place, or is moved by a multiple of the alignment. -/
def KeepsAlign (args : Args) (seg : Segment) (c : Chunk) : Prop :=
  some seg.name = inPlaceSegment args ∨ 2^c.p2align ≤ args.segmentAlign ∨
    args.segaddr seg.name = none ∧ 2^c.p2align ≤ segmentStartAlign args seg

section Whole
variable {ctx : Context} {segs laid placed : List Segment}

theorem segaddr_dvd {args : Args} (h : args.Checked) {name : Name} {addr : ℕ}
    (hpin : args.segaddr name = some addr) : args.segmentAlign ∣ addr := by
  obtain ⟨pin,hfind,rfl⟩ := Option.map_eq_some_iff.1 hpin
  exact h.pins pin (List.mem_of_find?_eq_some hfind)

theorem start_align_pow {args : Args} (h : args.Checked) (seg : Segment) :
    args.segmentAlign ∣ segmentStartAlign args seg ∧
    ∀ p, 2^p ≤ segmentStartAlign args seg → 2^p ∣ segmentStartAlign args seg := by
  obtain ⟨k,hk⟩ := h.page
  have hdvd {m n : ℕ} (h : 2^m ≤ 2^n) : 2^m ∣ 2^n :=
    Nat.pow_dvd_pow 2 ((Nat.pow_le_pow_iff_right (by decide)).1 h)
  rw [segmentStartAlign, hk]
  rcases max_choice (2^k) (2^(seg.chunks.head?.map fun chunk => chunk.p2align).getD 0) with h | h
  · rw [h]
    exact ⟨dvd_rfl,fun p hp => hdvd hp⟩
  · have hle := le_max_left (2^k) (2^(seg.chunks.head?.map fun chunk => chunk.p2align).getD 0)
    rw [h] at hle ⊢
    exact ⟨hdvd hle,fun p hp => hdvd hp⟩

theorem place_segments_mem (h : placeSegments ctx laid = some placed) {seg : Segment}
    (hseg : seg ∈ placed) : ∃ source ∈ laid, ∃ addr, Given ctx source addr ∧
      seg = placeSegment ctx source addr := by
  obtain ⟨addrs,haddrs,rfl⟩ := Option.map_eq_some_iff.1 h
  obtain ⟨-,hgiven⟩ := placed_addrs_given ctx haddrs
  rw [← List.map_uncurry_zip_eq_zipWith, List.mem_map] at hseg
  obtain ⟨pair,hpair,rfl⟩ := hseg
  exact ⟨pair.1,(List.of_mem_zip hpair).1,pair.2,hgiven pair hpair,rfl⟩

theorem place_segments_map {γ : Type} {g : Segment → γ}
    (hg : ∀ seg addr, g (placeSegment ctx seg addr) = g seg)
    (h : placeSegments ctx laid = some placed) : placed.map g = laid.map g := by
  obtain ⟨addrs,haddrs,rfl⟩ := Option.map_eq_some_iff.1 h
  obtain ⟨hlength,-⟩ := placed_addrs_given ctx haddrs
  rw [← List.map_uncurry_zip_eq_zipWith, List.map_map]
  have hcomp : g ∘ Function.uncurry (placeSegment ctx) = g ∘ Prod.fst := by
    funext pair
    exact hg pair.1 pair.2
  rw [hcomp, ← List.map_map, List.map_fst_zip hlength.ge]

theorem place_segment_file (ctx : Context) (seg : Segment) (addr : ℕ) :
    (placeSegment ctx seg addr).fileoff = seg.fileoff ∧
    (placeSegment ctx seg addr).filesize = seg.filesize ∧
    (placeSegment ctx seg addr).name = seg.name ∧
    (placeSegment ctx seg addr).chunks.map unplaced = seg.chunks.map unplaced := by
  rw [placeSegment]
  split
  · exact ⟨rfl,rfl,rfl,rfl⟩
  · refine ⟨rfl,rfl,rfl,?_⟩
    rw [moveSegment, List.map_map]
    rfl

theorem find_overlap_none (h : findOverlap segs = none) :
    segs.Pairwise fun a b => overlaps a b = false := by
  induction segs with
  | nil => exact List.Pairwise.nil
  | cons a segs ih =>
    rw [findOverlap] at h
    split at h
    · cases h
    · next hnone =>
      rw [List.find?_eq_none] at hnone
      exact List.pairwise_cons.2 ⟨fun b hb => by simpa using hnone b hb,ih h⟩

theorem overlaps_false {a b : Segment} (h : overlaps a b = false) (ha : a.vmsize ≠ 0)
    (hb : b.vmsize ≠ 0) :
    a.vmaddr + a.vmsize ≤ b.vmaddr ∨ b.vmaddr + b.vmsize ≤ a.vmaddr := by
  have hne {seg : Segment} (hseg : seg.vmsize ≠ 0) : (span seg).isEmpty = false := by
    exact decide_eq_false (by dsimp only [span]; omega)
  simp only [overlaps, hne ha, hne hb, Bool.not_false, Bool.true_and, decide_eq_false_iff_not] at h
  simp only [span] at h
  omega

theorem lay_out_segments_ok {result : List Segment × ℕ} (h : layOutSegments ctx segs = .ok result) :
    ∃ placed, placeSegments ctx (mapAccum (layoutNext ctx) (layoutStart ctx) segs.dropLast).2 =
      some placed ∧ findOverlap placed = none ∧ result.1.dropLast = placed ∧
      result.2 = (mapAccum (layoutNext ctx) (layoutStart ctx) segs.dropLast).1.fileoff := by
  simp only [layOutSegments] at h
  split at h
  · cases h
  · next placed hplaced =>
    split at h
    · cases h
    · next hnone =>
      obtain rfl := Except.ok.inj h
      refine ⟨placed,hplaced,hnone,?_,rfl⟩
      cases segs.eq_nil_or_concat with
      | inl hnil =>
        subst hnil
        cases hplaced
        rfl
      | inr hlast =>
        obtain ⟨init,last,rfl⟩ := hlast
        simp

/-- A segment laid out and placed. -/
theorem placed_laid (hargs : ctx.args.Checked) {source : Segment} {addr : ℕ}
    (hlaid : Laid source) (haligned : ∀ c ∈ source.chunks, 2^c.p2align ∣ c.addr)
    (hstart : isInPlace ctx source = false → segmentStartAlign ctx.args source ∣ source.vmaddr)
    (hgiven : Given ctx source addr) :
    Laid (placeSegment ctx source addr) ∧
    ∀ c ∈ (placeSegment ctx source addr).chunks,
      KeepsAlign ctx.args (placeSegment ctx source addr) c → 2^c.p2align ∣ c.addr := by
  cases hplace : isInPlace ctx source with
  | true =>
    rw [placeSegment, if_pos hplace]
    exact ⟨hlaid,fun c hc _ => haligned c hc⟩
  | false =>
    obtain ⟨hpage,hpow⟩ := start_align_pow hargs source
    have hfrom := hstart hplace
    have hnot : some source.name ≠ inPlaceSegment ctx.args := by
      intro h
      simp [isInPlace, h] at hplace
    have hsame : segmentStartAlign ctx.args (moveSegment source addr) =
        segmentStartAlign ctx.args source := by
      apply start_align_congr
      rw [moveSegment, List.map_map]
      rfl
    rw [placeSegment, if_neg (by simp [hplace])]
    refine ⟨hlaid.move addr,?_⟩
    intro c hc hkeeps
    rcases hgiven with h | hpin | ⟨hnone,hto⟩
    · rw [hplace] at h
      cases h
    · rcases hkeeps with h | hle | ⟨hnone,-⟩
      · exact absurd h hnot
      · obtain ⟨k,hk⟩ := hargs.page
        apply move_aligned (hpage.trans hfrom) (segaddr_dvd hargs hpin) haligned c hc
        rw [hk] at hle ⊢
        exact Nat.pow_dvd_pow 2 ((Nat.pow_le_pow_iff_right (by decide)).1 hle)
      · exact absurd (hnone.symm.trans hpin) (by simp)
    · apply move_aligned hfrom hto haligned c hc
      rcases hkeeps with h | hle | ⟨-,hle⟩
      · exact absurd h hnot
      · exact hpow _ (hle.trans (le_max_left _ _))
      · exact hpow _ (hsame ▸ hle)

/-- The segments keep their names, and their chunks all but their places. -/
theorem lay_out_segments_keeps {fileoff : ℕ}
    (h : layOutSegments ctx segs = .ok (placed,fileoff)) :
    placed.dropLast.map (fun seg => (seg.name,seg.chunks.map unplaced)) =
      segs.dropLast.map fun seg => (seg.name,seg.chunks.map unplaced) := by
  obtain ⟨body,hplaced,-,hbody,-⟩ := lay_out_segments_ok h
  rw [hbody, place_segments_map (g := fun seg => (seg.name,seg.chunks.map unplaced)) ?_ hplaced,
    map_accum_map]
  · intro state seg
    obtain ⟨hname,hchunks⟩ := layout_next_keeps ctx state seg
    rw [hname, hchunks]
  · intro seg addr
    obtain ⟨-,-,hname,hchunks⟩ := place_segment_file ctx seg addr
    rw [hname, hchunks]

/-- The chunks of a segment that is laid out are apart and inside it. -/
theorem lay_out_segments_laid {fileoff : ℕ} (hargs : ctx.args.Checked)
    (h : layOutSegments ctx segs = .ok (placed,fileoff)) :
    ∀ seg ∈ placed.dropLast, ¬ isBare seg → seg.name ≠ linkeditName →
      Laid seg ∧ ∀ c ∈ seg.chunks, KeepsAlign ctx.args seg c → 2^c.p2align ∣ c.addr := by
  obtain ⟨body,hplaced,-,hbody,-⟩ := lay_out_segments_ok h
  rw [hbody]
  intro seg hseg hnotBare hlinkedit
  obtain ⟨source,hfrom,addr,hgiven,rfl⟩ := place_segments_mem hplaced hseg
  have hname := (place_segment_file ctx source addr).2.2.1
  rw [isBare, hname] at hnotBare
  rw [hname] at hlinkedit
  have hlaid := map_accum_forall (f := layoutNext ctx) (I := fun _ => True)
    (p := fun seg => ¬ isBare seg → seg.name ≠ linkeditName → Laid seg ∧
      (∀ c ∈ seg.chunks, 2^c.p2align ∣ c.addr) ∧
      (isInPlace ctx seg = false → segmentStartAlign ctx.args seg ∣ seg.vmaddr))
    (l := segs.dropLast)
    (fun state seg _ _ => ⟨trivial,fun hb hl => by
      have hkeeps := (layout_next_keeps ctx state seg).1
      rw [isBare, hkeeps] at hb
      rw [hkeeps] at hl
      exact layout_next_laid ctx state hb hl⟩)
    (s := layoutStart ctx) trivial source hfrom hnotBare hlinkedit
  exact placed_laid hargs hlaid.1 hlaid.2.1 hlaid.2.2 hgiven

/-- The segments are apart in memory. -/
theorem lay_out_segments_apart {fileoff : ℕ}
    (h : layOutSegments ctx segs = .ok (placed,fileoff)) :
    placed.dropLast.Pairwise fun a b => a.vmsize ≠ 0 → b.vmsize ≠ 0 →
      a.vmaddr + a.vmsize ≤ b.vmaddr ∨ b.vmaddr + b.vmsize ≤ a.vmaddr := by
  obtain ⟨body,-,hoverlap,hbody,-⟩ := lay_out_segments_ok h
  rw [hbody]
  exact (find_overlap_none hoverlap).imp overlaps_false

/-- The segments follow one another in the file. -/
theorem lay_out_segments_file {fileoff : ℕ} (hbare : ∀ seg ∈ segs, isBare seg → seg.filesize = 0)
    (h : layOutSegments ctx segs = .ok (placed,fileoff)) :
    (placed.dropLast.Pairwise fun a b => a.filesize ≠ 0 → b.filesize ≠ 0 →
      a.fileoff + a.filesize ≤ b.fileoff) ∧
    ∀ seg ∈ placed.dropLast, seg.filesize ≠ 0 → seg.fileoff + seg.filesize ≤ fileoff := by
  obtain ⟨body,hplaced,-,hbody,hfileoff⟩ := lay_out_segments_ok h
  dsimp only at hfileoff
  have hranges := map_accum_ranges (f := layoutNext ctx) (I := fun _ => True)
    (p := fun seg : Segment => seg.filesize ≠ 0) (m := Progress.fileoff)
    (u := fun seg => seg.fileoff) (v := fun seg => seg.fileoff + seg.filesize)
    (l := segs.dropLast)
    (fun state seg hseg _ => ⟨trivial,
      layout_next_file ctx state (hbare seg (List.mem_of_mem_dropLast hseg))⟩)
    (s := layoutStart ctx) trivial
  have hsame := place_segments_map (g := fun seg => (seg.fileoff,seg.filesize))
    (fun seg addr => by
      obtain ⟨hoff,hsize,-⟩ := place_segment_file ctx seg addr
      rw [hoff, hsize]) hplaced
  rw [hbody]
  constructor
  · have hpair := hranges.2.2
    have hmap (l : List Segment) : (l.Pairwise fun a b => a.filesize ≠ 0 → b.filesize ≠ 0 →
        a.fileoff + a.filesize ≤ b.fileoff) ↔
        (l.map fun seg => (seg.fileoff,seg.filesize)).Pairwise fun a b =>
          a.2 ≠ 0 → b.2 ≠ 0 → a.1 + a.2 ≤ b.1 := by
      rw [List.pairwise_map]
    rw [hmap, hsame, ← hmap]
    exact hpair
  · intro seg hseg hsize
    have hmem : (seg.fileoff,seg.filesize) ∈ body.map fun seg => (seg.fileoff,seg.filesize) :=
      List.mem_map_of_mem hseg
    rw [hsame] at hmem
    obtain ⟨source,hfrom,heq⟩ := List.mem_map.1 hmem
    obtain ⟨hoff,hfilesize⟩ := Prod.mk.inj heq
    rw [hfileoff, ← hoff, ← hfilesize]
    rw [← hfilesize] at hsize
    exact (hranges.2.1 source hfrom hsize).2

end Whole

/-- After the layout, in every segment but `__PAGEZERO`, `__UNIXSTACK` and
`__LINKEDIT` the chunks are apart and inside it, those with file contents in
step with the file and the zero-fill behind, each on its alignment if that is no
more than a page's, or than its unpinned segment's, or the segment stays in
place; the segments follow one another in the file, and are apart in memory. -/
theorem segments_laid_out {ctx : Context} {segs placed : List Segment} {fileoff : ℕ}
    (hargs : ctx.args.Checked) (hbare : ∀ seg ∈ segs, isBare seg → seg.filesize = 0)
    (h : layOutSegments ctx segs = .ok (placed,fileoff)) :
    (∀ seg ∈ placed.dropLast, ¬ isBare seg → seg.name ≠ linkeditName →
      Laid seg ∧ ∀ c ∈ seg.chunks, KeepsAlign ctx.args seg c → 2^c.p2align ∣ c.addr) ∧
    (placed.dropLast.Pairwise fun a b => a.filesize ≠ 0 → b.filesize ≠ 0 →
      a.fileoff + a.filesize ≤ b.fileoff) ∧
    (∀ seg ∈ placed.dropLast, seg.filesize ≠ 0 → seg.fileoff + seg.filesize ≤ fileoff) ∧
    placed.dropLast.Pairwise fun a b => a.vmsize ≠ 0 → b.vmsize ≠ 0 →
      a.vmaddr + a.vmsize ≤ b.vmaddr ∨ b.vmaddr + b.vmsize ≤ a.vmaddr := by
  obtain ⟨hfile,hend⟩ := lay_out_segments_file hbare h
  exact ⟨lay_out_segments_laid hargs h,hfile,hend,lay_out_segments_apart h⟩

/-- A static image whose `__DATA` a `-segaddr` pins. -/
def pinnedData : Context where
  args := { segmentAlign := 0x1000, staticLink := true, segaddrs := [(bytes "__DATA",0x5000)] }
  machHeaderSize := 0x100
  unwindInfoSize := 0
  codeSignatureSize := fun _ => 0

/-- `__DATA` holds a word and one on an alignment of `2^p2align`. -/
def dataSegments (p2align : ℕ) : List Segment :=
  let data (n p2align : ℕ) : Chunk :=
    { id := .other n, segname := bytes "__DATA", sectname := [], size := 8, p2align }
  [{ Segment.new (bytes "__TEXT") with
      chunks := [{ id := .machHeader, segname := bytes "__TEXT", sectname := [] }] },
    { Segment.new (bytes "__DATA") with chunks := [data 0 3,data 1 p2align] },
    Segment.new linkeditName]

theorem pinned_data_checked : pinnedData.args.Checked where
  page := ⟨12,rfl⟩
  pins := by decide

theorem data_segments_bare (p2align : ℕ) : ∀ seg ∈ dataSegments p2align, isBare seg → seg.filesize = 0 := by
  intro seg hseg _
  simp only [dataSegments, List.mem_cons, List.not_mem_nil, or_false] at hseg
  rcases hseg with rfl | rfl | rfl <;> rfl

theorem segments_laid_out_pinned : ∃ placed fileoff,
    layOutSegments pinnedData (dataSegments 4) = .ok (placed,fileoff) ∧
    ∀ seg ∈ placed.dropLast, ¬ isBare seg → seg.name ≠ linkeditName → Laid seg := by
  obtain ⟨placed,fileoff,h⟩ : ∃ placed fileoff,
      layOutSegments pinnedData (dataSegments 4) = .ok (placed,fileoff) := ⟨_,_,rfl⟩
  exact ⟨placed,fileoff,h,fun seg hseg hbare hlinkedit =>
    ((segments_laid_out pinned_data_checked (data_segments_bare 4) h).1 seg hseg hbare hlinkedit).1⟩

/-- A static executable whose stack's segment an input puts a section in. -/
def stackSection : List Segment :=
  [{ Segment.new (bytes "__TEXT") with
      chunks := [{ id := .machHeader, segname := bytes "__TEXT", sectname := [] }] },
    { Segment.new unixStack with
      chunks := [{ id := .other 0, segname := unixStack, sectname := [], size := 8 }] },
    Segment.new linkeditName]

/-- A section in the stack's segment is not laid out, and a pinned segment's
later section is moved off its alignment. -/
theorem stack_and_pin_exceptions :
    (∃ placed fileoff, layOutSegments pinnedData stackSection = .ok (placed,fileoff) ∧
      ∃ seg ∈ placed.dropLast, seg.name = unixStack ∧ ∃ c ∈ seg.chunks, c.addr < seg.vmaddr) ∧
    ∃ placed fileoff, layOutSegments pinnedData (dataSegments 16) = .ok (placed,fileoff) ∧
      ∃ seg ∈ placed.dropLast, seg.name = bytes "__DATA" ∧
        ∃ c ∈ seg.chunks, ¬ 2^c.p2align ∣ c.addr := by
  refine ⟨⟨_,_,rfl,?_⟩,⟨_,_,rfl,?_⟩⟩
  · decide +kernel
  · decide +kernel

end MoldMacho.LayOutSegments
