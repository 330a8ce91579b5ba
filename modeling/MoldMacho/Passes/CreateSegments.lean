import Mathlib.Algebra.GroupWithZero.Nat
import Mathlib.Data.Prod.Lex
import Mathlib.Data.List.Sort
import MoldMacho.Chunks.Header
import MoldMacho.Lib.Runs

/-!
# Sections in the order of the load commands

The chunks are sorted by segment and by what kind of section they are, then
grouped into segments in that order, and the sections are numbered as they
come. The number is a byte.
-/

set_option autoImplicit false

namespace MoldMacho.CreateSegments
open MoldMacho.Segments MoldMacho.Chunks MoldMacho.Runs

/-- The options the order depends on. -/
structure Args where
  segmentOrder : List (List UInt8) := []
  sectionOrder : List (List UInt8 × List (List UInt8)) := []
  staticLink : Bool := false
  isKext : Bool := false
  preload : Bool := false
  encryptable : Bool := false
  pagezeroSize : ℕ := 0

def Args.withoutDyld (args : Args) : Bool := args.staticLink || args.isKext

def usizeMax : ℕ := 2^64-1

/-! The order. -/

/-- How many segment names the chunks show before this one. -/
def firstSeen (chunks : List Chunk) (name : List UInt8) : ℕ :=
  (chunks.map fun chunk => chunk.segname).eraseDups.idxOf name

def standardRank (args : Args) (name : List UInt8) : ℕ :=
  if name = bytes "__TEXT" ∨ name = bytes "__TEXT_EXEC" then 0
  else if name = bytes "__DATA_CONST" ∧ !args.withoutDyld then 1
  else if name = bytes "__AUTH_CONST" ∧ !args.staticLink then 2
  else if name = bytes "__AUTH" ∧ !args.staticLink then 3
  else if name = bytes "__DATA" then 4
  else if name = bytes "__DATA_CONST" ∧ !args.staticLink then 5
  else if name = bytes "__DATA_DIRTY" ∧ !args.withoutDyld then 5
  else 6

def segRank (args : Args) (id : ChunkId) (name : List UInt8) : ℕ :=
  if id = .machHeader ∧ args.preload then 0
  else if name = bytes "__TEXT" ∧ !args.preload then 0
  else if name = bytes "__LINKEDIT" then usizeMax
  else if name ∈ args.segmentOrder then 1+args.segmentOrder.idxOf name
  else 1+args.segmentOrder.length+standardRank args name

def sectionRank (args : Args) (chunk : Chunk) : ℕ :=
  if chunk.id = .machHeader then 0
  else if chunk.id = .codeSignature then 2^32-1
  else if args.encryptable ∧ chunk.segname = bytes "__TEXT" ∧
      chunk.sectname = bytes "__oslogstring" then 5
  else if chunk.flags &&& sectionType = sThreadLocalZerofill then 1
  else if chunk.flags &&& sAttrPureInstructions ≠ 0 then 2
  else if chunk.flags &&& sectionType = sThreadLocalRegular then 4
  else 3

def isTextSection (hdr : ChunkHeader) : Bool :=
  hdr.segname == bytes "__TEXT" && hdr.sectname == bytes "__text"

def listedSectionRank (args : Args) (hdr : ChunkHeader) : ℕ :=
  match args.sectionOrder.find? fun order => order.1 = hdr.segname with
  | none => 0
  | some order =>
    if hdr.sectname ∈ order.2 then 1+order.2.idxOf hdr.sectname
    else if !hdr.isSect || isTextSection hdr then 0
    else usizeMax

/-- The segment's part of the sort key. -/
def segmentKey (args : Args) (chunks : List Chunk) (chunk : Chunk) : ℕ ×ₗ ℕ :=
  toLex (segRank args chunk.id chunk.segname,firstSeen chunks chunk.segname)

def sortKey (args : Args) (chunks : List Chunk) (chunk : Chunk) :
    (ℕ ×ₗ ℕ) ×ₗ Bool ×ₗ ℕ ×ₗ ℕ :=
  toLex (segmentKey args chunks chunk,toLex (chunk.isZerofill,
    toLex (listedSectionRank args chunk.toChunkHeader,sectionRank args chunk)))

/-- A stable sort. -/
def sortOutputSections (args : Args) (chunks : List Chunk) : List Chunk :=
  chunks.mergeSort fun a b => sortKey args chunks a ≤ sortKey args chunks b

/-! The segments. -/

/-- A chunk goes in the last segment, or in one of its own if that has
another name. -/
def pushChunk : List Segment → Chunk → List Segment
  | [], chunk => [{ Segment.new chunk.segname with chunks := [chunk] }]
  | [seg], chunk =>
    if seg.name = chunk.segname then [{ seg with chunks := seg.chunks ++ [chunk] }]
    else [seg,{ Segment.new chunk.segname with chunks := [chunk] }]
  | seg::segs, chunk => seg::pushChunk segs chunk

/-- A -preload image's mach header lies in no segment. -/
def laidOut (args : Args) (chunk : Chunk) : Bool := !(chunk.id == .machHeader && args.preload)

/-- One step of the loop over the chunks, with the next section's number. -/
def addChunk (args : Args) (state : List Segment × UInt8) (chunk : Chunk) :
    List Segment × UInt8 :=
  if laidOut args chunk then
    if chunk.isSect then (pushChunk state.1 { chunk with sectIdx := state.2 },state.2+1)
    else (pushChunk state.1 chunk,state.2)
  else state

def pagezeroSegments (args : Args) : List Segment :=
  if args.pagezeroSize > 0 then [Segment.new pagezero] else []

def createSegments (args : Args) (chunks : List Chunk) : List Segment :=
  (chunks.foldl (addChunk args) (pagezeroSegments args,1)).1

/-- The segments of the image, and the sections as its load commands list
them. -/
def imageSegments (args : Args) (chunks : List Chunk) : List Segment :=
  createSegments args (sortOutputSections args chunks)

def sections (segments : List Segment) : List Chunk :=
  (segments.flatMap Segment.chunks).filter fun chunk => chunk.isSect

/-! Numbering. -/

/-- The chunks with the sections numbered from `n` on. -/
def numberFrom : UInt8 → List Chunk → List Chunk
  | _, [] => []
  | n, chunk::chunks =>
    if chunk.isSect then { chunk with sectIdx := n }::numberFrom (n+1) chunks
    else chunk::numberFrom n chunks

/-- A chunk but for its number. -/
def unnumbered (chunk : Chunk) : Chunk := { chunk with sectIdx := 0 }

/-- Grouping and numbering are apart. -/
theorem fold_add (args : Args) (chunks : List Chunk) (segs : List Segment) (n : UInt8) :
    (chunks.foldl (addChunk args) (segs,n)).1 =
      (numberFrom n (chunks.filter (laidOut args))).foldl pushChunk segs := by
  induction chunks generalizing segs n with
  | nil => rfl
  | cons chunk chunks ih =>
    rw [List.foldl_cons, addChunk]
    by_cases hl : laidOut args chunk
    · by_cases hs : chunk.isSect
      · simp [hl, hs, numberFrom, ih]
      · simp [hl, hs, numberFrom, ih]
    · simp [hl, ih]

theorem number_from_unnumbered (n : UInt8) (chunks : List Chunk) :
    (numberFrom n chunks).map unnumbered = chunks.map unnumbered := by
  induction chunks generalizing n with
  | nil => rfl
  | cons chunk chunks ih =>
    by_cases hs : chunk.isSect
    · simp [numberFrom, hs, ih, unnumbered]
    · simp [numberFrom, hs, ih]

/-- The number of a section is its position, in a byte. -/
theorem number_from_sections (n : UInt8) (chunks : List Chunk) (i : ℕ) {chunk : Chunk}
    (h : ((numberFrom n chunks).filter fun chunk => chunk.isSect)[i]? = some chunk) :
    chunk.sectIdx.toNat = (n.toNat+i)%256 := by
  induction chunks generalizing n i with
  | nil => simp [numberFrom] at h
  | cons head chunks ih =>
    by_cases hs : head.isSect
    · simp only [numberFrom, hs, if_true, List.filter_cons_of_pos] at h
      cases i with
      | zero =>
        obtain rfl := Option.some.inj h
        exact (Nat.mod_eq_of_lt n.toNat_lt).symm
      | succ i =>
        rw [ih (n+1) i h, UInt8.toNat_add]
        have h1 : (1 : UInt8).toNat = 1 := rfl
        omega
    · simp only [numberFrom, hs, Bool.false_eq_true, if_false] at h
      rw [List.filter_cons_of_neg (by simp [hs])] at h
      exact ih n i h

theorem number_from_count (n : UInt8) (chunks : List Chunk) :
    ((numberFrom n chunks).filter fun chunk => chunk.isSect).length =
      (chunks.filter fun chunk => chunk.isSect).length := by
  induction chunks generalizing n with
  | nil => rfl
  | cons head chunks ih =>
    by_cases hs : head.isSect
    · simp [numberFrom, hs, ih]
    · simp [numberFrom, hs, ih]

/-! Grouping. -/

theorem push_chunk_chunks (segs : List Segment) (chunk : Chunk) :
    (pushChunk segs chunk).flatMap Segment.chunks = segs.flatMap Segment.chunks ++ [chunk] := by
  fun_induction pushChunk segs chunk with
  | case1 => rfl
  | case2 => simp
  | case3 => simp
  | case4 seg segs chunk _ ih => simp [ih]

theorem push_chunk_names (segs : List Segment) (chunk : Chunk) :
    (pushChunk segs chunk).map (fun seg => seg.name) =
      pushRun (segs.map fun seg => seg.name) chunk.segname := by
  fun_induction pushChunk segs chunk with
  | case1 => rfl
  | case2 seg chunk h => simp [pushRun, h]
  | case3 seg chunk h => simp [pushRun, h, Segment.new]
  | case4 seg segs chunk h ih =>
    cases segs with
    | nil => simp at h
    | cons next segs => simp [pushRun, ih]

/-- The chunks of a segment are of its name. -/
def Own (segs : List Segment) : Prop :=
  ∀ seg ∈ segs, ∀ chunk ∈ seg.chunks, chunk.segname = seg.name

theorem push_chunk_own {segs : List Segment} (h : Own segs) (chunk : Chunk) :
    Own (pushChunk segs chunk) := by
  fun_induction pushChunk segs chunk with
  | case1 => simp [Own, Segment.new]
  | case2 seg chunk hn =>
    intro s hs c hc
    obtain rfl := List.mem_singleton.1 hs
    rcases List.mem_append.1 hc with hm | hm
    · exact h seg (by simp) c hm
    · exact List.mem_singleton.1 hm ▸ hn.symm
  | case3 seg chunk hn =>
    intro s hs c hc
    rcases List.mem_cons.1 hs with rfl | hs
    · exact h s (by simp) c hc
    · obtain rfl := List.mem_singleton.1 hs
      exact List.mem_singleton.1 hc ▸ rfl
  | case4 seg segs chunk _ ih =>
    intro s hs c hc
    rcases List.mem_cons.1 hs with rfl | hs
    · exact h s (by simp) c hc
    · exact ih (fun s' hs' => h s' (by simp [hs'])) s hs c hc

theorem fold_push (chunks : List Chunk) (segs : List Segment) :
    (chunks.foldl pushChunk segs).flatMap Segment.chunks =
      segs.flatMap Segment.chunks ++ chunks ∧
    (chunks.foldl pushChunk segs).map (fun seg => seg.name) =
      runs (chunks.map fun chunk => chunk.segname) (segs.map fun seg => seg.name) ∧
    (Own segs → Own (chunks.foldl pushChunk segs)) := by
  induction chunks generalizing segs with
  | nil => exact ⟨by simp,rfl,id⟩
  | cons chunk chunks ih =>
    obtain ⟨hchunks,hnames,hown⟩ := ih (pushChunk segs chunk)
    refine ⟨?_,?_,?_⟩
    · rw [List.foldl_cons, hchunks, push_chunk_chunks, List.append_assoc, List.singleton_append]
    · rw [List.foldl_cons, hnames, push_chunk_names]
      rfl
    · intro ho
      exact hown (push_chunk_own ho chunk)

/-! The sorted chunks. -/

/-- The chunks that go into segments, in order. -/
def laidChunks (args : Args) (chunks : List Chunk) : List Chunk :=
  (sortOutputSections args chunks).filter (laidOut args)

theorem laid_chunks_perm (args : Args) (chunks : List Chunk) :
    (laidChunks args chunks).Perm (chunks.filter (laidOut args)) :=
  (List.mergeSort_perm chunks _).filter _

theorem laid_chunks_sorted (args : Args) (chunks : List Chunk) :
    (laidChunks args chunks).Pairwise fun a b =>
      sortKey args chunks a ≤ sortKey args chunks b := by
  apply List.Pairwise.filter
  have hs : (sortOutputSections args chunks).Pairwise fun a b =>
      decide (sortKey args chunks a ≤ sortKey args chunks b) = true := by
    apply List.pairwise_mergeSort
    · intro a b c hab hbc
      rw [decide_eq_true_eq] at *
      exact hab.trans hbc
    · intro a b
      rw [Bool.or_eq_true, decide_eq_true_eq, decide_eq_true_eq]
      exact le_total _ _
  exact hs.imp fun h => of_decide_eq_true h

/-- The segment's part of the key, by the segment's name. -/
def nameKey (args : Args) (chunks : List Chunk) (name : List UInt8) : ℕ ×ₗ ℕ :=
  toLex (segRank args (.other 0) name,firstSeen chunks name)

theorem segment_key_name {args : Args} (chunks : List Chunk) {chunk : Chunk}
    (h : laidOut args chunk) : segmentKey args chunks chunk = nameKey args chunks chunk.segname := by
  have hn : ¬ (chunk.id = .machHeader ∧ args.preload) := by
    intro hp
    simp [laidOut, hp.1, hp.2] at h
  have ho : ¬ (ChunkId.other 0 = .machHeader ∧ args.preload) := by simp
  rw [segmentKey, nameKey, segRank, segRank, if_neg hn, if_neg ho]

/-- The order tells names apart. -/
theorem name_key_inj {args : Args} {chunks : List Chunk} {a b : Chunk} (ha : a ∈ chunks)
    (h : nameKey args chunks a.segname = nameKey args chunks b.segname) :
    a.segname = b.segname := by
  have h2 : firstSeen chunks a.segname = firstSeen chunks b.segname :=
    congrArg (fun key => (ofLex key).2) h
  apply (List.idxOf_inj _).1 h2
  rw [List.mem_eraseDups]
  exact List.mem_map_of_mem ha

theorem laid_chunks_mem {args : Args} {chunks : List Chunk} {chunk : Chunk} :
    chunk ∈ laidChunks args chunks ↔ chunk ∈ chunks ∧ laidOut args chunk := by
  rw [(laid_chunks_perm args chunks).mem_iff, List.mem_filter]

theorem sort_key_segment {args : Args} {chunks : List Chunk} {a b : Chunk}
    (h : sortKey args chunks a ≤ sortKey args chunks b) :
    segmentKey args chunks a ≤ segmentKey args chunks b := by
  rw [sortKey, sortKey, Prod.Lex.toLex_le_toLex] at h
  cases h with
  | inl hlt => exact hlt.le
  | inr heq => exact heq.1.le

/-- In one segment, file-backed chunks come before zero fill. -/
theorem sort_key_zerofill {args : Args} {chunks : List Chunk} {a b : Chunk}
    (h : sortKey args chunks a ≤ sortKey args chunks b)
    (hseg : segmentKey args chunks a = segmentKey args chunks b) (ha : a.isZerofill) :
    b.isZerofill := by
  rw [sortKey, sortKey, Prod.Lex.toLex_le_toLex, hseg] at h
  cases h with
  | inl hlt => exact absurd hlt (lt_irrefl _)
  | inr hle =>
    have hrest := hle.2
    rw [Prod.Lex.toLex_le_toLex, ha] at hrest
    cases hrest with
    | inl hlt => exact absurd hlt (by simp)
    | inr heq => exact heq.1.symm

/-- The names of the segments in the order of the sorted chunks. -/
def laidNames (args : Args) (chunks : List Chunk) : List (List UInt8) :=
  (laidChunks args chunks).map fun chunk => chunk.segname

theorem laid_names_sorted (args : Args) (chunks : List Chunk) :
    (laidNames args chunks).Pairwise fun a b => nameKey args chunks a ≤ nameKey args chunks b := by
  rw [laidNames, List.pairwise_map]
  apply List.Pairwise.imp_of_mem _ (laid_chunks_sorted args chunks)
  intro a b ha hb h
  rw [← segment_key_name chunks (laid_chunks_mem.1 ha).2,
    ← segment_key_name chunks (laid_chunks_mem.1 hb).2]
  exact sort_key_segment h

theorem laid_names_inj (args : Args) (chunks : List Chunk) :
    ∀ x ∈ laidNames args chunks, ∀ y ∈ laidNames args chunks,
      nameKey args chunks x = nameKey args chunks y → x = y := by
  intro x hx y hy h
  obtain ⟨a,ha,rfl⟩ := List.mem_map.1 hx
  obtain ⟨b,_,rfl⟩ := List.mem_map.1 hy
  exact name_key_inj (laid_chunks_mem.1 ha).1 h

/-- What the image allows: no chunk is of a segment named as the page zero
the linker makes, or those come before every other chunk. -/
def PagezeroFirst (args : Args) (chunks : List Chunk) : Prop :=
  args.pagezeroSize = 0 ∨ ∀ a ∈ chunks, ∀ b ∈ chunks, laidOut args a → laidOut args b →
    a.segname = pagezero → b.segname ≠ pagezero →
      segmentKey args chunks a < segmentKey args chunks b

/-- The names start with page zero, or have none, exactly when they keep one
segment for it. -/
theorem pagezero_first_names {args : Args} {chunks : List Chunk} (hp : args.pagezeroSize ≠ 0) :
    PagezeroFirst args chunks ↔
      ∀ x ∈ laidNames args chunks, ∀ y ∈ laidNames args chunks, x = pagezero → y ≠ pagezero →
        nameKey args chunks x < nameKey args chunks y := by
  constructor
  · intro h x hx y hy he hne
    obtain ⟨a,ha,rfl⟩ := List.mem_map.1 hx
    obtain ⟨b,hb,rfl⟩ := List.mem_map.1 hy
    obtain ⟨ha,hla⟩ := laid_chunks_mem.1 ha
    obtain ⟨hb,hlb⟩ := laid_chunks_mem.1 hb
    rw [← segment_key_name chunks hla, ← segment_key_name chunks hlb]
    exact h.resolve_left hp a ha b hb hla hlb he hne
  · intro h
    right
    intro a ha b hb hla hlb he hne
    rw [segment_key_name chunks hla, segment_key_name chunks hlb]
    exact h _ (List.mem_map_of_mem (laid_chunks_mem.2 ⟨ha,hla⟩)) _
      (List.mem_map_of_mem (laid_chunks_mem.2 ⟨hb,hlb⟩)) he hne

theorem runs_names_nodup (args : Args) (chunks : List Chunk) :
    (runs (laidNames args chunks) ((pagezeroSegments args).map fun seg => seg.name)).Nodup ↔
      PagezeroFirst args chunks := by
  have hsort := laid_names_sorted args chunks
  have hinj := laid_names_inj args chunks
  have hruns := runs_nodup hinj hsort
  by_cases hp : args.pagezeroSize = 0
  · have hstart : (pagezeroSegments args).map (fun seg => seg.name) = [] := by
      simp [pagezeroSegments, hp]
    rw [hstart]
    exact ⟨fun _ => .inl hp,fun _ => hruns⟩
  · have hstart : (pagezeroSegments args).map (fun seg => seg.name) = [pagezero] := by
      simp [pagezeroSegments, Nat.pos_of_ne_zero hp, Segment.new]
    rw [hstart, pagezero_first_names hp]
    cases hnames : laidNames args chunks with
    | nil => simp [runs]
    | cons name names =>
      rw [hnames] at hsort hinj hruns
      have hfirst := (List.pairwise_cons.1 hsort).1
      by_cases hz : pagezero = name
      · rw [hz, runs_join]
        constructor
        · intro _ x _ y hy hx hne
          rw [hx]
          apply lt_of_le_of_ne
          · rcases List.mem_cons.1 hy with he | hm
            · exact absurd he hne
            · exact hfirst y hm
          · intro he
            exact hne (hinj name (by simp) y hy he).symm
        · exact fun _ => hruns
      · rw [runs_start names hz, List.nodup_cons, mem_runs]
        constructor
        · intro h x hx _ _ he _
          exact absurd (.inr (he ▸ hx)) h.1
        · intro h
          refine ⟨?_,hruns⟩
          intro hm
          have hm' : pagezero ∈ name::names := by simpa using hm
          have hlt := h pagezero hm' name (by simp) rfl (Ne.symm hz)
          rcases List.mem_cons.1 hm' with he | hm
          · exact hz he
          · exact absurd (hfirst pagezero hm) (not_le.2 hlt)

/-! The segments and the numbers. -/

/-- One segment for each name with all its chunks, zero fill last in each,
and sections numbered as they are listed. -/
structure Listed (args : Args) (chunks : List Chunk) (segments : List Segment) : Prop where
  names : (segments.map fun seg => seg.name).Nodup
  own : Own segments
  whole : ((segments.flatMap Segment.chunks).map unnumbered).Perm
    ((chunks.filter (laidOut args)).map unnumbered)
  zerofill : ∀ seg ∈ segments, seg.chunks.Pairwise fun a b => a.isZerofill → b.isZerofill
  numbered : ∀ i chunk, (sections segments)[i]? = some chunk → chunk.sectIdx.toNat = i+1

theorem image_segments (args : Args) (chunks : List Chunk) :
    imageSegments args chunks =
      (numberFrom 1 (laidChunks args chunks)).foldl pushChunk (pagezeroSegments args) :=
  fold_add args _ _ _

theorem pagezero_segments_chunks (args : Args) :
    (pagezeroSegments args).flatMap Segment.chunks = [] := by
  unfold pagezeroSegments
  split <;> rfl

theorem pagezero_segments_own (args : Args) : Own (pagezeroSegments args) := by
  unfold pagezeroSegments
  split <;> simp [Own, Segment.new]

theorem image_chunks (args : Args) (chunks : List Chunk) :
    (imageSegments args chunks).flatMap Segment.chunks =
      numberFrom 1 (laidChunks args chunks) := by
  rw [image_segments, (fold_push _ _).1, pagezero_segments_chunks, List.nil_append]

theorem image_names (args : Args) (chunks : List Chunk) :
    (imageSegments args chunks).map (fun seg => seg.name) =
      runs (laidNames args chunks) ((pagezeroSegments args).map fun seg => seg.name) := by
  have hnames := congrArg (List.map fun chunk => chunk.segname)
    (number_from_unnumbered 1 (laidChunks args chunks))
  rw [List.map_map, List.map_map] at hnames
  rw [image_segments, (fold_push _ _).2.1]
  exact congrArg (runs · _) hnames

theorem image_own (args : Args) (chunks : List Chunk) : Own (imageSegments args chunks) := by
  rw [image_segments]
  exact (fold_push _ _).2.2 (pagezero_segments_own args)

theorem image_zerofill (args : Args) (chunks : List Chunk) :
    ∀ seg ∈ imageSegments args chunks,
      seg.chunks.Pairwise fun a b => a.isZerofill → b.isZerofill := by
  have hlaid : (laidChunks args chunks).Pairwise fun a b =>
      a.segname = b.segname → a.isZerofill → b.isZerofill := by
    apply List.Pairwise.imp_of_mem _ (laid_chunks_sorted args chunks)
    intro a b ha hb hle hname
    apply sort_key_zerofill hle
    rw [segment_key_name chunks (laid_chunks_mem.1 ha).2,
      segment_key_name chunks (laid_chunks_mem.1 hb).2, hname]
  have hnumbered : (numberFrom 1 (laidChunks args chunks)).Pairwise fun a b =>
      a.segname = b.segname → a.isZerofill → b.isZerofill := by
    have hmap : ((numberFrom 1 (laidChunks args chunks)).map unnumbered).Pairwise fun a b =>
        a.segname = b.segname → a.isZerofill → b.isZerofill := by
      rw [number_from_unnumbered, List.pairwise_map]
      exact hlaid
    rw [List.pairwise_map] at hmap
    exact hmap
  rw [← image_chunks, List.flatMap_def, List.pairwise_flatten] at hnumbered
  intro seg hseg
  apply List.Pairwise.imp_of_mem _ (hnumbered.1 seg.chunks (List.mem_map_of_mem hseg))
  intro a b ha hb h
  exact h ((image_own args chunks seg hseg a ha).trans (image_own args chunks seg hseg b hb).symm)

/-- The byte holds the position of every section exactly up to 255 of them. -/
theorem image_numbered (args : Args) (chunks : List Chunk) :
    (∀ i chunk, (sections (imageSegments args chunks))[i]? = some chunk →
      chunk.sectIdx.toNat = i+1) ↔
      ((chunks.filter (laidOut args)).filter fun chunk => chunk.isSect).length ≤ 255 := by
  have hone : (1 : UInt8).toNat = 1 := rfl
  have hcount := number_from_count 1 (laidChunks args chunks)
  rw [((laid_chunks_perm args chunks).filter _).length_eq] at hcount
  rw [sections, image_chunks]
  constructor
  · intro h
    by_contra hlt
    obtain ⟨chunk,hc⟩ : ∃ chunk, ((numberFrom 1 (laidChunks args chunks)).filter
        fun chunk => chunk.isSect)[255]? = some chunk :=
      ⟨_,List.getElem?_eq_getElem (by omega)⟩
    have hidx := number_from_sections 1 _ 255 hc
    rw [h 255 chunk hc, hone] at hidx
    omega
  · intro h i chunk hc
    obtain ⟨hi,_⟩ := List.getElem?_eq_some_iff.1 hc
    rw [number_from_sections 1 _ i hc, hone]
    omega

/-- The segments and the section numbers are right exactly when there are at
most 255 sections and no input shares a segment name with page zero. -/
theorem sections_listed (args : Args) (chunks : List Chunk) :
    Listed args chunks (imageSegments args chunks) ↔
      ((chunks.filter (laidOut args)).filter fun chunk => chunk.isSect).length ≤ 255 ∧
      PagezeroFirst args chunks := by
  constructor
  · intro h
    constructor
    · exact (image_numbered args chunks).1 h.numbered
    · rw [← runs_names_nodup, ← image_names]
      exact h.names
  · intro h
    constructor
    · rw [image_names, runs_names_nodup]
      exact h.2
    · exact image_own args chunks
    · rw [image_chunks, number_from_unnumbered]
      exact (laid_chunks_perm args chunks).map unnumbered
    · exact image_zerofill args chunks
    · exact (image_numbered args chunks).2 h.1

/-- `n` sections of __DATA. -/
def dataSections (n : ℕ) : List Chunk :=
  (List.range n).map fun i =>
    { segname := bytes "__DATA", sectname := bytes "__data", id := .other i }

/-- The 256th section has no number, and a section of a segment __PAGEZERO
gets a second segment of that name. -/
theorem sections_listed_256 :
    ¬ Listed {} (dataSections 256) (imageSegments {} (dataSections 256)) ∧
    ¬ (let chunks := [{ segname := bytes "__TEXT", sectname := bytes "__text", id := .other 0 },
        { segname := bytes "__PAGEZERO", sectname := bytes "__s", id := .other 1 }]
      Listed { pagezeroSize := 2^32 } chunks (imageSegments { pagezeroSize := 2^32 } chunks)) := by
  constructor
  · intro h
    have hcount := (image_numbered {} (dataSections 256)).1 h.numbered
    have hall : ((dataSections 256).filter (laidOut {})).filter (fun chunk => chunk.isSect) =
        dataSections 256 := by
      rw [List.filter_filter, List.filter_eq_self]
      simp [dataSections, laidOut]
    rw [hall, dataSections, List.length_map, List.length_range] at hcount
    omega
  · intro h
    have hnames := h.names
    rw [image_names, runs_names_nodup] at hnames
    have hlt := hnames.resolve_left (by decide)
      { segname := bytes "__PAGEZERO", sectname := bytes "__s", id := .other 1 } (by simp)
      { segname := bytes "__TEXT", sectname := bytes "__text", id := .other 0 } (by simp)
      (by decide) (by decide) (by decide) (by decide)
    revert hlt
    decide

end MoldMacho.CreateSegments
