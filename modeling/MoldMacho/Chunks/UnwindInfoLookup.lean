import Mathlib.Algebra.BigOperators.Ring.List
import MoldMacho.Chunks.UnwindInfo
import MoldMacho.Lib.Lists

/-!
# Looking up the compact unwind table

The unwinder's side of the table: from the bytes, the encoding and the LSDA
of the function that covers an address. They are those of the last record at
or before the address.
-/

set_option autoImplicit false

namespace MoldMacho.UnwindInfo
open MoldMacho.InputSections MoldMacho.Opcodes MoldMacho.Bytes MoldMacho.Lists MoldMacho.Lookup

/-! The reader. -/

def readRow (buf : List UInt8) (off : ℕ) : Option IndexRow := do
  let first ← readLe 4 buf off
  let page ← readLe 4 buf (off+4)
  let lsda ← readLe 4 buf (off+8)
  some ⟨first,page,lsda⟩

/-- The rows but the last, each with where its LSDA rows end. -/
def rowSpans : List IndexRow → List (IndexRow × ℕ)
  | row::next::rows => (row,next.lsda)::rowSpans (next::rows)
  | _ => []

/-- An encoding by its index: the common ones, then the page's. -/
def readEncoding (buf : List UInt8) (encodings idx : ℕ) : Option ℕ := do
  let commonOff ← readLe 4 buf 4
  let common ← readLe 4 buf 8
  if idx < common then readLe 4 buf (commonOff+idx*4)
  else readLe 4 buf (encodings+(idx-common)*4)

/-- The last entry of a row's page at or before an image offset: its function
and its encoding. -/
def findEntry (buf : List UInt8) (row : IndexRow) (pc : ℕ) : Option (ℕ × ℕ) := do
  let kind ← readLe 4 buf row.page
  if kind ≠ unwindSecondLevelCompressed then none
  else
    let entries ← readLe 2 buf (row.page+4)
    let count ← readLe 2 buf (row.page+6)
    let encodings ← readLe 2 buf (row.page+8)
    let words ← (List.range count).mapM fun j => readLe 4 buf (row.page+entries+j*4)
    let word ← lastAt (fun word => row.first+word%2^24) pc words
    let encoding ← readEncoding buf (row.page+encodings) (word/2^24)
    some (row.first+word%2^24,encoding)

def readLsdaRow (buf : List UInt8) (off : ℕ) : Option (ℕ × ℕ) := do
  let func ← readLe 4 buf off
  let lsda ← readLe 4 buf (off+4)
  some (func,lsda)

/-- The LSDA of a function, if one of the rows in a range is its. -/
def findLsda (buf : List UInt8) (lo hi func : ℕ) : Option (Option ℕ) := do
  let rows ← (List.range ((hi-lo)/8)).mapM fun j => readLsdaRow buf (lo+j*8)
  some ((rows.find? fun row => row.1 = func).map Prod.snd)

/-- The encoding and the LSDA for an image offset. -/
def lookup (buf : List UInt8) (pc : ℕ) : Option (ℕ × Option ℕ) := do
  let page1 ← readLe 4 buf 20
  let count ← readLe 4 buf 24
  let rows ← (List.range count).mapM fun j => readRow buf (page1+j*12)
  let stop ← rows.getLast?
  if stop.first ≤ pc then none
  else
    let row ← lastAt (fun row => row.1.first) pc (rowSpans rows)
    let entry ← findEntry buf row.1 pc
    let lsda ← findLsda buf row.1.lsda row.2 entry.1
    some (entry.2,lsda)

/-! Image offsets. -/

theorem image_off_lt (img : Placement) (addr : ℕ) : imageOff img addr < 2^32 :=
  Nat.mod_lt _ (by decide)

theorem image_off {img : Placement} {addr : ℕ} (hlo : img.base ≤ addr)
    (hhi : addr < img.base+2^32) : imageOff img addr = addr-img.base := by
  unfold imageOff wrappingSub
  omega

/-! An entry's fields. -/

theorem entry_fields {img : Placement} {page : Page} (hf : page.Fits img) {record : UnwindRecord}
    (hr : record ∈ page.records) :
    page.entry img record % 2^24 = funcAddr img record - page.first img ∧
    page.entry img record / 2^24 = page.encodings.idxOf record.encoding ∧
    page.entry img record < 2^32 := by
  have ho := hf.offset record hr
  have hi := hf.index record hr
  have hm : (funcAddr img record - page.first img) % 2^32 = funcAddr img record - page.first img :=
    Nat.mod_eq_of_lt (by omega)
  rw [Page.entry, hm, Nat.or_comm, ← Nat.shiftLeft_add_eq_or_of_lt ho, Nat.shiftLeft_eq]
  omega

/-! The rows of the index. -/

/-- The pages, each with where it and its LSDA rows are. -/
def placed (img : Placement) (page2 lsda : ℕ) : List Page → List (Page × ℕ × ℕ)
  | [] => []
  | page::pages =>
    (page,page2,lsda)::placed img (page2+(encodePage img page).page2.length)
      (lsda+(encodePage img page).lsda.length) pages

def placedRow (img : Placement) (x : Page × ℕ × ℕ) : IndexRow :=
  ⟨imageOff img (x.1.first img),x.2.1,x.2.2⟩

theorem placed_fst (img : Placement) (page2 lsda : ℕ) (pages : List Page) :
    (placed img page2 lsda pages).map Prod.fst = pages := by
  induction pages generalizing page2 lsda with
  | nil => rfl
  | cons page pages ih => simp [placed, ih]

theorem index_rows_head (stop page2 lsda : ℕ) (outs : List EncodedPage) :
    ∃ next rows, indexRows stop page2 lsda outs = next::rows ∧ next.lsda = lsda := by
  cases outs with
  | nil => exact ⟨_,_,rfl,rfl⟩
  | cons out outs => exact ⟨_,_,rfl,rfl⟩

theorem index_rows_placed (img : Placement) (stop page2 lsda : ℕ) (pages : List Page) :
    ∃ last, last.first = stop ∧ last.page = 0 ∧
      last.lsda = lsda+(pages.flatMap fun page => (encodePage img page).lsda).length ∧
      indexRows stop page2 lsda (pages.map (encodePage img)) =
        (placed img page2 lsda pages).map (placedRow img) ++ [last] := by
  induction pages generalizing page2 lsda with
  | nil => exact ⟨⟨stop,0,lsda⟩,rfl,rfl,by simp,rfl⟩
  | cons page pages ih =>
    obtain ⟨last,hf,hp,hl,he⟩ := ih (page2+(encodePage img page).page2.length)
      (lsda+(encodePage img page).lsda.length)
    refine ⟨last,hf,hp,?_,?_⟩
    · rw [hl, List.flatMap_cons, List.length_append, Nat.add_assoc]
    · rw [List.map_cons, indexRows, he]
      rfl

theorem row_spans_placed (img : Placement) (stop page2 lsda : ℕ) (pages : List Page) :
    rowSpans (indexRows stop page2 lsda (pages.map (encodePage img))) =
      (placed img page2 lsda pages).map fun x =>
        (placedRow img x,x.2.2+(encodePage img x.1).lsda.length) := by
  induction pages generalizing page2 lsda with
  | nil => rfl
  | cons page pages ih =>
    have hi := ih (page2+(encodePage img page).page2.length)
      (lsda+(encodePage img page).lsda.length)
    obtain ⟨next,rows,hrows,hlsda⟩ := index_rows_head stop
      (page2+(encodePage img page).page2.length) (lsda+(encodePage img page).lsda.length)
      (pages.map (encodePage img))
    rw [List.map_cons, indexRows, placed, List.map_cons, ← hi, hrows, rowSpans, hlsda]
    rfl

/-- Each page and its LSDA rows are where its row says. -/
theorem placed_bytes (img : Placement) {buf c d : List UInt8} {page2 lsda : ℕ} {pages : List Page}
    (hp : page2 ≤ buf.length)
    (hpd : buf.drop page2 = (pages.flatMap fun page => (encodePage img page).page2) ++ c)
    (hl : lsda ≤ buf.length)
    (hld : buf.drop lsda = (pages.flatMap fun page => (encodePage img page).lsda) ++ d) :
    ∀ x ∈ placed img page2 lsda pages,
      (x.2.1 ≤ buf.length ∧ ∃ c', buf.drop x.2.1 = (encodePage img x.1).page2 ++ c') ∧
      (x.2.2 ≤ buf.length ∧ ∃ d', buf.drop x.2.2 = (encodePage img x.1).lsda ++ d') := by
  induction pages generalizing page2 lsda with
  | nil => simp [placed]
  | cons page pages ih =>
    rw [List.flatMap_cons, List.append_assoc] at hpd hld
    obtain ⟨hp',hpd'⟩ := drop_next hp hpd
    obtain ⟨hl',hld'⟩ := drop_next hl hld
    intro x hx
    cases List.mem_cons.1 hx with
    | inl he => exact he ▸ ⟨⟨hp,_,hpd⟩,⟨hl,_,hld⟩⟩
    | inr hm => exact ih hp' hpd' hl' hld' x hm

/-! A page, read. -/

/-- Addresses that an image offset holds, from a page's first function on. -/
structure Page.Placed (img : Placement) (page : Page) : Prop where
  fits : page.Fits img
  sorted : ∀ record ∈ page.records, page.first img ≤ funcAddr img record
  range : ∀ record ∈ page.records,
    img.base ≤ funcAddr img record ∧ funcAddr img record < img.base+2^32

theorem Page.Placed.first_range {img : Placement} {page : Page} (h : page.Placed img) :
    img.base ≤ page.first img ∧ page.first img < img.base+2^32 :=
  h.range _ (List.head_mem page.nonempty)

/-- The header of a page, and the two runs after it. -/
theorem read_page {img : Placement} {page : Page} (hf : page.Fits img) {buf c : List UInt8} {off : ℕ}
    (hoff : off ≤ buf.length) (hd : buf.drop off = (encodePage img page).page2 ++ c) :
    readLe 4 buf off = some unwindSecondLevelCompressed ∧
    readLe 2 buf (off+4) = some pageHdr ∧
    readLe 2 buf (off+6) = some page.records.length ∧
    readLe 2 buf (off+8) = some (pageHdr+page.records.length*4) ∧
    (off+pageHdr ≤ buf.length ∧
      ∃ c', buf.drop (off+pageHdr) = (page.records.map (page.entry img)).flatMap (toLe 4) ++ c') ∧
    off+(pageHdr+page.records.length*4) ≤ buf.length ∧
      ∃ c', buf.drop (off+(pageHdr+page.records.length*4)) =
        (page.encodings.map UInt32.toNat).flatMap (toLe 4) ++ c' := by
  have hsize := hf.size
  simp only [pageHdr, pageSize] at hsize
  simp only [encodePage, List.append_assoc] at hd
  obtain ⟨hkind,h1,hd1⟩ := read_field hoff hd
  obtain ⟨hentries,h2,hd2⟩ := read_field h1 hd1
  obtain ⟨hcount,h3,hd3⟩ := read_field h2 hd2
  obtain ⟨hencs,h4,hd4⟩ := read_field h3 hd3
  obtain ⟨_,h5,hd5⟩ := read_field h4 hd4
  obtain ⟨h6,hd6⟩ := drop_next h5 hd5
  have hlen : ((page.records.map (page.entry img)).flatMap (toLe 4)).length =
      page.records.length*4 := by
    simp [List.length_flatMap, Function.comp_def]
  rw [hlen] at h6 hd6
  refine ⟨hkind,hentries,?_,?_,⟨h5,_,hd5⟩,by rw [pageHdr]; omega,c,?_⟩
  · rw [hcount, Nat.mod_eq_of_lt (by omega)]
  · rw [hencs, Nat.mod_eq_of_lt (by rw [pageHdr]; omega)]
  · rw [← Nat.add_assoc]
    exact hd6

/-- The entry found on a page is that of the last record at or before the
address. -/
theorem find_entry {img : Placement} {page : Page} (h : page.Placed img) {buf c : List UInt8}
    {off lsda commonOff : ℕ} (hoff : off ≤ buf.length)
    (hd : buf.drop off = (encodePage img page).page2 ++ c)
    (hcommon : readLe 4 buf 4 = some commonOff ∧ readLe 4 buf 8 = some 0)
    {pc : ℕ} {record : UnwindRecord} (hpc : img.base ≤ pc)
    (hr : lastAt (funcAddr img) pc page.records = some record) :
    findEntry buf (placedRow img (page,off,lsda)) (pc-img.base) =
      some (imageOff img (funcAddr img record),record.encoding.toNat) := by
  obtain ⟨hkind,hentries,hcount,hencs,⟨hwo,_,hwd⟩,heo,_,hed⟩ := read_page h.fits hoff hd
  obtain ⟨hmem,hle⟩ := last_at_mem hr
  obtain ⟨hflo,hfhi⟩ := h.first_range
  have hwords := read_le_run 4 (page.records.map (page.entry img)) hwo hwd
  have hmod : (page.records.map (page.entry img)).map (· % 256^4) =
      page.records.map (page.entry img) := by
    rw [List.map_map]
    apply List.map_congr_left
    intro r hm
    exact Nat.mod_eq_of_lt (entry_fields h.fits hm).2.2
  rw [List.length_map, hmod] at hwords
  have hfunc : ∀ r ∈ page.records,
      imageOff img (page.first img) + page.entry img r % 2^24 = funcAddr img r - img.base := by
    intro r hm
    have hs := h.sorted r hm
    rw [image_off hflo hfhi, (entry_fields h.fits hm).1]
    omega
  have hkey : lastAt (fun r => imageOff img (page.first img)+page.entry img r%2^24) (pc-img.base)
      page.records = lastAt (funcAddr img) pc page.records := by
    apply last_at_congr
    intro r hm
    have hlo := (h.range r hm).1
    rw [hfunc r hm]
    omega
  have hlast : lastAt (fun word => imageOff img (page.first img)+word%2^24) (pc-img.base)
      (page.records.map (page.entry img)) = some (page.entry img record) := by
    rw [last_at_map, hkey, hr, Option.map_some]
  obtain ⟨_,hidx,_⟩ := entry_fields h.fits hmem
  have hget : (page.encodings.map UInt32.toNat)[page.encodings.idxOf record.encoding]? =
      some record.encoding.toNat := by
    rw [List.getElem?_map, List.getElem?_idxOf (page.listed record hmem)]
    rfl
  obtain ⟨hre,_,hrd⟩ := read_run_at (to_le_length 4) hget heo hed
  have henc : readEncoding buf (off+(pageHdr+page.records.length*4))
      (page.entry img record / 2^24) = some record.encoding.toNat := by
    have hv := (read_field hre hrd).1
    have hlt : record.encoding.toNat < 256^4 := record.encoding.toNat_lt
    rw [Nat.mod_eq_of_lt hlt] at hv
    simp only [readEncoding, hcommon.1, hcommon.2, hidx]
    simpa using hv
  rw [image_off (h.range record hmem).1 (h.range record hmem).2, ← hfunc record hmem]
  simp only [findEntry, placedRow, hkind, hentries, hcount, hencs, hwords, hlast, henc,
    Option.bind_eq_bind, Option.bind_some, ne_eq, not_true_eq_false, if_false]

/-! LSDAs. -/

/-- Of the records at one address, only the last may have an LSDA. -/
def LsdaLast (img : Placement) (records : List UnwindRecord) : Prop :=
  records.Pairwise fun r s => funcAddr img r = funcAddr img s → r.lsda = none

theorem lsda_rows_length (img : Placement) (records : List UnwindRecord) :
    (lsdaRows img records).length = (records.filter fun record => record.lsda.isSome).length := by
  induction records with
  | nil => rfl
  | cons record records ih =>
    cases h : record.lsda with
    | none => simpa [lsdaRows, h] using ih
    | some lsda => simpa [lsdaRows, h] using ih

/-- A record found is the only one at its address with an LSDA. -/
theorem lsda_unique {img : Placement} {records : List UnwindRecord} (hl : LsdaLast img records)
    {pc : ℕ} {record : UnwindRecord} (hr : lastAt (funcAddr img) pc records = some record)
    {other : UnwindRecord} (ho : other ∈ records) (ha : funcAddr img other = funcAddr img record)
    (hsome : other.lsda ≠ none) : other = record := by
  obtain ⟨l₁,l₂,rfl,hgt⟩ := last_at_split hr
  have hle := (last_at_mem hr).2
  rw [LsdaLast, List.pairwise_append] at hl
  rcases List.mem_append.1 ho with hm | hm
  · exact absurd (hl.2.2 other hm record (by simp) ha) hsome
  · rcases List.mem_cons.1 hm with he | hm
    · exact he
    · exact absurd (hgt other hm) (by rw [ha]; exact not_lt.2 hle)

/-- The row of a record's function, if it has an LSDA. -/
theorem lsda_rows_find {img : Placement} {records : List UnwindRecord} (hl : LsdaLast img records)
    (hrange : ∀ record ∈ records,
      img.base ≤ funcAddr img record ∧ funcAddr img record < img.base+2^32)
    {pc : ℕ} {record : UnwindRecord} (hr : lastAt (funcAddr img) pc records = some record) :
    ((lsdaRows img records).find? fun row =>
      row.1 = imageOff img (funcAddr img record)).map Prod.snd =
        record.lsda.map fun lsda => imageOff img (lsdaAddr img lsda) := by
  have hmem := (last_at_mem hr).1
  have hsame : ∀ other ∈ records, other.lsda ≠ none →
      imageOff img (funcAddr img other) = imageOff img (funcAddr img record) → other = record := by
    intro other ho hsome heq
    obtain ⟨hlo,hhi⟩ := hrange other ho
    obtain ⟨hlo',hhi'⟩ := hrange record hmem
    rw [image_off hlo hhi, image_off hlo' hhi'] at heq
    exact lsda_unique hl hr ho (by omega) hsome
  cases hf : (lsdaRows img records).find? fun row =>
      row.1 = imageOff img (funcAddr img record) with
  | some row =>
    have hrow := List.mem_of_find?_eq_some hf
    have hfst := List.find?_some hf
    rw [lsdaRows, List.mem_filterMap] at hrow
    obtain ⟨other,ho,hrow⟩ := hrow
    obtain ⟨lsda,hlsda,rfl⟩ := Option.map_eq_some_iff.1 hrow
    obtain rfl := hsame other ho (by simp [hlsda]) (by simpa using hfst)
    simp [hlsda]
  | none =>
    cases hlsda : record.lsda with
    | none => rw [Option.map_none, Option.map_none]
    | some lsda =>
      have hrow : (imageOff img (funcAddr img record),imageOff img (lsdaAddr img lsda)) ∈
          lsdaRows img records := by
        rw [lsdaRows, List.mem_filterMap]
        exact ⟨record,hmem,by rw [hlsda, Option.map_some]⟩
      have hne := List.find?_eq_none.1 hf _ hrow
      exact absurd (decide_eq_true rfl) hne

theorem read_lsda_row {buf c : List UInt8} {off : ℕ} {row : ℕ × ℕ} (h1 : row.1 < 2^32)
    (h2 : row.2 < 2^32) (hoff : off ≤ buf.length) (hd : buf.drop off = lsdaRow row ++ c) :
    readLsdaRow buf off = some row := by
  rw [lsdaRow, List.append_assoc] at hd
  obtain ⟨hfunc,hle,hd'⟩ := read_field hoff hd
  obtain ⟨hlsda,_,_⟩ := read_field hle hd'
  have h1' : row.1 < 256^4 := h1
  have h2' : row.2 < 256^4 := h2
  rw [Nat.mod_eq_of_lt h1'] at hfunc
  rw [Nat.mod_eq_of_lt h2'] at hlsda
  simp only [readLsdaRow, hfunc, hlsda, Option.bind_eq_bind, Option.bind_some]

theorem find_lsda {img : Placement} {page : Page} {buf c : List UInt8} {off : ℕ}
    (hoff : off ≤ buf.length) (hd : buf.drop off = (encodePage img page).lsda ++ c) (func : ℕ) :
    findLsda buf off (off+(encodePage img page).lsda.length) func =
      some (((lsdaRows img page.records).find? fun row => row.1 = func).map Prod.snd) := by
  have hlen : (encodePage img page).lsda.length = (lsdaRows img page.records).length*8 := by
    simp [encodePage, List.length_flatMap, lsdaRow]
  have hrows : (List.range (lsdaRows img page.records).length).mapM
      (fun j => readLsdaRow buf (off+j*8)) = some ((lsdaRows img page.records).map id) := by
    apply read_run _ _ _ hoff hd
    · intro row
      simp [lsdaRow]
    · intro row hrow off c ho hdrop
      rw [lsdaRows, List.mem_filterMap] at hrow
      obtain ⟨record,_,hrow⟩ := hrow
      obtain ⟨lsda,_,rfl⟩ := Option.map_eq_some_iff.1 hrow
      exact read_lsda_row (image_off_lt _ _) (image_off_lt _ _) ho hdrop
  have hcount : (off+(encodePage img page).lsda.length-off)/8 =
      (lsdaRows img page.records).length := by
    rw [hlen]
    omega
  rw [List.map_id] at hrows
  rw [findLsda, hcount, hrows]
  rfl

/-! The table, read. -/

section Table
variable (img : Placement) (records : List UnwindRecord) (personalities : List ℕ)
  (pages : List Page) (stop : ℕ)

def page1Off : ℕ := 28+personalities.length*4

def lsdaOff : ℕ := page1Off personalities+(pages.length+1)*12

def page2Off : ℕ :=
  lsdaOff personalities pages+(records.filter fun record => record.lsda.isSome).length*8

/-- The rows of the first-level index. -/
def tableRows : List IndexRow :=
  indexRows (imageOff img (stop+1)) (page2Off records personalities pages)
    (lsdaOff personalities pages) (pages.map (encodePage img))

/-- The pages, where the index says they are. -/
def tablePages : List (Page × ℕ × ℕ) :=
  placed img (page2Off records personalities pages) (lsdaOff personalities pages) pages

theorem table_rows_length :
    (tableRows img records personalities pages stop).length = pages.length+1 := by
  obtain ⟨last,_,_,_,he⟩ := index_rows_placed img (imageOff img (stop+1))
    (page2Off records personalities pages) (lsdaOff personalities pages) pages
  have hlen := congrArg List.length
    (placed_fst img (page2Off records personalities pages) (lsdaOff personalities pages) pages)
  rw [List.length_map] at hlen
  rw [tableRows, he, List.length_append, List.length_map, hlen, List.length_singleton]

theorem row_bytes_length (row : IndexRow) : row.bytes.length = 12 := by
  simp [IndexRow.bytes]

/-- Where the parts of the table start. -/
theorem table_parts (hrec : pages.flatMap Page.records = records)
    {buf : List UInt8} (hbuf : buf = writeTable img records personalities pages stop)
    (hlen : buf.length < 2^32) :
    readLe 4 buf 4 = some 28 ∧ readLe 4 buf 8 = some 0 ∧
    readLe 4 buf 20 = some (page1Off personalities) ∧
    readLe 4 buf 24 = some (pages.length+1) ∧
    (page1Off personalities ≤ buf.length ∧ ∃ c, buf.drop (page1Off personalities) =
      (tableRows img records personalities pages stop).flatMap IndexRow.bytes ++ c) ∧
    (lsdaOff personalities pages ≤ buf.length ∧ ∃ c, buf.drop (lsdaOff personalities pages) =
      (pages.flatMap fun page => (encodePage img page).lsda) ++ c) ∧
    page2Off records personalities pages ≤ buf.length ∧
      buf.drop (page2Off records personalities pages) =
        (pages.flatMap fun page => (encodePage img page).page2) ++ [] := by
  have hd : buf.drop 0 = writeTable img records personalities pages stop := by
    rw [List.drop_zero, hbuf]
  simp only [writeTable, List.append_assoc] at hd
  obtain ⟨_,h1,hd1⟩ := read_field (Nat.zero_le _) hd
  obtain ⟨hcommonOff,h2,hd2⟩ := read_field h1 hd1
  obtain ⟨hcommon,h3,hd3⟩ := read_field h2 hd2
  obtain ⟨_,h4,hd4⟩ := read_field h3 hd3
  obtain ⟨_,h5,hd5⟩ := read_field h4 hd4
  obtain ⟨hpage1,h6,hd6⟩ := read_field h5 hd5
  obtain ⟨hcount,h7,hd7⟩ := read_field h6 hd6
  obtain ⟨h8,hd8⟩ := drop_next h7 hd7
  have hcells : (personalities.flatMap fun _ => toLe 4 0).length = personalities.length*4 := by
    simp [List.length_flatMap]
  rw [hcells, show 0+4+4+4+4+4+4+4 = 28 by decide, ← page1Off] at h8 hd8
  have hrows : ((tableRows img records personalities pages stop).flatMap IndexRow.bytes).length =
      (pages.length+1)*12 := by
    simp [List.length_flatMap, row_bytes_length, table_rows_length]
  have hlsdas : ((pages.map (encodePage img)).flatMap EncodedPage.lsda).length =
      (records.filter fun record => record.lsda.isSome).length*8 := by
    rw [← lsda_rows_length img, ← hrec, lsdaRows, List.filterMap_flatMap]
    simp [List.length_flatMap, encodePage, lsdaRow, lsdaRows, Function.comp_def, List.sum_map_mul_right]
  obtain ⟨h9,hd9⟩ := drop_next h8 hd8
  rw [← lsdaOff, ← page2Off, ← tableRows] at hd8
  rw [← lsdaOff, ← page2Off, ← tableRows, hrows, ← lsdaOff] at h9 hd9
  obtain ⟨h10,hd10⟩ := drop_next h9 hd9
  rw [hlsdas, ← page2Off] at h10 hd10
  rw [List.flatMap_map] at hd9 hd10
  have hbound : page1Off personalities < 2^32 ∧ pages.length+1 < 2^32 := by
    rw [lsdaOff] at h9
    omega
  refine ⟨hcommonOff,hcommon,?_,?_,⟨h8,_,hd8⟩,⟨h9,_,hd9⟩,h10,?_⟩
  · rw [← page1Off, Nat.mod_eq_of_lt (hbound.1.trans_le (by decide))] at hpage1
    exact hpage1
  · rw [Nat.mod_eq_of_lt (hbound.2.trans_le (by decide))] at hcount
    exact hcount
  · rw [List.append_nil]
    exact hd10

/-- Every row of the index, and the bytes it points to. -/
theorem table_rows (hrec : pages.flatMap Page.records = records)
    {buf : List UInt8} (hbuf : buf = writeTable img records personalities pages stop)
    (hlen : buf.length < 2^32) :
    (List.range (pages.length+1)).mapM (fun j => readRow buf (page1Off personalities+j*12)) =
      some (tableRows img records personalities pages stop) := by
  obtain ⟨_,_,_,_,⟨h1,_,hd1⟩,⟨h2,_,hd2⟩,h3,hd3⟩ :=
    table_parts img records personalities pages stop hrec hbuf hlen
  have hplaced := placed_bytes img h3 hd3 h2 hd2
  obtain ⟨last,hfirst,hpage,hlsda,hrows⟩ := index_rows_placed img (imageOff img (stop+1))
    (page2Off records personalities pages) (lsdaOff personalities pages) pages
  have hlast : last.lsda ≤ buf.length := by
    rw [hlsda]
    exact (drop_next h2 hd2).1
  have hsmall : ∀ row ∈ tableRows img records personalities pages stop,
      row.first < 256^4 ∧ row.page < 256^4 ∧ row.lsda < 256^4 := by
    intro row hrow
    have h256 : 256^4 = 2^32 := by decide
    rw [h256]
    rw [tableRows, hrows, List.mem_append, List.mem_singleton] at hrow
    cases hrow with
    | inl hm =>
      obtain ⟨x,hx,rfl⟩ := List.mem_map.1 hm
      obtain ⟨⟨hp,_⟩,⟨hl,_⟩⟩ := hplaced x hx
      exact ⟨image_off_lt _ _,hp.trans_lt hlen,hl.trans_lt hlen⟩
    | inr he =>
      rw [he, hfirst, hpage]
      exact ⟨image_off_lt _ _,by decide,hlast.trans_lt hlen⟩
  have hread : (List.range (tableRows img records personalities pages stop).length).mapM
      (fun j => readRow buf (page1Off personalities+j*12)) =
        some ((tableRows img records personalities pages stop).map id) := by
    apply read_run row_bytes_length _ _ h1 hd1
    intro row hrow off c hoff hd
    obtain ⟨hf,hp,hl⟩ := hsmall row hrow
    simp only [IndexRow.bytes, List.append_assoc] at hd
    obtain ⟨hrf,ho1,hd1⟩ := read_field hoff hd
    obtain ⟨hrp,ho2,hd2⟩ := read_field ho1 hd1
    obtain ⟨hrl,_,_⟩ := read_field ho2 hd2
    rw [Nat.mod_eq_of_lt hf] at hrf
    rw [Nat.mod_eq_of_lt hp] at hrp
    rw [Nat.mod_eq_of_lt hl] at hrl
    rw [Nat.add_assoc] at hrl
    simp only [readRow, hrf, hrp, hrl, Option.bind_eq_bind, Option.bind_some]
    rfl
  rw [table_rows_length, List.map_id] at hread
  exact hread

/-- What is found in the table is what a page has for the last record at or
before the address. -/
theorem lookup_table (hrec : pages.flatMap Page.records = records)
    {buf : List UInt8} (hbuf : buf = writeTable img records personalities pages stop)
    (hlen : buf.length < 2^32) (hpages : ∀ page ∈ pages, page.Placed img) {pc : ℕ}
    {record : UnwindRecord} (hpc : img.base ≤ pc) (hend : pc-img.base < imageOff img (stop+1))
    (hr : lastAt (funcAddr img) pc records = some record) :
    ∃ page ∈ pages, lastAt (funcAddr img) pc page.records = some record ∧
      lookup buf (pc-img.base) = some (record.encoding.toNat,
        ((lsdaRows img page.records).find? fun row =>
          row.1 = imageOff img (funcAddr img record)).map Prod.snd) := by
  obtain ⟨hcommonOff,hcommon,hpage1,hcount,_,⟨h2,_,hd2⟩,h3,hd3⟩ :=
    table_parts img records personalities pages stop hrec hbuf hlen
  have hrows := table_rows img records personalities pages stop hrec hbuf hlen
  obtain ⟨last,hfirst,_,_,hsplit⟩ := index_rows_placed img (imageOff img (stop+1))
    (page2Off records personalities pages) (lsdaOff personalities pages) pages
  have hstop : (tableRows img records personalities pages stop).getLast? = some last := by
    rw [tableRows, hsplit, List.getLast?_concat]
  -- the page
  have htwo := last_at_pages (funcAddr img) pc Page.records (Page.first img) pages
    (fun page hp => (hpages page hp).sorted)
    (fun page _ => ⟨_,List.head_mem page.nonempty,rfl⟩)
  rw [hrec, hr] at htwo
  obtain ⟨page,hpage,hrpage⟩ := Option.bind_eq_some_iff.1 htwo.symm
  obtain ⟨hmem,_⟩ := last_at_mem hpage
  -- its row
  rw [← placed_fst img (page2Off records personalities pages) (lsdaOff personalities pages) pages,
    last_at_map, ← tablePages] at hpage
  obtain ⟨x,hx,hxp⟩ := Option.map_eq_some_iff.1 hpage
  have hxmem := (last_at_mem hx).1
  have hkey : lastAt (fun x => imageOff img (x.1.first img)) (pc-img.base)
      (tablePages img records personalities pages) = some x := by
    rw [← hx]
    apply last_at_congr
    intro y hy
    have hy' : y.1 ∈ pages := by
      have hm := List.mem_map_of_mem (f := Prod.fst) hy
      rwa [tablePages, placed_fst] at hm
    obtain ⟨hlo,hhi⟩ := (hpages y.1 hy').first_range
    rw [image_off hlo hhi]
    omega
  have hrow : lastAt (fun row => row.1.first) (pc-img.base)
      (rowSpans (tableRows img records personalities pages stop)) =
        some (placedRow img x,x.2.2+(encodePage img x.1).lsda.length) := by
    rw [tableRows, row_spans_placed, last_at_map]
    simp only [placedRow]
    rw [← tablePages, hkey]
    rfl
  obtain ⟨⟨hp1,_,hp2⟩,⟨hl1,_,hl2⟩⟩ := placed_bytes img h3 hd3 h2 hd2 x hxmem
  subst hxp
  have hentry : findEntry buf (placedRow img x) (pc-img.base) = _ :=
    find_entry (hpages x.1 hmem) hp1 hp2 ⟨hcommonOff,hcommon⟩ hpc hrpage
  have hlsda := find_lsda hl1 hl2 (imageOff img (funcAddr img record))
  refine ⟨x.1,hmem,hrpage,?_⟩
  have hlt : ¬ last.first ≤ pc-img.base := by
    rw [hfirst]
    exact not_le.2 hend
  simp only [lookup, hpage1, hcount, hrows, hstop, Option.bind_eq_bind, Option.bind_some, hlt,
    if_false, hrow, hentry]
  rw [placedRow, hlsda]
  rfl

end Table

/-! The lookup and the records. -/

/-- Where the table of the records ends. -/
def tableEnd (img : Placement) (records : List UnwindRecord) : ℕ :=
  match records.getLast? with
  | none => 0
  | some last => img.addr last.isec + img.size last.isec

/-- Functions, LSDAs and an end that 32-bit image offsets hold. -/
structure InImage (img : Placement) (records : List UnwindRecord) : Prop where
  funcs : ∀ record ∈ records,
    img.base ≤ funcAddr img record ∧ funcAddr img record < img.base+2^32
  lsdas : ∀ record ∈ records, ∀ lsda, record.lsda = some lsda →
    img.base ≤ lsdaAddr img lsda ∧ lsdaAddr img lsda < img.base+2^32
  stop : tableEnd img records+1 < img.base+2^32

theorem merge_records_pages {img : Placement} {records : List UnwindRecord}
    (hsort : records.Pairwise (funcAddr img · ≤ funcAddr img ·)) (hin : InImage img records)
    (personalities : List ℕ) :
    ∀ page ∈ splitPages img (mergeRecords img (records.map (indexed personalities))),
      page.Placed img := by
  have hsub := dedup_by_sublist (mergeable img) (records.map (indexed personalities))
  have hmerged : (mergeRecords img (records.map (indexed personalities))).Pairwise
      (funcAddr img · ≤ funcAddr img ·) := by
    apply List.Pairwise.sublist hsub
    rw [List.pairwise_map]
    simpa using hsort
  intro page hp
  constructor
  · exact split_pages_fit img _ page hp
  · exact split_pages_sorted img hmerged page hp
  · intro record hr
    have hm : record ∈ mergeRecords img (records.map (indexed personalities)) := by
      rw [← split_pages_records img (mergeRecords img _)]
      exact List.mem_flatMap.2 ⟨page,hp,hr⟩
    obtain ⟨r,hr',rfl⟩ := List.mem_map.1 (hsub.subset hm)
    rw [func_addr_indexed]
    exact hin.funcs r hr'

theorem merge_records_lsda_last {img : Placement} {records : List UnwindRecord}
    (hl : LsdaLast img records) (personalities : List ℕ) {page : Page}
    (hp : page ∈ splitPages img (mergeRecords img (records.map (indexed personalities)))) :
    LsdaLast img page.records := by
  have hmap : LsdaLast img (records.map (indexed personalities)) := by
    rw [LsdaLast, List.pairwise_map]
    simpa [LsdaLast] using hl
  have hmerged := List.Pairwise.sublist (dedup_by_sublist (mergeable img) _) hmap
  have hpages := split_pages_records img (mergeRecords img (records.map (indexed personalities)))
  rw [← mergeRecords, ← hpages, List.flatMap_def, List.pairwise_flatten] at hmerged
  exact hmerged.1 page.records (List.mem_map_of_mem hp)

/-- The table of the records with their personalities' indices. -/
def recordsTable (img : Placement) (records : List UnwindRecord) (personalities : List ℕ) :
    List UInt8 :=
  let merged := mergeRecords img (records.map (indexed personalities))
  writeTable img merged personalities (splitPages img merged) (tableEnd img records)

theorem encode_unwind_info (img : Placement) {first : UnwindRecord} {rest : List UnwindRecord}
    (hthree : ((first::rest).filterMap UnwindRecord.personality).toFinset.card ≤ 3) :
    ∃ personalities, encodeUnwindInfo img (first::rest) =
        some (recordsTable img (first::rest) personalities,personalities) ∧
      personalities.length ≤ 3 ∧
      ∀ record ∈ first::rest, ∀ sym, record.personality = some sym → sym ∈ personalities := by
  have hsyms : ∀ record ∈ first::rest, ∀ sym, record.personality = some sym →
      sym ∈ ((first::rest).filterMap UnwindRecord.personality).toFinset := by
    intro record hr sym hsym
    rw [List.mem_toFinset, List.mem_filterMap]
    exact ⟨record,hr,hsym⟩
  obtain ⟨⟨assigned,personalities⟩,hassign⟩ :=
    assign_from_some hthree List.nodup_nil (by simp) hsyms
  obtain ⟨_,hassigned,hmem⟩ := assign_from_spec hassign
  refine ⟨personalities,?_,assign_from_length hassign (by simp),hmem⟩
  have hlast : (first::rest).getLast? = some ((first::rest).getLast (by simp)) :=
    List.getLast?_eq_some_getLast (by simp)
  simp only at hassigned
  simp only [encodeUnwindInfo, recordsTable, tableEnd, hlast, assignPersonalities, hassign,
    Option.map_some, hassigned]

/-- What the table has at an address is what the last record at or before it
says. -/
theorem lookup_records {img : Placement} {records : List UnwindRecord}
    (hsort : records.Pairwise (funcAddr img · ≤ funcAddr img ·)) (hin : InImage img records)
    {personalities : List ℕ} (hlen : (recordsTable img records personalities).length < 2^32)
    {pc : ℕ} (hpc : pc ≤ tableEnd img records) {record : UnwindRecord}
    (hr : lastAt (funcAddr img) pc records = some record) :
    ∃ lsda, lookup (recordsTable img records personalities) (pc-img.base) =
        some ((indexed personalities record).encoding.toNat,lsda) ∧
      (LsdaLast img records →
        lsda = record.lsda.map fun lsda => lsdaAddr img lsda - img.base) := by
  obtain ⟨hmem,hle⟩ := last_at_mem hr
  have hbase := (hin.funcs record hmem).1.trans hle
  have hindexed : lastAt (funcAddr img) pc (records.map (indexed personalities)) =
      some (indexed personalities record) := by
    rw [last_at_map]
    simp only [func_addr_indexed]
    rw [hr, Option.map_some]
  have hsort' : (records.map (indexed personalities)).Pairwise
      (funcAddr img · ≤ funcAddr img ·) := by
    rw [List.pairwise_map]
    simpa using hsort
  obtain ⟨kept,hkept,hsame⟩ := last_at_dedup (mergeable img) hsort' hindexed
  have hstop := hin.stop
  have hend : pc-img.base < imageOff img (tableEnd img records+1) := by
    rw [image_off (by omega) hstop]
    omega
  have hpages := merge_records_pages hsort hin personalities
  have htable : recordsTable img records personalities =
      writeTable img (mergeRecords img (records.map (indexed personalities))) personalities
        (splitPages img (mergeRecords img (records.map (indexed personalities))))
        (tableEnd img records) := by
    simp only [recordsTable]
  obtain ⟨page,hpage,hkept',hlookup⟩ := lookup_table img _ personalities _ _
    (split_pages_records img _) htable hlen hpages hbase hend hkept
  have hencoding : kept.encoding = (indexed personalities record).encoding := by
    cases hsame with
    | inl he => rw [he]
    | inr hm =>
      simp only [mergeable, Bool.and_eq_true, beq_iff_eq] at hm
      exact hm.1.1.1.2
  refine ⟨_,by rw [hencoding] at hlookup; exact hlookup,?_⟩
  intro hl
  rw [lsda_rows_find (merge_records_lsda_last hl personalities hpage) (hpages page hpage).range hkept']
  have hlsda : kept.lsda = record.lsda := by
    cases hsame with
    | inl he => rw [he, indexed_lsda]
    | inr hm =>
      simp only [mergeable, Bool.and_eq_true, Option.isNone_iff_eq_none, indexed_lsda] at hm
      rw [hm.1.2, hm.2]
  rw [hlsda]
  cases hl' : record.lsda with
  | none => rw [Option.map_none, Option.map_none]
  | some lsda =>
    obtain ⟨hlo,hhi⟩ := hin.lsdas record hmem lsda hl'
    rw [Option.map_some, Option.map_some, image_off hlo hhi]

/-- Looking up the table gives, at every address it covers, the encoding of
the last record at or before it, with the index of its personality, and its
LSDA where only the last record of an address may have one. -/
theorem unwind_lookup {img : Placement} {first : UnwindRecord} {rest : List UnwindRecord}
    (hsort : (first::rest).Pairwise (funcAddr img · ≤ funcAddr img ·))
    (hthree : ((first::rest).filterMap UnwindRecord.personality).toFinset.card ≤ 3)
    (hin : InImage img (first::rest)) :
    ∃ table personalities, encodeUnwindInfo img (first::rest) = some (table,personalities) ∧
      personalities.length ≤ 3 ∧
      (∀ record ∈ first::rest, ∀ sym, record.personality = some sym → sym ∈ personalities) ∧
      (∀ page ∈ splitPages img (mergeRecords img ((first::rest).map (indexed personalities))),
        page.Fits img) ∧
      (table.length < 2^32 → ∀ pc, funcAddr img first ≤ pc → pc ≤ tableEnd img (first::rest) →
        ∃ record lsda, lastAt (funcAddr img) pc (first::rest) = some record ∧
          lookup table (pc-img.base) =
            some ((indexed personalities record).encoding.toNat,lsda) ∧
          (LsdaLast img (first::rest) →
            lsda = record.lsda.map fun lsda => lsdaAddr img lsda - img.base)) := by
  obtain ⟨personalities,hencode,hlength,hmem⟩ := encode_unwind_info img hthree
  refine ⟨_,personalities,hencode,hlength,hmem,?_,?_⟩
  · exact split_pages_fit img _
  · intro hlen pc hfirst hpc
    obtain ⟨record,hr⟩ : ∃ record, lastAt (funcAddr img) pc (first::rest) = some record :=
      last_at_some (List.mem_cons_self ..) hfirst
    obtain ⟨lsda,hlookup,hlsda⟩ := lookup_records hsort hin hlen hpc hr
    exact ⟨record,lsda,hr,hlookup,hlsda⟩

/-- Subsections of sixteen bytes, 16 MiB apart. -/
def spreadImage : Placement where
  base := 0x1000
  addr := fun isec => 0x1000+isec*0x1000000
  size := fun _ => 16

theorem unwind_lookup_spread :
    ∃ table personalities,
      encodeUnwindInfo spreadImage [{ isec := 0, encoding := 1, personality := some 7 },
        { isec := 1, encoding := 1, personality := some 9, lsda := some (2,4) }] =
          some (table,personalities) ∧
      lookup table 0x1000008 = some (0x20000001,some 0x2000004) := by
  obtain ⟨table,personalities,hencode,_,_,_,hlookup⟩ := @unwind_lookup spreadImage
    { isec := 0, encoding := 1, personality := some 7 }
    [{ isec := 1, encoding := 1, personality := some 9, lsda := some (2,4) }]
    (by decide) (by decide) ⟨by decide,by simp [spreadImage, lsdaAddr],by decide⟩
  have hout : (encodeUnwindInfo spreadImage [{ isec := 0, encoding := 1, personality := some 7 },
      { isec := 1, encoding := 1, personality := some 9, lsda := some (2,4) }]).map
        (fun out => (out.1.length,out.2)) = some (120,[7,9]) := by decide +kernel
  rw [hencode, Option.map_some, Option.some.injEq, Prod.mk.injEq] at hout
  obtain ⟨hlen,rfl⟩ := hout
  have hlt : table.length < 2^32 := by
    rw [hlen]
    decide
  obtain ⟨record,lsda,hr,hl,hlsda⟩ := hlookup hlt 0x1001008 (by decide) (by decide)
  have hrecord : lastAt (funcAddr spreadImage) 0x1001008
      [{ isec := 0, encoding := 1, personality := some 7 },
        { isec := 1, encoding := 1, personality := some 9, lsda := some (2,4) }] =
      some { isec := 1, encoding := 1, personality := some 9, lsda := some (2,4) } := by decide
  rw [hrecord, Option.some.injEq] at hr
  subst hr
  rw [hlsda (by simp [LsdaLast, funcAddr, spreadImage])] at hl
  exact ⟨table,_,hencode,hl⟩

/-- Where a record with an LSDA is not the last of its address, its LSDA is
found for the last one; and 32-bit offsets mix up addresses 4 GiB apart. -/
theorem unwind_lookup_stale :
    (let records : List UnwindRecord :=
      [{ isec := 0, encoding := 1, lsda := some (1,4) }, { isec := 0, encoding := 2 }]
    records.Pairwise (fun r s => funcAddr spreadImage r < funcAddr spreadImage s ∨
      funcAddr spreadImage r = funcAddr spreadImage s ∧ r.encoding ≤ s.encoding) ∧
    (records.filterMap UnwindRecord.personality).toFinset.card ≤ 3 ∧
    records.Pairwise (fun r s => funcAddr spreadImage r = funcAddr spreadImage s →
      r.lsda = none ∨ s.lsda = none) ∧
    (lastAt (funcAddr spreadImage) 0x1000 records).map UnwindRecord.lsda = some none ∧
    ((encodeUnwindInfo spreadImage records).bind fun out => lookup out.1 0) =
      some (2,some 0x1000004)) ∧
    (let records : List UnwindRecord :=
      [{ isec := 0, encoding := 1 }, { isec := 256, inputOffset := 16, encoding := 2 },
        { isec := 257, encoding := 3 }]
    (lastAt (funcAddr spreadImage) 0x1020 records).map UnwindRecord.encoding = some 1 ∧
    ((encodeUnwindInfo spreadImage records).bind fun out => lookup out.1 32) =
      some (2,none)) := by
  decide +kernel

end MoldMacho.UnwindInfo
