import Mathlib.Data.Finset.Card
import Mathlib.Data.List.Dedup
import MoldMacho.Chunks.Opcodes
import MoldMacho.InputSections
import MoldMacho.Lib.Bytes
import MoldMacho.Lib.Lookup

/-!
# The compact unwind table

The unwind records, sorted by address, get their personality's index, are
merged where they say the same, cut into compressed pages, and written
under a first-level index, with an index of the LSDAs beside it.
-/

set_option autoImplicit false

namespace MoldMacho.UnwindInfo
open MoldMacho.InputSections MoldMacho.Opcodes MoldMacho.Bytes MoldMacho.Lookup

/-- Where the link put the image's header and its subsections. -/
structure Placement where
  base : ℕ
  addr : ℕ → ℕ
  size : ℕ → ℕ
  x86 : Bool := false

/-- The address of a record's function. -/
def funcAddr (img : Placement) (record : UnwindRecord) : ℕ :=
  img.addr record.isec + record.inputOffset

def lsdaAddr (img : Placement) (lsda : ℕ × ℕ) : ℕ := img.addr lsda.1 + lsda.2

def unwindModeMask : UInt32 := 0x0f000000

def unwindX8664ModeStackInd : UInt32 := 0x03000000

/-- The trailing zeros of `UNWIND_PERSONALITY_MASK`. -/
def personalityShift : UInt32 := 28

/-! Personalities. -/

/-- An encoding with the index of a personality in it, counted from one. -/
def tagged (encoding : UInt32) (idx : ℕ) : UInt32 :=
  encoding ||| (UInt32.ofNat (idx+1) <<< personalityShift)

/-- The array with the routine in it, and the routine's index. -/
def personalityIndex (personalities : List ℕ) (sym : ℕ) : List ℕ × ℕ :=
  if sym ∈ personalities then (personalities,personalities.idxOf sym)
  else (personalities ++ [sym],personalities.length)

/-- The fourth personality is fatal. -/
def assignFrom (personalities : List ℕ) :
    List UnwindRecord → Option (List UnwindRecord × List ℕ)
  | [] => some ([],personalities)
  | record::records =>
    match record.personality with
    | none => (assignFrom personalities records).map fun out => (record::out.1,out.2)
    | some sym =>
      let found := personalityIndex personalities sym
      if found.2 ≥ 3 then none
      else (assignFrom found.1 records).map fun out =>
        ({ record with encoding := tagged record.encoding found.2 }::out.1,out.2)

def assignPersonalities : List UnwindRecord → Option (List UnwindRecord × List ℕ) :=
  assignFrom []

/-- A record with the index its personality has in the array. -/
def indexed (personalities : List ℕ) (record : UnwindRecord) : UnwindRecord :=
  match record.personality with
  | none => record
  | some sym => { record with encoding := tagged record.encoding (personalities.idxOf sym) }

@[simp] theorem func_addr_indexed (img : Placement) (personalities : List ℕ)
    (record : UnwindRecord) :
    funcAddr img (indexed personalities record) = funcAddr img record := by
  unfold indexed
  split <;> rfl

@[simp] theorem indexed_lsda (personalities : List ℕ) (record : UnwindRecord) :
    (indexed personalities record).lsda = record.lsda := by
  unfold indexed
  split <;> rfl

theorem personality_index_spec (personalities : List ℕ) (sym : ℕ) :
    (∃ more, (personalityIndex personalities sym).1 = personalities ++ more) ∧
    sym ∈ (personalityIndex personalities sym).1 ∧
    (personalityIndex personalities sym).2 = (personalityIndex personalities sym).1.idxOf sym := by
  unfold personalityIndex
  split
  case isTrue hm => exact ⟨⟨[],by simp⟩,hm,rfl⟩
  case isFalse hm =>
    refine ⟨⟨[sym],rfl⟩,by simp,?_⟩
    simp [List.idxOf_append_of_notMem hm]

theorem personality_index_nodup {personalities : List ℕ} (hn : personalities.Nodup) (sym : ℕ) :
    (personalityIndex personalities sym).1.Nodup := by
  unfold personalityIndex
  split
  case isTrue => exact hn
  case isFalse hm => exact List.nodup_append.2 ⟨hn,by simp,by grind⟩

/-- The array only grows, so that an index given once stays right. -/
theorem assign_from_spec {personalities : List ℕ} {records : List UnwindRecord}
    {out : List UnwindRecord × List ℕ} (h : assignFrom personalities records = some out) :
    (∃ more, out.2 = personalities ++ more) ∧ out.1 = records.map (indexed out.2) ∧
    ∀ record ∈ records, ∀ sym, record.personality = some sym → sym ∈ out.2 := by
  induction records generalizing personalities out with
  | nil =>
    obtain rfl := Option.some.inj h
    exact ⟨⟨[],by simp⟩,rfl,by simp⟩
  | cons record records ih =>
    rw [assignFrom] at h
    split at h
    case h_1 hp =>
      obtain ⟨mid,hmid,rfl⟩ := Option.map_eq_some_iff.1 h
      obtain ⟨hgrow,hmap,hall⟩ := ih hmid
      refine ⟨hgrow,?_,?_⟩
      · simp [indexed, hp, hmap]
      · simpa [hp] using hall
    case h_2 sym hp =>
      simp only at h
      split at h
      case isTrue => contradiction
      case isFalse =>
        obtain ⟨mid,hmid,rfl⟩ := Option.map_eq_some_iff.1 h
        obtain ⟨⟨more,hgrow⟩,hmap,hall⟩ := ih hmid
        obtain ⟨⟨new,hnew⟩,hmem,hidx⟩ := personality_index_spec personalities sym
        refine ⟨?_,?_,?_⟩
        · exact ⟨new ++ more,by rw [hgrow, hnew, List.append_assoc]⟩
        · have hsame : mid.2.idxOf sym = (personalityIndex personalities sym).2 := by
            rw [hgrow, List.idxOf_append_of_mem hmem, hidx]
          simp [indexed, hp, hmap, hsame]
        · have hin : sym ∈ mid.2 := by
            rw [hgrow]
            exact List.mem_append_left more hmem
          simpa [hp, hin] using hall

theorem assign_from_length {personalities : List ℕ} {records : List UnwindRecord}
    {out : List UnwindRecord × List ℕ} (h : assignFrom personalities records = some out)
    (hl : personalities.length ≤ 3) : out.2.length ≤ 3 := by
  induction records generalizing personalities out with
  | nil =>
    obtain rfl := Option.some.inj h
    exact hl
  | cons record records ih =>
    rw [assignFrom] at h
    split at h
    case h_1 =>
      obtain ⟨mid,hmid,rfl⟩ := Option.map_eq_some_iff.1 h
      have hmidl : mid.2.length ≤ 3 := ih hmid hl
      exact hmidl
    case h_2 sym _ =>
      simp only at h
      split at h
      case isTrue => contradiction
      case isFalse hidx =>
        obtain ⟨mid,hmid,rfl⟩ := Option.map_eq_some_iff.1 h
        have hgrown : (personalityIndex personalities sym).1.length ≤ 3 := by
          unfold personalityIndex at hidx ⊢
          split at hidx
          case isTrue hm => simpa [hm] using hl
          case isFalse hm => simpa [hm, Nat.lt_succ_iff] using hidx
        have hmidl : mid.2.length ≤ 3 := ih hmid hgrown
        exact hmidl

theorem assign_from_some {syms : Finset ℕ} (hc : syms.card ≤ 3) {personalities : List ℕ}
    {records : List UnwindRecord} (hn : personalities.Nodup) (hp : ∀ sym ∈ personalities, sym ∈ syms)
    (hr : ∀ record ∈ records, ∀ sym, record.personality = some sym → sym ∈ syms) :
    ∃ out, assignFrom personalities records = some out := by
  induction records generalizing personalities with
  | nil => exact ⟨_,rfl⟩
  | cons record records ih =>
    have hrest : ∀ r ∈ records, ∀ sym, r.personality = some sym → sym ∈ syms := by
      intro r hm
      exact hr r (by simp [hm])
    rw [assignFrom]
    split
    case h_1 =>
      obtain ⟨out,ho⟩ := ih hn hp hrest
      exact ⟨_,by rw [ho, Option.map_some]⟩
    case h_2 sym hsym =>
      have hn' := personality_index_nodup hn sym
      have hsub : ∀ s ∈ (personalityIndex personalities sym).1, s ∈ syms := by
        intro s hs
        unfold personalityIndex at hs
        split at hs
        case isTrue => exact hp s hs
        case isFalse =>
          cases List.mem_append.1 hs with
          | inl hm => exact hp s hm
          | inr hm => exact List.mem_singleton.1 hm ▸ hr record (by simp) sym hsym
      have hlen : (personalityIndex personalities sym).1.length ≤ 3 := by
        rw [← List.toFinset_card_of_nodup hn']
        apply (Finset.card_le_card _).trans hc
        intro s hs
        exact hsub s (List.mem_toFinset.1 hs)
      obtain ⟨hgrow,hmem,hidx⟩ := personality_index_spec personalities sym
      have hlt := List.idxOf_lt_length_of_mem hmem
      obtain ⟨out,ho⟩ := ih hn' hsub hrest
      simp only
      rw [if_neg (by omega), ho]
      exact ⟨_,rfl⟩

/-! Merging. -/

def stackInd (img : Placement) (encoding : UInt32) : Bool :=
  img.x86 && encoding &&& unwindModeMask == unwindX8664ModeStackInd

def mergeable (img : Placement) (record last : UnwindRecord) : Bool :=
  !stackInd img record.encoding && last.encoding == record.encoding &&
    last.personality == record.personality && last.lsda.isNone && record.lsda.isNone

def mergeRecords (img : Placement) : List UnwindRecord → List UnwindRecord :=
  dedupBy (mergeable img)

/-! Pages. -/

def pageSize : ℕ := 4096

def pageHdr : ℕ := 12

/-- The encodings of a page, in order of first use, with one more. -/
def addEncoding (encodings : List UInt32) (encoding : UInt32) : List UInt32 :=
  if encoding ∈ encodings then encodings else encodings ++ [encoding]

/-- Whether an encoding takes a place of its own among those of a page. -/
def newEnc (encodings : List UInt32) (encoding : UInt32) : ℕ :=
  if encoding ∈ encodings then 0 else 1

/-- Whether a record does not fit on the page that starts at `first`, after
`n` records with `encodings`. -/
def pageFull (img : Placement) (first n : ℕ) (encodings : List UInt32) (record : UnwindRecord) :
    Bool :=
  let added := newEnc encodings record.encoding
  encodings.length+added > 256 || pageHdr+(n+1+encodings.length+added)*4 > pageSize ||
    funcAddr img record - first ≥ 2^24

/-- The records that go on the page that starts at `first`, their encodings,
and the records left, after `n` records with `encodings`. -/
def pageRun (img : Placement) (first n : ℕ) (encodings : List UInt32) :
    List UnwindRecord → List UnwindRecord × List UInt32 × List UnwindRecord
  | [] => ([],encodings,[])
  | record::records =>
    if pageFull img first n encodings record then ([],encodings,record::records)
    else
      let run := pageRun img first (n+1) (addEncoding encodings record.encoding) records
      (record::run.1,run.2)

/-- A second-level page: a run of the table's records, and their encodings. -/
structure Page where
  records : List UnwindRecord
  encodings : List UInt32
  nonempty : records ≠ []
  listed : ∀ record ∈ records, record.encoding ∈ encodings

theorem add_encoding_mem (encodings : List UInt32) (encoding : UInt32) :
    encoding ∈ addEncoding encodings encoding := by
  unfold addEncoding
  split <;> simp [*]

theorem add_encoding_subset (encodings : List UInt32) (encoding : UInt32) :
    encodings ⊆ addEncoding encodings encoding := by
  unfold addEncoding
  split <;> simp

theorem add_encoding_length (encodings : List UInt32) (encoding : UInt32) :
    (addEncoding encodings encoding).length = encodings.length+newEnc encodings encoding := by
  unfold addEncoding newEnc
  split <;> simp

theorem page_run_append (img : Placement) (first n : ℕ) (encodings : List UInt32)
    (records : List UnwindRecord) :
    (pageRun img first n encodings records).1 ++ (pageRun img first n encodings records).2.2 =
      records := by
  induction records generalizing n encodings with
  | nil => rfl
  | cons record records ih =>
    simp only [pageRun]
    split
    case isTrue => rfl
    case isFalse => simp [ih]

theorem page_run_encodings (img : Placement) (first n : ℕ) (encodings : List UInt32)
    (records : List UnwindRecord) :
    encodings ⊆ (pageRun img first n encodings records).2.1 := by
  induction records generalizing n encodings with
  | nil => exact List.Subset.refl encodings
  | cons record records ih =>
    simp only [pageRun]
    split
    case isTrue => exact List.Subset.refl encodings
    case isFalse => exact List.Subset.trans (add_encoding_subset _ _) (ih _ _)

theorem page_run_listed (img : Placement) (first n : ℕ) (encodings : List UInt32)
    (records : List UnwindRecord) :
    ∀ record ∈ (pageRun img first n encodings records).1,
      record.encoding ∈ (pageRun img first n encodings records).2.1 := by
  induction records generalizing n encodings with
  | nil => simp [pageRun]
  | cons head records ih =>
    intro record
    simp only [pageRun]
    split
    case isTrue => simp
    case isFalse =>
      intro hr
      cases List.mem_cons.1 hr with
      | inl he =>
        subst he
        exact page_run_encodings img first (n+1) _ records (add_encoding_mem _ _)
      | inr hm => exact ih _ _ record hm

/-- The first record is always on its page: the loop over pages ends. -/
theorem page_run_first (img : Placement) (record : UnwindRecord) (records : List UnwindRecord) :
    ∃ rest, (pageRun img (funcAddr img record) 0 [] (record::records)).1 = record::rest := by
  simp [pageRun, pageFull, newEnc, pageHdr, pageSize]

theorem page_run_rest (img : Placement) (record : UnwindRecord) (records : List UnwindRecord) :
    (pageRun img (funcAddr img record) 0 [] (record::records)).2.2.length <
      (record::records).length := by
  obtain ⟨rest,hr⟩ := page_run_first img record records
  have ha := congrArg List.length
    (page_run_append img (funcAddr img record) 0 [] (record::records))
  rw [hr] at ha
  simp only [List.length_append, List.length_cons] at ha ⊢
  omega

def splitPages (img : Placement) : List UnwindRecord → List Page
  | [] => []
  | record::records =>
    let run := pageRun img (funcAddr img record) 0 [] (record::records)
    { records := run.1
      encodings := run.2.1
      nonempty := by
        obtain ⟨rest,hr⟩ := page_run_first img record records
        simp [run, hr]
      listed := page_run_listed img (funcAddr img record) 0 [] (record::records)
        }::splitPages img run.2.2
termination_by records => records.length
decreasing_by exact page_run_rest img record records

/-! What holds of the pages. -/

def Page.first (img : Placement) (page : Page) : ℕ := funcAddr img (page.records.head page.nonempty)

/-- Every entry of a page fits its fields: 24 bits of offset, 8 of an index,
and the page's 4096 bytes. -/
structure Page.Fits (img : Placement) (page : Page) : Prop where
  offset : ∀ record ∈ page.records, funcAddr img record - page.first img < 2^24
  index : ∀ record ∈ page.records, page.encodings.idxOf record.encoding < 2^8
  size : pageHdr+(page.records.length+page.encodings.length)*4 ≤ pageSize

theorem page_run_fits (img : Placement) (first n : ℕ) (encodings : List UInt32)
    (records : List UnwindRecord) (he : encodings.length ≤ 256)
    (hs : pageHdr+(n+encodings.length)*4 ≤ pageSize) :
    (∀ record ∈ (pageRun img first n encodings records).1, funcAddr img record - first < 2^24) ∧
    (pageRun img first n encodings records).2.1.length ≤ 256 ∧
    pageHdr+(n+(pageRun img first n encodings records).1.length+
      (pageRun img first n encodings records).2.1.length)*4 ≤ pageSize := by
  induction records generalizing n encodings with
  | nil => simpa [pageRun, he] using hs
  | cons head records ih =>
    simp only [pageRun]
    split
    case isTrue => simpa [he] using hs
    case isFalse hfull =>
      simp only [pageFull, Bool.or_eq_true, decide_eq_true_eq, not_or, not_lt, ge_iff_le,
        not_le] at hfull
      obtain ⟨⟨hlen,hsize⟩,hoff⟩ := hfull
      have hadd := add_encoding_length encodings head.encoding
      obtain ⟨ho,hl,hsz⟩ := ih (n+1) (addEncoding encodings head.encoding) (by omega)
        (by rw [hadd]; omega)
      refine ⟨?_,hl,?_⟩
      · intro record hr
        cases List.mem_cons.1 hr with
        | inl he => exact he ▸ hoff
        | inr hm => exact ho record hm
      · simp only [List.length_cons]
        omega

theorem split_pages_records (img : Placement) (records : List UnwindRecord) :
    (splitPages img records).flatMap Page.records = records := by
  fun_induction splitPages img records with
  | case1 => rfl
  | case2 record records run ih =>
    rw [List.flatMap_cons, ih]
    exact page_run_append img (funcAddr img record) 0 [] (record::records)

/-- No page is over its limits, in whatever order the records come. -/
theorem split_pages_fit (img : Placement) (records : List UnwindRecord) :
    ∀ page ∈ splitPages img records, page.Fits img := by
  fun_induction splitPages img records with
  | case1 => simp
  | case2 record records run ih =>
    intro page hp
    cases List.mem_cons.1 hp with
    | inr hm => exact ih page hm
    | inl he =>
      obtain ⟨rest,hr⟩ := page_run_first img record records
      obtain ⟨ho,hl,hs⟩ := page_run_fits img (funcAddr img record) 0 [] (record::records)
        (by decide) (by decide)
      subst he
      have hfirst : funcAddr img record = Page.first img ⟨run.1,run.2.1,by simp [run, hr],
          page_run_listed img (funcAddr img record) 0 [] (record::records)⟩ := by
        simp [Page.first, run, hr]
      constructor
      · rw [← hfirst]
        exact ho
      · intro r hr
        exact (List.idxOf_lt_length_of_mem (page_run_listed img _ 0 [] _ r hr)).trans_le hl
      · simpa [run] using hs

/-- Pages of sorted records start at their least address. -/
theorem split_pages_sorted (img : Placement) {records : List UnwindRecord}
    (hs : records.Pairwise (funcAddr img · ≤ funcAddr img ·)) :
    ∀ page ∈ splitPages img records, ∀ record ∈ page.records,
      page.first img ≤ funcAddr img record := by
  intro page hp record hr
  rw [← split_pages_records img records, List.flatMap_def, List.pairwise_flatten] at hs
  have hpage := hs.1 page.records (List.mem_map_of_mem hp)
  obtain ⟨head,rest,hl⟩ := List.exists_cons_of_ne_nil page.nonempty
  simp only [Page.first, hl, List.head_cons]
  rw [hl] at hpage hr
  cases List.mem_cons.1 hr with
  | inl he => exact he ▸ le_refl _
  | inr hm => exact (List.pairwise_cons.1 hpage).1 record hm

/-! Writing. -/

/-- An address as an image offset: `wrapping_sub(base) as u32`. -/
def imageOff (img : Placement) (addr : ℕ) : ℕ := wrappingSub addr img.base % 2^32

/-- A page, encoded, and its rows of the LSDA index. -/
structure EncodedPage where
  page2 : List UInt8
  lsda : List UInt8
  first : ℕ

/-- The rows of the LSDA index: function and LSDA. -/
def lsdaRows (img : Placement) (records : List UnwindRecord) : List (ℕ × ℕ) :=
  records.filterMap fun record => record.lsda.map fun lsda =>
    (imageOff img (funcAddr img record),imageOff img (lsdaAddr img lsda))

def lsdaRow (row : ℕ × ℕ) : List UInt8 := toLe 4 row.1 ++ toLe 4 row.2

/-- An entry: an offset from the page's first function, an encoding's index
over it. -/
def Page.entry (img : Placement) (page : Page) (record : UnwindRecord) : ℕ :=
  (funcAddr img record - page.first img) % 2^32 |||
    page.encodings.idxOf record.encoding <<< 24

def unwindSectionVersion : ℕ := 1

def unwindSecondLevelCompressed : ℕ := 3

def encodePage (img : Placement) (page : Page) : EncodedPage where
  page2 := toLe 4 unwindSecondLevelCompressed ++ toLe 2 pageHdr ++ toLe 2 page.records.length ++
    toLe 2 (pageHdr+page.records.length*4) ++ toLe 2 page.encodings.length ++
    (page.records.map (page.entry img)).flatMap (toLe 4) ++
    (page.encodings.map UInt32.toNat).flatMap (toLe 4)
  lsda := (lsdaRows img page.records).flatMap lsdaRow
  first := imageOff img (page.first img)

/-- A row of the first-level index: the first function of a page, where the
page is, and where its LSDA rows start. -/
structure IndexRow where
  first : ℕ
  page : ℕ
  lsda : ℕ
  deriving DecidableEq

def IndexRow.bytes (row : IndexRow) : List UInt8 :=
  toLe 4 row.first ++ toLe 4 row.page ++ toLe 4 row.lsda

/-- A row for each page, at `page2` and `lsda` on, and the terminator. -/
def indexRows (stop page2 lsda : ℕ) : List EncodedPage → List IndexRow
  | [] => [⟨stop,0,lsda⟩]
  | out::outs =>
    ⟨out.first,page2,lsda⟩::indexRows stop (page2+out.page2.length) (lsda+out.lsda.length) outs

def writeTable (img : Placement) (records : List UnwindRecord) (personalities : List ℕ)
    (pages : List Page) (stop : ℕ) : List UInt8 :=
  let numLsda := (records.filter fun record => record.lsda.isSome).length
  let personalityOff := 28
  let page1Off := personalityOff+personalities.length*4
  let lsdaOff := page1Off+(pages.length+1)*12
  let page2Off := lsdaOff+numLsda*8
  let outs := pages.map (encodePage img)
  toLe 4 unwindSectionVersion ++ toLe 4 personalityOff ++ toLe 4 0 ++ toLe 4 personalityOff ++
    toLe 4 personalities.length ++ toLe 4 page1Off ++ toLe 4 (pages.length+1) ++
    personalities.flatMap (fun _ => toLe 4 0) ++
    (indexRows (imageOff img (stop+1)) page2Off lsdaOff outs).flatMap IndexRow.bytes ++
    outs.flatMap EncodedPage.lsda ++ outs.flatMap EncodedPage.page2

/-- The table of the records, sorted by address, and its personalities. The
table ends where the last function does. -/
def encodeUnwindInfo (img : Placement) (records : List UnwindRecord) :
    Option (List UInt8 × List ℕ) :=
  match records.getLast? with
  | none => some ([],[])
  | some last =>
    (assignPersonalities records).map fun out =>
      let stop := img.addr last.isec + img.size last.isec
      let merged := mergeRecords img out.1
      (writeTable img merged out.2 (splitPages img merged) stop,out.2)

end MoldMacho.UnwindInfo
