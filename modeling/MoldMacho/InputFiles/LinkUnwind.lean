import MoldMacho.InputFiles.UnwindRanges

/-!
# The unwind records of a link

An object's records, joined with its FDEs and in one run for each subsection, go
to the link's arena. While objects are added and subsections die, a live
subsection's range is its records, in their order and with their FDEs.
-/

set_option autoImplicit false

namespace MoldMacho.ParseUnwind
open MoldMacho.InputSections MoldMacho.Macho MoldMacho.EhFrame
open MoldMacho.Chunks (bytes)
open Relation

/-- What a link does to its unwind records. -/
inductive Step (target : Target) : Context → Context → Prop where
  | add {T : Type} {ctx : Context} {obj : StagedObject} {relocs : ℕ → List (Arch.Reloc T)}
      {keptFdes : KeptFdes} {info : UnwindInfo} (file : ObjectFile)
      (fresh : ∀ isec ∈ obj.isecs, isec.nunwind = 0)
      (parsed : parseUnwindInfo target obj relocs keptFdes = some info) :
      Step target ctx (integrateObject ctx obj info file)
  | die {ctx : Context} (i : ℕ) : Step target ctx (kill ctx i)
  | removeDead {ctx : Context} : Step target ctx (removeDeadUnwindInfo ctx)

/-- The links that come of none. -/
def Reached (target : Target) (ctx : Context) : Prop := ReflTransGen (Step target) {} ctx

section Run
variable {target : Target} {ctx ctx' : Context}

/-- Grouped, an object's records stand together and are of its functions. -/
theorem parse_grouped {T : Type} {obj : StagedObject} {relocs : ℕ → List (Arch.Reloc T)}
    {keptFdes : KeptFdes} {info : UnwindInfo}
    (h : parseUnwindInfo target obj relocs keptFdes = some info) :
    KeyRuns.Together UnwindRecord.isec info.unwind ∧
    Known obj.isecs.length info.unwind info.fdes := by
  obtain ⟨read,hread,rfl⟩ := Option.map_eq_some_iff.1 h
  exact ⟨group_together _,(read_unwind_known hread).subset fun _ hrec => mem_group.1 hrec⟩

theorem step_ranged (h : Step target ctx ctx') (hctx : Ranged ctx) : Ranged ctx' := by
  cases h with
  | add file fresh parsed =>
    obtain ⟨htogether,hknown⟩ := parse_grouped parsed
    exact integrate_ranged hctx fresh htogether hknown
  | die i => exact kill_ranged hctx i
  | removeDead => exact remove_dead_ranged hctx

theorem step_stays (h : Step target ctx ctx') (hctx : Ranged ctx) : Stays ctx ctx' := by
  cases h with
  | add file fresh parsed => exact integrate_stays hctx
  | die i => exact kill_stays ctx i
  | removeDead => exact remove_dead_stays hctx

/-- However a link goes on, the ranges are the records and the records stay. -/
theorem run_ranged (hctx : Ranged ctx) (h : ReflTransGen (Step target) ctx ctx') :
    Ranged ctx' ∧ Stays ctx ctx' := by
  induction h with
  | refl => exact ⟨hctx,le_rfl,fun _ _ halive => halive,fun _ _ _ => rfl⟩
  | tail _ hstep ih =>
    obtain ⟨hranged,hstays⟩ := ih
    exact ⟨step_ranged hstep hranged,hstays.trans (step_stays hstep hranged)⟩

end Run

section Object
variable {T : Type} {target : Target} {obj : StagedObject} {relocs : ℕ → List (Arch.Reloc T)}

/-- Each FDE that an object keeps names the CIE that its pointer does. -/
theorem kept_names (tables : Tables target obj relocs) {read : UnwindInfo}
    (h : readUnwindInfo target obj relocs .uncovered = some read) {hdr : MachSection}
    {contents : List UInt8} (hhdr : ehFrameSection obj = some hdr)
    (hcontents : ehFrameContents target obj hdr = some contents)
    (hsize : contents.length ≤ 2^32) :
    ∀ fde ∈ read.fdes,
      NamesCie hdr.addr contents read.cies fde.inputAddr fde.data fde.cie := by
  have hfdes := tables.fdesRead
  rw [hhdr] at hfdes
  obtain ⟨raw,hread,hfunctions⟩ := hfdes
  have htied : Tied target tables.compact tables.fdes _ :=
    tied_run fun rec hrec => (compact_records_entered tables.compactRead rec hrec).1
  rw [read_tables tables] at h
  cases h
  intro fde hfde
  dsimp only at hfde
  rw [htied.fdes] at hfde
  obtain ⟨f,hf,rfl⟩ := List.mem_map.1 hfde
  have hraw := (read_functions_lt hfunctions f (List.mem_filter.1 hf).1).1
  exact read_eh_frame_names hcontents hsize hread f.1 hraw

/-- An object's records, before they are grouped, are those of its compact
section in their order, and then those of its FDEs in theirs. -/
theorem read_order (tables : Tables target obj relocs) {read : UnwindInfo}
    (h : readUnwindInfo target obj relocs .uncovered = some read) :
    (read.unwind.map unlinked).Sublist
      (tables.compact ++ tables.fdes.map fun fde => unlinked (fdeOnlyRecord fde 0)) := by
  obtain ⟨new,hnew,heq⟩ := add_fdes_order target tables.compact tables.fdes false
  have hcompact : tables.compact.map unlinked = tables.compact := by
    conv_rhs => rw [← List.map_id tables.compact]
    apply List.map_congr_left
    intro rec hrec
    have hnone := (compact_records_entered tables.compactRead rec hrec).1
    rw [unlinked, id, ← hnone]
  rw [read_tables tables] at h
  cases h
  rw [hcompact] at heq
  have hsub : ((addFdes target tables.compact tables.fdes false).unwind.map unlinked).Sublist
      (tables.compact ++ tables.fdes.map fun fde => unlinked (fdeOnlyRecord fde 0)) := by
    rw [heq]
    exact (List.Sublist.refl _).append (hnew.map _)
  exact (List.filter_sublist.map _).trans hsub

end Object

/-- An object's tables are joined, whatever they hold: each function in code with
an FDE and no compact record but in DWARF mode has one record, tied to its last
FDE, a function with such a one keeps these and no FDE, and no DWARF-mode record
lacks an FDE. Its FDEs name the CIEs that their pointers do, its records are
grouped in their order, and in the link that it is added to, and in whatever
comes of that, each live subsection's range is exactly its records. -/
theorem unwind_records {T : Type} {target : Target} {obj : StagedObject}
    {relocs : ℕ → List (Arch.Reloc T)} (tables : Tables target obj relocs)
    (hfresh : ∀ isec ∈ obj.isecs, isec.nunwind = 0) {ctx : Context} (hctx : Reached target ctx)
    (file : ObjectFile) :
    ∃ read info, readUnwindInfo target obj relocs .uncovered = some read ∧
      parseUnwindInfo target obj relocs .uncovered = some info ∧
      Joined target tables.compact tables.fdes info ∧
      (∀ hdr contents, ehFrameSection obj = some hdr →
        ehFrameContents target obj hdr = some contents → contents.length ≤ 2^32 →
        ∀ fde ∈ info.fdes,
          NamesCie hdr.addr contents info.cies fde.inputAddr fde.data fde.cie) ∧
      (read.unwind.map unlinked).Sublist
        (tables.compact ++ tables.fdes.map fun fde => unlinked (fdeOnlyRecord fde 0)) ∧
      (∀ j, recordsOf (integrateObject ctx obj info file) (ctx.isecs.length+j) =
        (read.unwind.filter fun rec => rec.isec = j).map
          (rebaseRecord ctx.isecs.length ctx.fdes.length file.symbols)) ∧
      ∀ last, ReflTransGen (Step target) (integrateObject ctx obj info file) last →
        (∀ (i : ℕ) isec, last.isecs[i]? = some isec → isec.isAlive = true →
          isec.nunwind = (recordsOf last i).length ∧ isec.unwindRecords last = recordsOf last i) ∧
        Stays (integrateObject ctx obj info file) last := by
  have hread := read_tables tables
  generalize hinfo : UnwindInfo.mk _ _ _ = read at hread
  clear hinfo
  have hparse : parseUnwindInfo target obj relocs .uncovered =
      some { read with unwind := groupUnwindRecords read.unwind } := by
    rw [parseUnwindInfo, hread]
    rfl
  have hranged := (run_ranged ranged_start hctx).1
  refine ⟨read,_,hread,hparse,?_,?_,read_order tables hread,?_,?_⟩
  · apply (read_joined tables hread).reorder
    · exact fun rec hrec => mem_group.1 hrec
    · intro p
      apply group_filter
      intro a b ha hb
      have hab := (of_decide_eq_true ha).trans (of_decide_eq_true hb).symm
      exact congrArg Prod.fst hab
  · intro hdr contents hhdr hcontents hsize
    exact kept_names tables hread hhdr hcontents hsize
  · intro j
    rw [integrate_records_new hranged]
    congr 1
    apply group_filter
    intro a b ha hb
    exact (of_decide_eq_true ha).trans (of_decide_eq_true hb).symm
  · intro last hlast
    have hnew := step_ranged (.add file hfresh hparse) hranged
    obtain ⟨hlastRanged,hstays⟩ := run_ranged hnew hlast
    refine ⟨?_,hstays⟩
    intro i isec hi halive
    have hrange := hlastRanged.range i isec hi halive
    exact ⟨hrange.count,hrange.items⟩

/-- Three functions with an FDE each: the first has compact records, apart from each
other, and the second one in DWARF mode. -/
def bothTables : StagedObject where
  data := [0,0,0,0, 0,0,0,0, 8,0,0,0, 0,0,0,2, 0,0,0,0, 0,0,0,0, 0,0,0,0, 0,0,0,0,
    0,0,0,0, 0,0,0,0, 16,0,0,0, 0,0,0,3, 0,0,0,0, 0,0,0,0, 0,0,0,0, 0,0,0,0,
    0,0,0,0, 0,0,0,0, 8,0,0,0, 1,0,0,2, 0,0,0,0, 0,0,0,0, 0,0,0,0, 0,0,0,0,
    16,0,0,0, 0,0,0,0, 1,0x7a,0x52,0, 1,0x78,0x1e,1, 0x10,0,0,0,
    24,0,0,0, 24,0,0,0, 0x54,0xff,0xff,0xff, 0xff,0xff,0xff,0xff, 16,0,0,0, 0,0,0,0, 0,0,0,0,
    24,0,0,0, 52,0,0,0, 0x48,0xff,0xff,0xff, 0xff,0xff,0xff,0xff, 16,0,0,0, 0,0,0,0, 0,0,0,0,
    24,0,0,0, 80,0,0,0, 0x3c,0xff,0xff,0xff, 0xff,0xff,0xff,0xff, 16,0,0,0, 0,0,0,0, 0,0,0,0]
  sectHdrs := [
    { segname := bytes "__TEXT", sectname := bytes "__text", size := 48 },
    { segname := bytes "__LD", sectname := bytes "__compact_unwind", addr := 48, size := 96 },
    { segname := bytes "__TEXT", sectname := bytes "__eh_frame", addr := 144, size := 104
      offset := 96 }]
  isecs := [{ file := 0, size := 16 },{ file := 0, inputAddr := 16, size := 16 },
    { file := 0, inputAddr := 32, size := 16 }]
  subsecs := [0,1,2]

def bothTablesRelocs (shndx : ℕ) : List (Arch.Reloc Unit) :=
  if shndx = 1 then
    [⟨0,(),8,false,false,.section 0,0⟩,⟨32,(),8,false,false,.section 0,16⟩,
      ⟨64,(),8,false,false,.section 0,8⟩]
  else []

theorem unwind_records_both_tables :
    ∃ (tables : Tables arm64 bothTables bothTablesRelocs) (info : UnwindInfo),
      parseUnwindInfo arm64 bothTables bothTablesRelocs .uncovered = some info ∧
      Joined arm64 tables.compact tables.fdes info ∧
      ((List.range 3).map fun i => (recordsOf (integrateObject {} bothTables info {}) i).map
          fun rec => (place rec,rec.encoding,rec.fde)) =
        [[((0,0),0x02000000,none),((0,8),0x02000001,none)],[((1,0),0x03000000,some 0)],
          [((2,0),0,some 1)]] ∧
      ∀ (i : ℕ) isec, (integrateObject {} bothTables info {}).isecs[i]? = some isec →
        isec.isAlive = true → isec.unwindRecords (integrateObject {} bothTables info {}) =
          recordsOf (integrateObject {} bothTables info {}) i := by
  have hsome : (readUnwindInfo arm64 bothTables bothTablesRelocs .uncovered).isSome = true := by
    decide +kernel
  obtain ⟨tables⟩ := tables_of_read (Option.isSome_iff_exists.1 hsome).choose_spec
  obtain ⟨read,info,hread,hparse,hjoined,-,-,hrecords,hlast⟩ :=
    unwind_records tables (by decide) .refl {}
  refine ⟨tables,info,hparse,hjoined,?_,
    fun i isec hi halive => ((hlast _ .refl).1 i isec hi halive).2⟩
  have hplaces : ((readUnwindInfo arm64 bothTables bothTablesRelocs .uncovered).map fun read =>
      (List.range 3).map fun i => ((read.unwind.filter fun rec => rec.isec = i).map
        (rebaseRecord 0 0 [])).map fun rec => (place rec,rec.encoding,rec.fde)) =
      some [[((0,0),0x02000000,none),((0,8),0x02000001,none)],[((1,0),0x03000000,some 0)],
        [((2,0),0,some 1)]] := by decide +kernel
  rw [hread] at hplaces
  have hplaces := Option.some.inj hplaces
  rw [← hplaces]
  refine List.map_congr_left fun i _ => ?_
  have hi := hrecords i
  rw [show ([] : List InputSection).length + i = i from Nat.zero_add i] at hi
  rw [hi]
  rfl

/-- Two functions, the first with a compact record and one in DWARF mode. -/
def twoRecords : StagedObject where
  data := [0,0,0,0, 0,0,0,0, 16,0,0,0, 0,0,0,2, 0,0,0,0, 0,0,0,0, 0,0,0,0, 0,0,0,0,
    0,0,0,0, 0,0,0,0, 16,0,0,0, 0,0,0,3, 0,0,0,0, 0,0,0,0, 0,0,0,0, 0,0,0,0,
    0,0,0,0, 0,0,0,0, 16,0,0,0, 0,0,0,2, 0,0,0,0, 0,0,0,0, 0,0,0,0, 0,0,0,0]
  sectHdrs := [
    { segname := bytes "__TEXT", sectname := bytes "__text", size := 32 },
    { segname := bytes "__LD", sectname := bytes "__compact_unwind", addr := 32, size := 96 }]
  isecs := [{ file := 0, size := 16 },{ file := 0, inputAddr := 16, size := 16 }]
  subsecs := [0,1]

def twoRecordsRelocs (_ : ℕ) : List (Arch.Reloc Unit) :=
  [⟨0,(),8,false,false,.section 0,0⟩,⟨32,(),8,false,false,.section 0,0⟩,
    ⟨64,(),8,false,false,.section 0,16⟩]

def twoRecordsRead : List UnwindRecord :=
  [{ codeLen := 16, encoding := 0x02000000 },{ codeLen := 16, encoding := 0x03000000 },
    { isec := 1, codeLen := 16, encoding := 0x02000000 }]

def twoRecordsKept : UnwindInfo where
  unwind := [{ codeLen := 16, encoding := 0x02000000 },
    { isec := 1, codeLen := 16, encoding := 0x02000000 }]

/-- A function with a compact record loses that in DWARF mode, which no FDE goes
with, and a dead subsection's range stays where its records were. -/
theorem covered_record_dropped :
    compactRecords twoRecords twoRecordsRelocs = some twoRecordsRead ∧
    parseUnwindInfo arm64 twoRecords twoRecordsRelocs .uncovered = some twoRecordsKept ∧
    (¬ ∀ p ∈ coveredBy arm64 twoRecordsRead,
      (twoRecordsKept.unwind.filter fun rec => place rec = p) =
        twoRecordsRead.filter fun rec => place rec = p) ∧
    ¬ ∀ (i : ℕ) isec,
      (removeDeadUnwindInfo (kill (integrateObject {} twoRecords twoRecordsKept {}) 0)).isecs[i]? =
        some isec →
      isec.unwindRecords
          (removeDeadUnwindInfo (kill (integrateObject {} twoRecords twoRecordsKept {}) 0)) =
        recordsOf (removeDeadUnwindInfo
          (kill (integrateObject {} twoRecords twoRecordsKept {}) 0)) i := by
  refine ⟨by decide +kernel,by decide +kernel,?_,?_⟩
  · intro h
    have hfirst := h (0,0) (by decide)
    revert hfirst
    decide +kernel
  · intro h
    have hstale := h 0 _ rfl
    revert hstale
    decide +kernel

end MoldMacho.ParseUnwind
