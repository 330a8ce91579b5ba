import MoldMacho.Chunks.EhFrameCells
import MoldMacho.InputFiles.FdeCies
import MoldMacho.InputFiles.LinkUnwind

/-!
# The records that objects give the output

Whatever objects are read and whatever dies, the CIEs and FDEs of a link begin with
their lengths and have the fields that they are written by, and each unwind record's
FDE is of the record's function.
-/

set_option autoImplicit false

namespace MoldMacho.EhFrameSection
open MoldMacho.EhFrame
open MoldMacho.InputSections
open MoldMacho.ParseUnwind hiding place fdeMap
open MoldMacho.Chunks (bytes)
open Bytes LengthRecords Leb128 Relation

/-! ## Scanning -/

theorem read_in_record {contents rec : List UInt8} {pos m n k : ℕ}
    (h : bytesAt contents pos m = some rec) (hk : k+n ≤ m) :
    readLe n rec k = readLe n contents (pos+k) := by
  obtain ⟨hle,rfl⟩ := bytes_at_some h
  rw [readLe, readLe, bytesAt, bytesAt, if_pos (by simp; omega), if_pos (by omega), List.drop_take,
    List.drop_drop, List.take_take, Nat.min_eq_left (by omega)]

structure FoundOk (found : Records) : Prop where
  cies : ∀ cie ∈ found.cies, CieOk cie
  fdes : ∀ fde ∈ found.fdes, Prefixed fde.data

theorem add_record_ok {addr : ℕ} {contents : List UInt8} {pos len : ℕ} {found next : Records}
    (hlen : readLe 4 contents pos = some len) (h : addRecord addr contents pos len found = some next)
    (hfound : FoundOk found) : FoundOk next := by
  simp only [addRecord, Option.bind_eq_bind, Option.bind_eq_some_iff] at h
  obtain ⟨rec,hrec,id,hid,h⟩ := h
  have hlength : rec.length = 4+len := by
    obtain ⟨hle,rfl⟩ := bytes_at_some hrec
    simp
    omega
  have hinited : Prefixed rec := by
    rw [Prefixed, read_in_record hrec (by omega), Nat.add_zero, hlen, hlength,
      Nat.add_sub_cancel_left]
  split at h
  · next hzero =>
    obtain ⟨aug,haug,h⟩ := Option.bind_eq_some_iff.1 h
    cases h
    refine ⟨?_,hfound.fdes⟩
    intro cie hcie
    rcases List.mem_append.1 hcie with hcie | hcie
    · exact hfound.cies cie hcie
    · obtain rfl := List.mem_singleton.1 hcie
      -- its version is past the ID
      obtain ⟨version,hversion,-⟩ := Option.bind_eq_some_iff.1 haug
      have hlong := (List.getElem?_eq_some_iff.1 hversion).1
      refine ⟨hinited,?_⟩
      show readLe 4 rec 4 = some 0
      rw [read_in_record hrec (by omega), hid, hzero]
  · obtain ⟨cie,-,h⟩ := Option.bind_eq_some_iff.1 h
    cases h
    refine ⟨hfound.cies,?_⟩
    intro fde hfde
    rcases List.mem_append.1 hfde with hfde | hfde
    · exact hfound.fdes fde hfde
    · rw [List.mem_singleton.1 hfde]
      exact hinited

theorem scan_records_ok {addr : ℕ} {contents : List UInt8} {pos : ℕ} {found last : Records}
    (h : scanRecords addr contents pos found = some last) (hfound : FoundOk found) :
    FoundOk last := by
  fun_induction scanRecords addr contents pos found with
  | case1 => cases h
  | case2 => cases h
  | case3 pos found hpos len hlen next hnext ih => exact ih h (add_record_ok hlen hnext hfound)
  | case4 pos found hpos =>
    cases h
    exact hfound

/-- Personalities leave the CIEs' bytes. -/
theorem personality_read {target : Target} {addr : ℕ} {encs : List (Option UInt8)}
    {rels : List Arch.MachRel} {cies cies' : List CieRecord}
    (h : rels.foldlM (addPersonality target addr encs) cies = some cies')
    (hcies : ∀ cie ∈ cies, CieOk cie) : ∀ cie ∈ cies', CieOk cie := by
  have hkeys : cies'.map cieKey = cies.map cieKey :=
    Lists.foldlM_keeps (I := fun l => l.map cieKey = cies.map cieKey)
      (fun _ _ _ hstep hl => (add_personality_key hstep).trans hl) h rfl
  intro cie hcie
  have hmem : cieKey cie ∈ cies.map cieKey := by
    rw [← hkeys]
    exact List.mem_map_of_mem hcie
  obtain ⟨old,hold,heq⟩ := List.mem_map.1 hmem
  have hdata : old.data = cie.data := congrArg Prod.snd heq
  have hok := hcies old hold
  exact ⟨hdata ▸ hok.len,hdata ▸ hok.id⟩

/-! ## The fields of an FDE -/

theorem pointer_size {enc : UInt8} {size : ℕ} (h : checkPointerEncoding enc = some size) :
    size = if enc &&& 0xf = dwEhPeSdata4 then 4 else 8 := by
  rw [checkPointerEncoding] at h
  split at h
  · next henc =>
    obtain rfl := Option.some.inj h
    rw [henc]
    rfl
  · split at h
    · next henc =>
      obtain rfl := Option.some.inj h
      rw [henc]
      rfl
    · cases h

theorem read_value_in {rec : List UInt8} {pos size n : ℕ} (hsize : size = 4 ∨ size = 8)
    (h : readValue rec pos size = some n) : pos+size ≤ rec.length := by
  have hin {m k : ℕ} (hk : readLe m rec pos = some k) : pos+m ≤ rec.length := by
    obtain ⟨bytes,hbytes,-⟩ := Option.map_eq_some_iff.1 hk
    exact (bytes_at_some hbytes).1
  rcases hsize with rfl | rfl
  · rw [readValue, if_pos rfl] at h
    obtain ⟨k,hk,-⟩ := Option.map_eq_some_iff.1 h
    exact hin hk
  · rw [readValue, if_neg (by decide)] at h
    exact hin h

/-- An FDE that is read has the fields that it is written by. -/
theorem read_fde_ok {obj : StagedObject} {cies : List CieRecord} {raw : RawFde} {f : FdeFunction}
    (h : readFde obj cies raw = some f) (hinited : Prefixed raw.data) :
    ∃ cie, cies[raw.cie]? = some cie ∧ FdeOk (fdeRecord (raw,f)) cie := by
  simp only [readFde, Option.bind_eq_bind, Option.bind_eq_some_iff] at h
  obtain ⟨cie,hcie,size,hsize,addr,-,len,hlen,⟨isec,off⟩,-,sect,-,h⟩ := h
  have hpc : size = cie.pcSize := pointer_size hsize
  subst hpc
  have hfields := read_value_in (pc_size_cases cie) hlen
  split at h
  · next enc henc =>
    obtain ⟨lsda,hlsda,h⟩ := Option.bind_eq_some_iff.1 h
    cases h
    refine ⟨cie,hcie,hinited,?_,fun hsome => ?_⟩
    · show 8+2*cie.pcSize ≤ raw.data.length
      omega
    · simp only [fdeLsda, Option.bind_eq_bind, Option.bind_eq_some_iff] at hlsda
      obtain ⟨⟨n,aug⟩,hdecode,hlsda⟩ := hlsda
      dsimp only at hlsda
      split at hlsda
      · cases hlsda
        exact absurd rfl hsome
      · obtain ⟨val,hval,-⟩ := Option.bind_eq_some_iff.1 hlsda
        obtain ⟨k,hk,hlength⟩ := decode_uleb_rest hdecode
        rw [List.length_drop] at hlength
        have hlsda : (if enc &&& 0xf = dwEhPeSdata4 then 4 else 8) = cie.lsdaSize := by
          rw [CieRecord.lsdaSize, henc, Option.any_some]
          simp
        have hpos : raw.data.length - aug.length = 8+2*cie.pcSize+k+1 := by omega
        rw [hlsda, hpos] at hval
        refine ⟨8+2*cie.pcSize+k+1,?_,read_value_in (lsda_size_cases cie) hval⟩
        rw [FdeRecord.lsdaPos]
        exact Option.map_eq_some_iff.2 ⟨k,hk,rfl⟩
  · cases h
    refine ⟨cie,hcie,hinited,?_,fun hsome => absurd rfl hsome⟩
    show 8+2*cie.pcSize ≤ raw.data.length
    omega

/-! ## The FDEs of an object -/

/-- The FDE of each record is of the record's function. -/
def Own (unwind : List UnwindRecord) (fdes : List FdeRecord) : Prop :=
  ∀ rec ∈ unwind, ∀ k, rec.fde = some k →
    ∃ fde, fdes[k]? = some fde ∧ (fde.isec,fde.funcOffset) = ParseUnwind.place rec

theorem Own.keep {unwind : List UnwindRecord} {fdes : List FdeRecord} (h : Own unwind fdes)
    (more : List FdeRecord) : Own unwind (fdes ++ more) := by
  intro rec hrec k hk
  obtain ⟨fde,hget,hplace⟩ := h rec hrec k hk
  refine ⟨fde,?_,hplace⟩
  rw [List.getElem?_append_left (List.getElem?_eq_some_iff.1 hget).1]
  exact hget

theorem add_fde_own {covered : List Place} {keepAllFdes : Bool} {s : Adding}
    {fde : RawFde × FdeFunction} (h : Own s.unwind s.fdes) (hslot : Slotted s) :
    Own (addFde covered keepAllFdes s fde).unwind (addFde covered keepAllFdes s fde).fdes := by
  have hnew : (s.fdes ++ [fdeRecord fde])[s.fdes.length]? = some (fdeRecord fde) :=
    List.getElem?_concat_length
  have hmore := h.keep [fdeRecord fde]
  simp only [addFde]
  split
  · exact h
  · split
    · exact hmore
    · split
      · next i hi =>
        obtain ⟨own,hown,hplace⟩ := hslot _ i hi
        intro rec hrec k hk
        obtain ⟨j,hj⟩ := List.getElem?_of_mem hrec
        rw [modify_get hown fun rec => { rec with fde := some s.fdes.length }] at hj
        split at hj
        · cases hj
          cases hk
          exact ⟨_,hnew,hplace.symm⟩
        · exact hmore rec (List.mem_of_getElem? hj) k hk
      · split
        · exact hmore
        · intro rec hrec k hk
          rcases List.mem_append.1 hrec with hrec | hrec
          · exact hmore rec hrec k hk
          · obtain rfl := List.mem_singleton.1 hrec
            cases hk
            exact ⟨_,hnew,rfl⟩

theorem add_fde_fdes {covered : List Place} {keepAllFdes : Bool} {s : Adding}
    {fde : RawFde × FdeFunction} {r : FdeRecord}
    (h : r ∈ (addFde covered keepAllFdes s fde).fdes) : r ∈ s.fdes ∨ r = fdeRecord fde := by
  have hconcat (h : r ∈ s.fdes ++ [fdeRecord fde]) : r ∈ s.fdes ∨ r = fdeRecord fde := by
    simpa using h
  simp only [addFde] at h
  split at h
  · exact Or.inl h
  · split at h
    · exact hconcat h
    · split at h
      · exact hconcat h
      · split at h <;> exact hconcat h

/-- What adding FDEs makes of records whose slots are theirs. -/
theorem add_fdes_run {covered : List Place} {keepAllFdes : Bool} {n : ℕ}
    (fdes : List (RawFde × FdeFunction)) (s : Adding) (hfdes : ∀ fde ∈ fdes, fde.2.isec < n)
    (hknown : Known n s.unwind s.fdes) (hslot : Slotted s) (hown : Own s.unwind s.fdes) :
    Own (fdes.foldl (addFde covered keepAllFdes) s).unwind
        (fdes.foldl (addFde covered keepAllFdes) s).fdes ∧
      ∀ r ∈ (fdes.foldl (addFde covered keepAllFdes) s).fdes,
        r ∈ s.fdes ∨ ∃ fde ∈ fdes, r = fdeRecord fde := by
  induction fdes generalizing s with
  | nil => exact ⟨hown,fun _ h => Or.inl h⟩
  | cons fde fdes ih =>
    rw [List.forall_mem_cons] at hfdes
    obtain ⟨hknown',hslot'⟩ := add_fde_known hknown hslot hfdes.1
    obtain ⟨hown',hall⟩ := ih _ hfdes.2 hknown' hslot' (add_fde_own hown hslot)
    refine ⟨hown',fun r hr => ?_⟩
    rcases hall r hr with hr | ⟨fde',hfde',rfl⟩
    · rcases add_fde_fdes hr with hr | rfl
      · exact Or.inl hr
      · exact Or.inr ⟨fde,List.mem_cons_self,rfl⟩
    · exact Or.inr ⟨fde',List.mem_cons_of_mem _ hfde',rfl⟩

/-- What an object gives a link. -/
structure InfoOk (info : UnwindInfo) : Prop where
  cies : ∀ cie ∈ info.cies, CieOk cie
  fdes : ∀ fde ∈ info.fdes, ∃ cie, info.cies[fde.cie]? = some cie ∧ FdeOk fde cie
  own : Own info.unwind info.fdes

theorem read_info_ok {T : Type} {target : Target} {obj : StagedObject}
    {relocs : ℕ → List (Arch.Reloc T)} {keptFdes : KeptFdes} {info : UnwindInfo}
    (h : readUnwindInfo target obj relocs keptFdes = some info) : InfoOk info := by
  simp only [readUnwindInfo, Option.bind_eq_bind, Option.bind_eq_some_iff] at h
  obtain ⟨compact,hcompact,h⟩ := h
  have hentered := compact_records_entered hcompact
  have hstart : Own compact [] := by
    intro rec hrec k hk
    rw [(hentered rec hrec).1] at hk
    cases hk
  split at h
  · cases h
    exact ⟨by simp,by simp,hstart⟩
  · split at h
    · obtain ⟨read,hread,h⟩ := Option.bind_eq_some_iff.1 h
      cases h
      simp only [parseEhframe, Option.bind_eq_bind, Option.bind_eq_some_iff] at hread
      obtain ⟨⟨cies,raw⟩,hrecords,fdes,hfdes,hread⟩ := hread
      cases hread
      simp only [readEhframe, Option.bind_eq_bind, Option.bind_eq_some_iff] at hrecords
      obtain ⟨contents,-,found,hscan,cies',hpersonality,hrecords⟩ := hrecords
      cases hrecords
      have hfound := scan_records_ok hscan ⟨by simp,by simp⟩
      have hknown : Known obj.isecs.length compact [] := by
        refine ⟨fun rec hrec => (hentered rec hrec).2,?_⟩
        intro rec hrec k hk
        rw [(hentered rec hrec).1] at hk
        cases hk
      have hslot : Slotted { unwind := compact, dwarfRecs := dwarfRecords target compact } := by
        intro p i hp
        obtain ⟨rec,hrec,hplace,-⟩ := dwarf_records_some hp
        exact ⟨rec,hrec,hplace⟩
      obtain ⟨hown,hall⟩ := @add_fdes_run (coveredBy target compact) (keptFdes = .all) _ fdes _
        (fun fde hfde => (read_functions_lt hfdes fde hfde).2) hknown hslot hstart
      refine ⟨personality_read hpersonality hfound.cies,?_,?_⟩
      · intro r hr
        rcases hall r hr with hr | ⟨fde,hfde,rfl⟩
        · cases hr
        · obtain ⟨old,hold,hread⟩ := Lists.mapM_mem hfdes fde hfde
          obtain ⟨f,hf,rfl⟩ := Option.map_eq_some_iff.1 hread
          exact read_fde_ok hf (hfound.fdes old hold)
      · exact fun rec hrec => hown rec (List.mem_filter.1 hrec).1
    · cases h
      exact ⟨by simp,by simp,fun rec hrec => hstart rec (List.mem_filter.1 hrec).1⟩

/-! ## The link -/

/-- What objects have given a link. -/
structure LinkOk (ctx : Context) : Prop where
  cies : ∀ cie ∈ ctx.cies, CieOk cie
  fdes : ∀ fde ∈ ctx.fdes, ∃ cie, ctx.cies[fde.cie]? = some cie ∧ FdeOk fde cie
  own : OwnFdes ctx

theorem integrate_ok {ctx : Context} {obj : StagedObject} {info : UnwindInfo} {file : ObjectFile}
    (hctx : LinkOk ctx) (hinfo : InfoOk info) : LinkOk (integrateObject ctx obj info file) where
  cies := by
    intro cie hcie
    rcases List.mem_append.1 hcie with hcie | hcie
    · exact hctx.cies cie hcie
    · obtain ⟨old,hold,rfl⟩ := List.mem_map.1 hcie
      have hok := hinfo.cies old hold
      exact ⟨hok.len,hok.id⟩
  fdes := by
    intro fde hfde
    simp only [integrateObject] at hfde ⊢
    rcases List.mem_append.1 hfde with hfde | hfde
    · obtain ⟨cie,hcie,hok⟩ := hctx.fdes fde hfde
      refine ⟨cie,?_,hok⟩
      rw [List.getElem?_append_left (List.getElem?_eq_some_iff.1 hcie).1]
      exact hcie
    · obtain ⟨old,hold,rfl⟩ := List.mem_map.1 hfde
      obtain ⟨cie,hcie,hok⟩ := hinfo.fdes old hold
      refine ⟨rebaseCie file.symbols cie,?_,hok.len,hok.fields,?_⟩
      · simp only [rebaseFde]
        rw [List.getElem?_append_right (Nat.le_add_left _ _), Nat.add_sub_cancel, List.getElem?_map,
          hcie]
        rfl
      · intro hsome
        apply hok.lsda
        rintro hnone
        exact hsome (by simp [rebaseFde, hnone])
  own := by
    intro rec hrec k hk
    simp only [integrateObject] at hrec ⊢
    rcases List.mem_append.1 hrec with hrec | hrec
    · obtain ⟨fde,hfde,hplace⟩ := hctx.own rec hrec k hk
      refine ⟨fde,?_,hplace⟩
      rw [List.getElem?_append_left (List.getElem?_eq_some_iff.1 hfde).1]
      exact hfde
    · obtain ⟨old,hold,rfl⟩ := List.mem_map.1 hrec
      obtain ⟨l,hl,rfl⟩ := Option.map_eq_some_iff.1 hk
      obtain ⟨fde,hfde,hplace⟩ := hinfo.own old hold l hl
      obtain ⟨hisec,hoff⟩ := Prod.mk.inj hplace
      refine ⟨rebaseFde ctx.isecs.length ctx.cies.length fde,?_,?_,hoff⟩
      · rw [List.getElem?_append_right (Nat.le_add_left _ _), Nat.add_sub_cancel, List.getElem?_map,
          hfde]
        rfl
      · simp only [rebaseFde, rebaseRecord, hisec]

theorem remove_dead_ok {ctx : Context} (hctx : LinkOk ctx) : LinkOk (removeDeadUnwindInfo ctx) where
  cies := hctx.cies
  fdes fde hfde := hctx.fdes fde (List.mem_filter.1 hfde).1
  own := by
    intro rec hrec k hk
    rw [remove_dead_records] at hrec
    obtain ⟨old,hold,rfl⟩ := List.mem_map.1 hrec
    obtain ⟨l,hl,hmap⟩ := Option.bind_eq_some_iff.1 hk
    obtain ⟨fde,hfde,hplace⟩ := hctx.own old (List.mem_filter.1 hold).1 l hl
    obtain ⟨fde',hfde',hif⟩ := Option.bind_eq_some_iff.1 hmap
    obtain rfl := Option.some.inj (hfde.symm.trans hfde')
    split at hif
    · next halive =>
      obtain ⟨k',hk',hget⟩ := fde_map_get hfde halive
      obtain rfl := Option.some.inj (hk'.symm.trans hmap)
      exact ⟨fde,hget,hplace⟩
    · cases hif

theorem step_ok {target : Target} {ctx ctx' : Context} (h : Step target ctx ctx')
    (hctx : LinkOk ctx) : LinkOk ctx' := by
  cases h with
  | add file fresh parsed =>
    obtain ⟨read,hread,rfl⟩ := Option.map_eq_some_iff.1 parsed
    have hinfo := read_info_ok hread
    exact integrate_ok hctx ⟨hinfo.cies,hinfo.fdes,fun rec hrec => hinfo.own rec (mem_group.1 hrec)⟩
  | die i => exact ⟨hctx.cies,hctx.fdes,hctx.own⟩
  | removeDead => exact remove_dead_ok hctx

theorem reached_ok {target : Target} {ctx : Context} (h : Reached target ctx) : LinkOk ctx := by
  induction h with
  | refl => exact ⟨by simp,by simp,fun rec hrec => by cases hrec⟩
  | tail _ hstep ih => exact step_ok hstep ih

/-- Copies stand for subsections, which keep their unwind records. -/
structure Folded (link ctx : Context) : Prop where
  records : ctx.unwindRecords = link.unwindRecords
  cies : ctx.cies = link.cies
  fdes : ctx.fdes = link.fdes
  length : ctx.isecs.length = link.isecs.length
  isecs : ∀ (i : ℕ) isec, ctx.isecs[i]? = some isec → ∃ old, link.isecs[i]? = some old ∧
    isec.isAlive = old.isAlive ∧ isec.unwindOffset = old.unwindOffset ∧ isec.nunwind = old.nunwind

theorem folded_ranged {link ctx : Context} (hfold : Folded link ctx) (h : Ranged link) :
    Ranged ctx where
  together := by
    rw [hfold.records]
    exact h.together
  known := by
    rw [hfold.records, hfold.length, hfold.fdes]
    exact h.known
  range i isec hi halive := by
    obtain ⟨old,hold,hsame,hoff,hcount⟩ := hfold.isecs i isec hi
    obtain ⟨hlen,hitems⟩ := h.range i old hold (hsame ▸ halive)
    rw [hfold.records]
    exact ⟨hcount.trans hlen,by rw [hoff, hcount]; exact hitems⟩

theorem Folded.refl (link : Context) : Folded link link where
  records := rfl
  cies := rfl
  fdes := rfl
  length := rfl
  isecs _ isec h := ⟨isec,h,rfl,rfl,rfl⟩

theorem folded_ok {target : Target} {link ctx : Context} (hlink : Reached target link)
    (hfold : Folded link ctx) : RecordsOk ctx := by
  have hok := reached_ok hlink
  constructor
  · intro cie hcie
    exact hok.cies cie (hfold.cies ▸ hcie)
  · intro fde hfde
    rw [hfold.cies]
    exact hok.fdes fde (hfold.fdes ▸ hfde)

/-- The size of a final image's section. -/
def finalSize (ctx : Context) : ℕ :=
  ((finalRecords (construct ctx).1).map (EhRec.size (construct ctx).1)).sum

/-- Whatever objects are read, and whatever dies and is folded then, the `-r` section
written splits into the FDEs of live functions and the CIEs they use, each meaning
what the object's did. So does a final image's, of functions that no copy stands for,
with the unwind records' FDEs those of their functions, if and only if what is taken
for a personality's relocation is that of the personality's pointer, for any section
of a final image that 32 bits can lay out. -/
theorem eh_frame_written {target : Target} {link ctx : Context} (hlink : Reached target link)
    (hfold : Folded link ctx) :
    (∀ image bits, RelocatableImage ctx image bits) ∧
      (CellsIn ctx (isKept ctx) → ∀ image, FinalImage ctx image) ∧
      (finalSize ctx < 2^32 → (∀ image, FinalImage ctx image) → CellsIn ctx (isKept ctx)) := by
  have hok := folded_ok hlink hfold
  have hown : OwnFdes ctx := by
    intro rec hrec k hk
    rw [hfold.fdes]
    exact (reached_ok hlink).own rec (hfold.records ▸ hrec) k hk
  have hranged := folded_ranged hfold (run_ranged ranged_start hlink).1
  refine ⟨relocatable_image hok,?_,?_⟩
  · exact fun hcells => final_image hok hcells hown hranged
  · exact fun hsum hfinal => cells_of_final hok hsum hfinal

/-- A function's FDE and its CIE, with the personality's relocation at an offset. -/
def personalityAt (offset : ℕ) : StagedObject where
  data := [20,0,0,0, 0,0,0,0, 1,0x7a,0x50,0x52,0, 1,0x78,0x1e, 6,0x9b,0,0,0,0,0x10, 0,
    24,0,0,0, 28,0,0,0, 0xd0,0xff,0xff,0xff,0xff,0xff,0xff,0xff, 16,0,0,0,0,0,0,0, 0,0,0,0]
  sectHdrs := [
    { segname := bytes "__TEXT", sectname := bytes "__text", size := 16 },
    { segname := bytes "__TEXT", sectname := bytes "__eh_frame", addr := 16, size := 52
      rels := [⟨offset,0x7d000000⟩] }]
  isecs := [{ file := 0, size := 16 }]
  subsecs := [0]
  machSyms := [{ type := 1 }]

def personalityLink (offset : ℕ) : Option Context :=
  (parseUnwindInfo arm64 (personalityAt offset) (fun _ => ([] : List (Arch.Reloc Unit)))
    .uncovered).map fun info => integrateObject {} (personalityAt offset) info { symbols := [0] }

theorem personality_reached {offset : ℕ} {link : Context} (h : personalityLink offset = some link) :
    Reached arm64 link := by
  obtain ⟨info,hinfo,rfl⟩ := Option.map_eq_some_iff.1 h
  have hfresh : ∀ isec ∈ (personalityAt offset).isecs, isec.nunwind = 0 := by
    intro isec hisec
    rw [List.mem_singleton.1 hisec]
  exact ReflTransGen.refl.tail (.add { symbols := [0] } hfresh hinfo)

theorem eh_frame_written_personality :
    ∃ link, personalityLink 18 = some link ∧ finalSize link = 52 ∧
      (∀ image bits, RelocatableImage link image bits) ∧ (∀ image, FinalImage link image) ∧
      CellsIn link (isKept link) := by
  have hlink : ((personalityLink 18).any fun link => finalSize link = 52 ∧
      link.cies.all fun cie => personalityPos cie.data = some cie.personalityOffset ∧
        cie.personalityOffset+4 ≤ cie.data.length) = true := by decide +kernel
  obtain ⟨link,hsome,hcies⟩ := (Option.any_eq_true _ _).1 hlink
  obtain ⟨hsize,hcies⟩ := of_decide_eq_true hcies
  rw [List.all_eq_true] at hcies
  obtain ⟨hrel,hright,hcells⟩ := eh_frame_written (personality_reached hsome) (Folded.refl link)
  have hfinal : ∀ image, FinalImage link image := hright fun fde _ _ cie hc sym _ =>
    of_decide_eq_true (hcies cie (List.mem_of_getElem? hc))
  exact ⟨link,hsome,hsize,hrel,hfinal,hcells (by rw [hsize]; decide) hfinal⟩

/-- The section that a final image of the object has. -/
def personalitySection (offset : ℕ) : Option (List UInt8) :=
  (personalityLink offset).bind fun link =>
    copyBuf (construct link).1 {} (construct link).2.records
      (List.replicate (construct link).2.size 0)

theorem personality_section {offset : ℕ} {link : Context} {out : List UInt8}
    (hlink : personalityLink offset = some link) (hout : personalitySection offset = some out)
    (hfinal : FinalImage link {}) :
    Written (construct link).1 {} (fun _ => true) (CieWritten {}) (construct link).2.records out := by
  rw [personalitySection, hlink, Option.bind_some] at hout
  exact hfinal.right _ out List.length_replicate hout

theorem personality_at_length {link : Context} (hlink : personalityLink 0 = some link) :
    ¬ FinalImage link {} := by
  intro hfinal
  have hsplit : ((personalitySection 0).any fun out => (split out 0).isNone) = true := by
    decide +kernel
  obtain ⟨out,hout,hnone⟩ := (Option.any_eq_true _ _).1 hsplit
  obtain ⟨recs,hrecs,-⟩ := (personality_section hlink hout hfinal).split
  rw [hrecs] at hnone
  cases hnone

theorem personality_at_end {link : Context} (hlink : personalityLink 22 = some link) :
    ¬ ∀ image, FinalImage link image := by
  intro hfinal
  have hcie : ((personalityLink 22).any fun link => finalSize link < 2^32 ∧
      link.fdes.any fun fde => isKept link fde ∧ link.cies[fde.cie]?.any fun cie =>
        cie.personality = some 0 ∧ personalityPos cie.data ≠ some cie.personalityOffset) = true := by
    decide +kernel
  rw [hlink, Option.any_some] at hcie
  obtain ⟨hsum,hany⟩ := of_decide_eq_true hcie
  obtain ⟨fde,hfde,hany⟩ := List.any_eq_true.1 hany
  obtain ⟨hkept,hany⟩ := of_decide_eq_true hany
  obtain ⟨cie,hc,hcie⟩ := (Option.any_eq_true _ _).1 hany
  obtain ⟨hsym,hpos⟩ := of_decide_eq_true hcie
  have hok := folded_ok (personality_reached hlink) (Folded.refl link)
  have hcell := cells_of_final hok hsum hfinal fde hfde hkept cie hc
  exact hpos (hcell 0 hsym).1

/-- A relocation of a CIE's length is taken for its personality's, and so is one past
its personality's pointer. -/
theorem personality_outside :
    (∃ link, personalityLink 0 = some link ∧ Reached arm64 link ∧ Folded link link ∧
      ¬ FinalImage link {}) ∧
    ∃ link, personalityLink 22 = some link ∧ Reached arm64 link ∧ Folded link link ∧
      ¬ ∀ image, FinalImage link image := by
  have hfirst : (personalityLink 0).isSome = true := by decide +kernel
  have hlast : (personalityLink 22).isSome = true := by decide +kernel
  obtain ⟨first,hfirst⟩ := Option.isSome_iff_exists.1 hfirst
  obtain ⟨last,hlast⟩ := Option.isSome_iff_exists.1 hlast
  exact ⟨⟨first,hfirst,personality_reached hfirst,Folded.refl first,personality_at_length hfirst⟩,
    ⟨last,hlast,personality_reached hlast,Folded.refl last,personality_at_end hlast⟩⟩

end MoldMacho.EhFrameSection
