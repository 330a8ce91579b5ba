import MoldMacho.Chunks.EhFrameWriters
import MoldMacho.InputFiles.UnwindRanges

/-!
# The FDEs that the output keeps

A final image drops the FDEs of folded copies and their unwind records; the records
that stay point at the FDEs they pointed at, and each subsection that none replaces
has the records it had. Both kinds of output hold the FDEs kept and mean what the
objects' do.
-/

set_option autoImplicit false

namespace MoldMacho.EhFrameSection
open MoldMacho.Arch (MachRel)
open MoldMacho.InputSections
open MoldMacho.ParseUnwind (RangeOf Ranged Known recordsOf setUnwindRanges withFde)
open Bytes LengthRecords Replacements

/-- The FDE of each unwind record is of the record's function. -/
def OwnFdes (ctx : Context) : Prop := ∀ rec ∈ ctx.unwindRecords, ∀ k, rec.fde = some k →
  ∃ fde, ctx.fdes[k]? = some fde ∧ fde.isec = rec.isec ∧ fde.funcOffset = rec.inputOffset

section Drop
variable {ctx : Context}

theorem fde_map_some {k l : ℕ} (h : fdeMap ctx k = some l) :
    ∃ fde, ctx.fdes[k]? = some fde ∧ isKept ctx fde = true ∧ (dropFolded ctx).fdes[l]? = some fde := by
  obtain ⟨fde,hfde,h⟩ := Option.bind_eq_some_iff.1 h
  split at h
  · next hkept =>
    obtain rfl := Option.some.inj h
    exact ⟨fde,hfde,hkept,Lists.filter_countP hfde hkept⟩
  · cases h

/-- A record that stays points at the FDE it pointed at. -/
theorem move_record_with {rec moved : UnwindRecord} (h : moveRecord ctx rec = some moved) :
    moved.isec = rec.isec ∧ withFde (dropFolded ctx) moved = withFde ctx rec := by
  rw [moveRecord] at h
  split at h
  · next hnone =>
    obtain rfl := Option.some.inj h
    simp [withFde, hnone]
  · next k hk =>
    obtain ⟨l,hl,rfl⟩ := Option.map_eq_some_iff.1 h
    obtain ⟨fde,hfde,-,hget⟩ := fde_map_some hl
    exact ⟨rfl,by simp [withFde, hk, hfde, hget]⟩

/-- A record of a subsection that none replaces stays. -/
theorem move_record_kept (hknown : Known ctx.isecs.length ctx.unwindRecords ctx.fdes)
    {rec : UnwindRecord} (hrec : rec ∈ ctx.unwindRecords)
    (hroot : replacementOf ctx.isecs rec.isec = none) : ∃ moved, moveRecord ctx rec = some moved := by
  rw [moveRecord]
  cases hk : rec.fde with
  | none => exact ⟨rec,rfl⟩
  | some k =>
    obtain ⟨fde,hfde,hisec⟩ := hknown.fde rec hrec k hk
    have hlt := hknown.isec rec hrec
    have hkept : isKept ctx fde = true := by
      rw [isKept, hisec, List.getElem?_eq_getElem hlt, Option.any_some]
      rw [replacementOf, List.getElem?_eq_getElem hlt, Option.bind_some] at hroot
      rw [hroot]
      rfl
    have hmap : fdeMap ctx k = some ((ctx.fdes.take k).countP (isKept ctx)) := by
      rw [fdeMap, hfde, Option.bind_some, if_pos hkept]
    dsimp only
    rw [hmap]
    exact ⟨_,rfl⟩

theorem drop_folded_own (hown : OwnFdes ctx) : OwnFdes (dropFolded ctx) := by
  intro rec hrec k hk
  obtain ⟨old,hold,hmove⟩ := List.mem_filterMap.1 hrec
  rw [moveRecord] at hmove
  split at hmove
  · next hnone =>
    obtain rfl := Option.some.inj hmove
    rw [hnone] at hk
    cases hk
  · next j hj =>
    obtain ⟨l,hl,rfl⟩ := Option.map_eq_some_iff.1 hmove
    obtain rfl := Option.some.inj hk
    obtain ⟨fde,hfde,-,hget⟩ := fde_map_some hl
    obtain ⟨fde',hfde',hplace⟩ := hown old hold j hj
    obtain rfl := Option.some.inj (hfde.symm.trans hfde')
    exact ⟨fde,hget,hplace⟩

theorem moved_records {recs : List UnwindRecord} {i : ℕ}
    (h : ∀ rec ∈ recs, rec.isec = i → ∃ moved, moveRecord ctx rec = some moved) :
    ((recs.filterMap (moveRecord ctx)).filter fun rec => rec.isec = i).map
        (withFde (dropFolded ctx)) =
      (recs.filter fun rec => rec.isec = i).map (withFde ctx) := by
  induction recs with
  | nil => rfl
  | cons rec recs ih =>
    have hrest := ih fun r hr => h r (List.mem_cons_of_mem _ hr)
    cases hmove : moveRecord ctx rec with
    | none =>
      have hne : rec.isec ≠ i := by
        intro heq
        obtain ⟨moved,hmoved⟩ := h rec List.mem_cons_self heq
        rw [hmove] at hmoved
        cases hmoved
      rw [List.filterMap_cons_none hmove, hrest, List.filter_cons, if_neg (by simpa using hne)]
    | some moved =>
      obtain ⟨hisec,hwith⟩ := move_record_with hmove
      rw [List.filterMap_cons_some hmove, List.filter_cons, List.filter_cons, hisec]
      split
      · rw [List.map_cons, List.map_cons, hrest, hwith]
      · exact hrest

/-- The records of a subsection that none replaces stay, in their order. -/
theorem drop_folded_records (hknown : Known ctx.isecs.length ctx.unwindRecords ctx.fdes) {i : ℕ}
    (hroot : replacementOf ctx.isecs i = none) :
    (recordsOf (dropFolded ctx) i).map (withFde (dropFolded ctx)) =
      (recordsOf ctx i).map (withFde ctx) :=
  moved_records fun _ hrec hi => move_record_kept hknown hrec (hi ▸ hroot)

/-- The record that a record becomes if it stays. -/
def moved (ctx : Context) (rec : UnwindRecord) : UnwindRecord := (moveRecord ctx rec).getD rec

theorem moved_isec (rec : UnwindRecord) : (moved ctx rec).isec = rec.isec := by
  rw [moved]
  cases h : moveRecord ctx rec with
  | none => rfl
  | some m => exact (move_record_with h).1

theorem drop_folded_map (ctx : Context) : (dropFolded ctx).unwindRecords =
    (ctx.unwindRecords.filter fun rec => (moveRecord ctx rec).isSome).map (moved ctx) := by
  simp only [dropFolded]
  induction ctx.unwindRecords with
  | nil => rfl
  | cons rec recs ih =>
    cases h : moveRecord ctx rec with
    | none => rw [List.filterMap_cons_none h, List.filter_cons, h, if_neg nofun, ih]
    | some m =>
      rw [List.filterMap_cons_some h, List.filter_cons, h,
        if_pos (show (some m).isSome = true from rfl), List.map_cons, ih, moved, h, Option.getD_some]

theorem drop_folded_together (hranged : Ranged ctx) :
    KeyRuns.Together UnwindRecord.isec (dropFolded ctx).unwindRecords := by
  rw [drop_folded_map]
  apply (hranged.together.sublist List.filter_sublist).map
  intro a _ b _
  rw [moved_isec, moved_isec]

/-! ## The ranges -/

theorem set_ranges_replacement (isecs : List InputSection) (base : ℕ) (unwind : List UnwindRecord)
    (i : ℕ) : replacementOf (setUnwindRanges isecs base unwind) i = replacementOf isecs i := by
  rw [setUnwindRanges]
  generalize KeyRuns.runRanges UnwindRecord.isec base _ = ranges
  induction ranges generalizing isecs with
  | nil => rfl
  | cons e ranges ih =>
    rw [List.foldl_cons, ih, replacementOf, replacementOf, List.getElem?_modify]
    cases isecs[i]? with
    | none => rfl
    | some isec =>
      show (some _).bind _ = (some _).bind _
      split <;> rfl

theorem drop_folded_replacement (ctx : Context) (i : ℕ) :
    replacementOf (dropFolded ctx).isecs i = replacementOf ctx.isecs i := by
  simp only [dropFolded]
  split
  · exact set_ranges_replacement _ _ _ i
  · rfl

/-- The ranges of the live subsections that none replaces follow. -/
theorem drop_folded_range (hranged : Ranged ctx) {i : ℕ} {isec : InputSection}
    (hi : (dropFolded ctx).isecs[i]? = some isec) (halive : isec.isAlive = true)
    (hroot : isec.replacement = none) : RangeOf (dropFolded ctx).unwindRecords i isec := by
  have hroot' : replacementOf ctx.isecs i = none := by
    rw [← drop_folded_replacement, replacementOf, hi]
    exact hroot
  have hrecords := congrArg List.length (drop_folded_records hranged.known hroot')
  rw [List.length_map, List.length_map] at hrecords
  have hisecs : (dropFolded ctx).isecs =
      if (dropFolded ctx).unwindRecords.length < ctx.unwindRecords.length then
        setUnwindRanges ctx.isecs 0 (dropFolded ctx).unwindRecords
      else ctx.isecs := rfl
  rw [hisecs] at hi
  split at hi
  · have hlt := (List.getElem?_eq_some_iff.1 hi).1
    rw [ParseUnwind.set_ranges_length] at hlt
    have hold := List.getElem?_eq_getElem hlt
    rcases ParseUnwind.set_ranges_get (drop_folded_together hranged) 0 hold with
      ⟨hnone,hsame⟩ | ⟨isec',hsame,-,off,hoff,hrange⟩
    · -- No record is left, so there was none and the range stays empty.
      obtain rfl := Option.some.inj (hi.symm.trans hsame)
      have hempty : (recordsOf ctx i).length = 0 := by
        rw [← hrecords, recordsOf, ParseUnwind.filter_others hnone]
        rfl
      have hcount := (hranged.range i _ hold halive).count
      exact ParseUnwind.range_of_empty (hcount.trans hempty) hnone
    · obtain rfl := Option.some.inj (hi.symm.trans hsame)
      rw [Nat.zero_add] at hoff
      rw [← hoff] at hrange
      exact hrange
  · next hsame =>
    -- Every record stays, each where it was.
    have hmap : (dropFolded ctx).unwindRecords = ctx.unwindRecords.map (moved ctx) := by
      have hfilter := drop_folded_map ctx
      rw [hfilter, List.length_map, Nat.not_lt] at hsame
      rw [hfilter, List.filter_sublist.eq_of_length_le hsame]
    have hrange := hranged.range i isec hi halive
    have hfilter : ((ctx.unwindRecords.map (moved ctx)).filter fun rec => rec.isec = i) =
        (ctx.unwindRecords.filter fun rec => rec.isec = i).map (moved ctx) := by
      rw [List.filter_map]
      congr 1
      apply List.filter_congr
      intro rec _
      simp only [Function.comp_apply, moved_isec]
    rw [hmap]
    constructor
    · rw [hfilter, List.length_map]
      exact hrange.count
    · rw [hfilter, ← hrange.items, List.map_take, List.map_drop]

end Drop

/-! ## Both outputs -/

/-- The `__eh_frame` of a final image: the FDEs of functions that no copy stands for,
written in a buffer of the section's size, and the unwind records' FDEs. -/
structure FinalImage (ctx : Context) (image : Image) : Prop where
  fdes : (construct ctx).1.fdes = ctx.fdes.filter (isKept ctx)
  own : OwnFdes (construct ctx).1
  records : ∀ i, replacementOf ctx.isecs i = none →
    (recordsOf (construct ctx).1 i).map (withFde (construct ctx).1) =
      (recordsOf ctx i).map (withFde ctx)
  ranges : ∀ (i : ℕ) isec, (construct ctx).1.isecs[i]? = some isec → isec.isAlive = true →
    isec.replacement = none → RangeOf (construct ctx).1.unwindRecords i isec
  right : ∀ buf out, buf.length = (construct ctx).2.size →
    copyBuf (construct ctx).1 image (construct ctx).2.records buf = some out →
    Written (construct ctx).1 image (fun _ => true) (CieWritten image) (construct ctx).2.records out
  written : ((finalRecords (construct ctx).1).map (EhRec.size (construct ctx).1)).sum < 2^32 →
    ∀ buf, buf.length = (construct ctx).2.size →
      ∃ out, copyBuf (construct ctx).1 image (construct ctx).2.records buf = some out

/-- The `__eh_frame` of a `-r` output: the FDEs of live functions, and the relocations
of the CIEs' personalities. -/
structure RelocatableImage (ctx : Context) (image : Image) (bits : ℕ → BitVec 32) : Prop where
  right : ∀ out rels, ehFrameContents ctx image bits (ehFrameRecords ctx) = some (out,rels) →
    Written ctx image (isLive ctx) (fun cie _ rec => rec = cie.data) (ehFrameRecords ctx) out ∧
      rels = (ehFrameRecords ctx).flatMap (recRels ctx bits)
  written : ((ehFrameRecords ctx).map fun p => p.1.size ctx).sum < 2^32 →
    ∃ out, ehFrameContents ctx image bits (ehFrameRecords ctx) = some out

section Both
variable {ctx : Context}

theorem drop_folded_ok (hok : RecordsOk ctx) : RecordsOk (dropFolded ctx) where
  cies := hok.cies
  fdes fde hfde := hok.fdes fde (List.mem_filter.1 hfde).1

/-- A section of no FDEs is laid out as none. -/
theorem construct_section (ctx : Context) :
    (construct ctx).2 = layOut (dropFolded ctx) (finalRecords (dropFolded ctx)) := by
  rw [construct]
  dsimp only
  split
  · next hempty =>
    have hnone : finalRecords (dropFolded ctx) = [] := by
      simp [finalRecords, List.isEmpty_iff.1 hempty]
    rw [hnone]
    rfl
  · rfl

/-- The FDEs left use the CIEs that the FDEs kept do. -/
theorem drop_folded_cells : CellsIn (dropFolded ctx) (fun _ => true) ↔ CellsIn ctx (isKept ctx) := by
  constructor
  · intro h fde hfde hkept
    exact h fde (List.mem_filter.2 ⟨hfde,hkept⟩) rfl
  · intro h fde hfde _
    obtain ⟨hmem,hkept⟩ := List.mem_filter.1 hfde
    exact h fde hmem hkept

theorem final_image (hok : RecordsOk ctx) (hcells : CellsIn ctx (isKept ctx))
    (hown : OwnFdes ctx) (hranged : Ranged ctx) (image : Image) : FinalImage ctx image := by
  have hafter := drop_folded_ok hok
  have hcells := drop_folded_cells.2 hcells
  have hlists := final_lists hafter
  refine ⟨rfl,drop_folded_own hown,fun _ => drop_folded_records hranged.known,
    fun _ _ => drop_folded_range hranged,?_,?_⟩
  · rw [construct_section]
    exact fun buf out => final_written hafter hcells hlists
  · rw [construct_section]
    exact fun hsum buf => final_some hafter hcells hlists hsum

theorem relocatable_image (hok : RecordsOk ctx) (image : Image) (bits : ℕ → BitVec 32) :
    RelocatableImage ctx image bits := by
  refine ⟨fun out rels => relocatable_written hok relocatable_lists,fun hsum => ?_⟩
  refine relocatable_some hok relocatable_lists (fun _ h => h) ?_ rfl
  have hmap : (ehFrameRecords ctx).map (fun p => p.1.size ctx) =
      (relocatableRecords ctx [] ctx.fdes.zipIdx).map (EhRec.size ctx) := by
    rw [← @place_map_fst _ (EhRec.size ctx) 0 (relocatableRecords ctx [] ctx.fdes.zipIdx),
      List.map_map]
    rfl
  rw [hmap] at hsum
  omega

end Both

end MoldMacho.EhFrameSection
