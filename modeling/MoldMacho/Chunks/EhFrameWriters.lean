import MoldMacho.Chunks.EhFrameWritten

/-!
# The writers of the output's `__eh_frame`

A final image and a `-r` output lay the same kind of records out, in orders of their
own, and write them in ways of their own; both sections hold the records kept.
-/

set_option autoImplicit false

namespace MoldMacho.EhFrameSection
open MoldMacho.Arch (MachRel)
open MoldMacho.InputSections
open Bytes LengthRecords

/-! ## The records listed -/

section Listed
variable {ctx : Context}

theorem final_lists (hok : RecordsOk ctx) : Lists ctx (fun _ => true) (finalRecords ctx) where
  nodup := by
    rw [finalRecords, List.nodup_append]
    refine ⟨?_,?_,?_⟩
    · exact (List.nodup_range.filter _).map fun _ _ h => EhRec.cie.inj h
    · exact List.nodup_range.map fun _ _ h => EhRec.fde.inj h
    · intro a ha b hb
      obtain ⟨c,-,rfl⟩ := List.mem_map.1 ha
      obtain ⟨f,-,rfl⟩ := List.mem_map.1 hb
      exact EhRec.noConfusion
  fdes f := by
    simp only [finalRecords, List.mem_append, List.mem_map, List.mem_range, EhRec.fde.injEq,
      exists_eq_right, reduceCtorEq, and_false, exists_false, false_or, and_true]
    exact ⟨fun h => ⟨_,List.getElem?_eq_getElem h⟩,fun ⟨_,h⟩ => (List.getElem?_eq_some_iff.1 h).1⟩
  cies c := by
    simp only [finalRecords, List.mem_append, List.mem_map, List.mem_filter, List.mem_range,
      EhRec.cie.injEq, exists_eq_right, reduceCtorEq, and_false, exists_false, or_false,
      List.any_eq_true, beq_iff_eq, true_and]
    constructor
    · exact fun h => h.2
    · rintro ⟨fde,hfde,rfl⟩
      obtain ⟨cie,hc,-⟩ := hok.fdes fde hfde
      exact ⟨(List.getElem?_eq_some_iff.1 hc).1,fde,hfde,rfl⟩
  before f fde hf _ := by
    have hmem := List.mem_of_getElem? hf
    obtain ⟨cie,hc,-⟩ := hok.fdes fde hmem
    have hcie : EhRec.cie fde.cie ∈ ((List.range ctx.cies.length).filter fun c =>
        ctx.fdes.any fun fde => fde.cie == c).map EhRec.cie := by
      refine List.mem_map_of_mem (List.mem_filter.2 ⟨?_,?_⟩)
      · exact List.mem_range.2 (List.getElem?_eq_some_iff.1 hc).1
      · exact List.any_eq_true.2 ⟨fde,hmem,beq_self_eq_true _⟩
    have hfde : EhRec.fde f ∈ (List.range ctx.fdes.length).map EhRec.fde :=
      List.mem_map_of_mem (List.mem_range.2 (List.getElem?_eq_some_iff.1 hf).1)
    exact (List.singleton_sublist.2 hcie).append (List.singleton_sublist.2 hfde)

/-- Whether an FDE is in a `-r` output. -/
def isLive (ctx : Context) (fde : FdeRecord) : Bool :=
  ctx.isecs[fde.isec]?.any InputSection.isEmitted

variable {used : List ℕ} {l : List (FdeRecord × ℕ)}

theorem relocatable_fde {f : ℕ} : .fde f ∈ relocatableRecords ctx used l ↔
    ∃ fde, (fde,f) ∈ l ∧ isLive ctx fde = true := by
  induction l generalizing used with
  | nil => simp [relocatableRecords]
  | cons e l ih =>
    obtain ⟨fde,g⟩ := e
    rw [relocatableRecords]
    change _ ∈ (if !isLive ctx fde then _ else _) ↔ _
    cases hlive : isLive ctx fde with
    | false =>
      simp only [Bool.not_false, if_true, ih, List.mem_cons, Prod.mk.injEq]
      constructor
      · rintro ⟨fde',hmem,h⟩
        exact ⟨fde',Or.inr hmem,h⟩
      · rintro ⟨fde',⟨rfl,rfl⟩ | hmem,h⟩
        · rw [hlive] at h
          cases h
        · exact ⟨fde',hmem,h⟩
    | true =>
      have hhead : (∃ fde', (fde',f) ∈ (fde,g)::l ∧ isLive ctx fde' = true) ↔
          f = g ∨ ∃ fde', (fde',f) ∈ l ∧ isLive ctx fde' = true := by
        constructor
        · rintro ⟨fde',hmem,h⟩
          rcases List.mem_cons.1 hmem with heq | hmem
          · exact Or.inl (Prod.mk.inj heq).2
          · exact Or.inr ⟨fde',hmem,h⟩
        · rintro (rfl | ⟨fde',hmem,h⟩)
          · exact ⟨fde,List.mem_cons_self,hlive⟩
          · exact ⟨fde',List.mem_cons_of_mem _ hmem,h⟩
      rw [hhead]
      simp only [Bool.not_true, Bool.false_eq_true, if_false]
      split <;> simp [ih]

theorem relocatable_cie {c : ℕ} : .cie c ∈ relocatableRecords ctx used l ↔
    c ∉ used ∧ ∃ p ∈ l, isLive ctx p.1 = true ∧ p.1.cie = c := by
  induction l generalizing used with
  | nil => simp [relocatableRecords]
  | cons e l ih =>
    obtain ⟨fde,g⟩ := e
    rw [relocatableRecords]
    change _ ∈ (if !isLive ctx fde then _ else _) ↔ _
    cases hlive : isLive ctx fde with
    | false => simp [ih, hlive]
    | true =>
      simp only [Bool.not_true, Bool.false_eq_true, if_false, List.contains_iff_mem]
      split
      · next hused =>
        simp only [List.mem_cons, reduceCtorEq, false_or, ih, exists_eq_or_imp, hlive, true_and]
        refine and_congr_right fun hnot => ⟨Or.inr,fun h => h.resolve_left ?_⟩
        rintro rfl
        exact hnot hused
      · next hused =>
        simp only [List.mem_cons, EhRec.cie.injEq, reduceCtorEq, false_or, ih, exists_eq_or_imp,
          hlive, true_and, not_or]
        constructor
        · rintro (rfl | ⟨⟨hne,hnot⟩,h⟩)
          · exact ⟨hused,Or.inl rfl⟩
          · exact ⟨hnot,Or.inr h⟩
        · rintro ⟨hnot,h⟩
          by_cases heq : c = fde.cie
          · exact Or.inl heq
          · exact Or.inr ⟨⟨heq,hnot⟩,h.resolve_left fun h => heq h.symm⟩

theorem relocatable_nodup (hl : (l.map Prod.snd).Nodup) : (relocatableRecords ctx used l).Nodup := by
  induction l generalizing used with
  | nil => exact List.nodup_nil
  | cons e l ih =>
    obtain ⟨fde,g⟩ := e
    obtain ⟨hg,hl⟩ := List.nodup_cons.1 hl
    have hfresh (used : List ℕ) : EhRec.fde g ∉ relocatableRecords ctx used l := by
      rw [relocatable_fde]
      rintro ⟨fde',hmem,-⟩
      exact hg (List.mem_map.2 ⟨(fde',g),hmem,rfl⟩)
    rw [relocatableRecords]
    split
    · exact ih hl
    · split
      · exact List.nodup_cons.2 ⟨hfresh _,ih hl⟩
      · refine List.nodup_cons.2 ⟨?_,List.nodup_cons.2 ⟨hfresh _,ih hl⟩⟩
        simp [relocatable_cie]

theorem relocatable_before {fde : FdeRecord} {f : ℕ} (h : (fde,f) ∈ l)
    (hlive : isLive ctx fde = true) : fde.cie ∈ used ∨
      [.cie fde.cie,.fde f].Sublist (relocatableRecords ctx used l) := by
  induction l generalizing used with
  | nil => cases h
  | cons e l ih =>
    obtain ⟨fde',g⟩ := e
    rw [relocatableRecords]
    change _ ∨ List.Sublist _ (if !isLive ctx fde' then _ else _)
    rcases List.mem_cons.1 h with heq | h
    · obtain ⟨rfl,rfl⟩ := Prod.mk.inj heq
      rw [hlive]
      simp only [Bool.not_true, Bool.false_eq_true, if_false, List.contains_iff_mem]
      split
      · next hused => exact Or.inl hused
      · exact Or.inr (((List.nil_sublist _).cons_cons _).cons_cons _)
    · split
      · exact ih h
      · split
        · exact (ih h).imp_right fun hsub => hsub.cons _
        · rcases @ih (fde'.cie::used) h with hmem | hsub
          · rcases List.mem_cons.1 hmem with heq | hmem
            · -- its CIE is the one put in here
              refine Or.inr ?_
              rw [heq]
              refine List.Sublist.cons_cons _ (List.Sublist.cons _ (List.singleton_sublist.2 ?_))
              exact relocatable_fde.2 ⟨fde,h,hlive⟩
            · exact Or.inl hmem
          · exact Or.inr ((hsub.cons _).cons _)

theorem relocatable_lists :
    Lists ctx (isLive ctx) (relocatableRecords ctx [] ctx.fdes.zipIdx) where
  nodup := by
    apply relocatable_nodup
    rw [List.zipIdx_map_snd]
    exact List.nodup_range'
  fdes f := by
    simp only [relocatable_fde, List.mk_mem_zipIdx_iff_getElem?]
  cies c := by
    rw [relocatable_cie]
    constructor
    · rintro ⟨-,⟨fde,f⟩,hmem,hlive,rfl⟩
      exact ⟨fde,List.fst_mem_of_mem_zipIdx hmem,hlive,rfl⟩
    · rintro ⟨fde,hmem,hlive,rfl⟩
      obtain ⟨f,hf⟩ := List.mem_iff_getElem?.1 hmem
      exact ⟨List.not_mem_nil,(fde,f),List.mk_mem_zipIdx_iff_getElem?.2 hf,hlive,rfl⟩
  before f fde hf hlive :=
    (relocatable_before (List.mk_mem_zipIdx_iff_getElem?.2 hf) hlive).resolve_left
      List.not_mem_nil

end Listed

/-! ## The bytes of a final image -/

section Final
variable {ctx : Context} {image : Image} {records : List (EhRec × ℕ)}

/-- Copying a record puts what is written for it in place. -/
theorem copy_record (hok : RecordsOk ctx) {kept : FdeRecord → Bool} (hcells : CellsIn ctx kept)
    {rs : List EhRec} (hlists : Lists ctx kept rs) {p : EhRec × ℕ} (hp : p.1 ∈ rs)
    (buf : List UInt8) :
    copyRecord ctx image records buf p =
      put buf p.2 (recImage ctx image (cieImage image) records p) := by
  obtain ⟨r,off⟩ := p
  cases r with
  | cie c =>
    obtain ⟨fde,hfde,hkept,rfl⟩ := (hlists.cies c).1 hp
    obtain ⟨cie,hc,-⟩ := hok.fdes fde hfde
    have hcell := hcells fde hfde hkept cie hc
    have hlen := cie_image_length image cie off
    simp only [copyRecord, recImage, hc, Option.map_some, Option.getD_some, Option.bind_eq_bind,
      Option.bind_some]
    by_cases hroom : off+cie.data.length ≤ buf.length
    · rw [put, if_pos hroom, Option.bind_some, put, hlen, if_pos hroom]
      cases hsym : cie.personality with
      | none => rw [cieImage, hsym]
      | some sym =>
        have hin := (hcell sym hsym).2
        rw [cieImage, hsym]
        dsimp only
        rw [if_pos hin]
        exact put_inside hroom (by rw [to_le_length]; exact hin)
    · rw [put, if_neg hroom, put, hlen, if_neg hroom]
      rfl
  | fde f =>
    obtain ⟨fde,hf,-⟩ := (hlists.fdes f).1 hp
    obtain ⟨cie,hc,hfde⟩ := hok.fdes fde (List.mem_of_getElem? hf)
    have hlen := @fde_image_length ctx image fde cie (image.ehFrameAddr+off)
      (ciePtr records fde off) hfde
    simp only [copyRecord, recImage, hf, hc, Option.bind_some, Option.map_some, Option.getD_some,
      Option.bind_eq_bind]
    by_cases hroom : off+fde.data.length ≤ buf.length
    · rw [put, if_pos hroom, Option.bind_some, put, hlen, if_pos hroom, relocate_fde hc hfde hroom]
    · rw [put, if_neg hroom, put, hlen, if_neg hroom]
      rfl

theorem copy_buf_puts (hok : RecordsOk ctx) {kept : FdeRecord → Bool}
    (hcells : CellsIn ctx kept) {rs : List EhRec} (hlists : Lists ctx kept rs)
    (hrecords : records.map Prod.fst = rs) (buf : List UInt8) :
    copyBuf ctx image records buf = records.foldlM
      (fun buf p => put buf p.2 (recImage ctx image (cieImage image) records p)) buf := by
  apply Lists.foldlM_congr
  intro p hp buf
  exact copy_record hok hcells hlists (hrecords ▸ List.mem_map_of_mem hp) buf

theorem size_ge (hok : RecordsOk ctx) {kept : FdeRecord → Bool} {rs : List EhRec}
    (hlists : Lists ctx kept rs) {r : EhRec} (hr : r ∈ rs) : 4 ≤ r.size ctx := by
  cases r with
  | cie c =>
    obtain ⟨fde,hfde,-,rfl⟩ := (hlists.cies c).1 hr
    obtain ⟨cie,hc,-⟩ := hok.fdes fde hfde
    rw [EhRec.size, EhRec.data, hc]
    exact prefixed_length (hok.cies cie (List.mem_of_getElem? hc)).len
  | fde f =>
    obtain ⟨fde,hf,-⟩ := (hlists.fdes f).1 hr
    obtain ⟨cie,-,hfde⟩ := hok.fdes fde (List.mem_of_getElem? hf)
    rw [EhRec.size, EhRec.data, hf]
    exact prefixed_length hfde.len

/-- A section laid out in a buffer of its size holds its records. -/
theorem final_written (hok : RecordsOk ctx) {kept : FdeRecord → Bool}
    (hcells : CellsIn ctx kept) {rs : List EhRec} (hlists : Lists ctx kept rs) {buf out : List UInt8}
    (hbuf : buf.length = (layOut ctx rs).size)
    (h : copyBuf ctx image (layOut ctx rs).records buf = some out) :
    Written ctx image kept (CieWritten image) (layOut ctx rs).records out := by
  have hfst : (layOut ctx rs).records.map Prod.fst = rs := place_map_fst 0 rs
  have hlists' : Lists ctx kept ((layOut ctx rs).records.map Prod.fst) := by rwa [hfst]
  have hlen := @rec_image_length ctx image (cieImage image) (layOut ctx rs).records hok
    fun cie _ => cie_image_length image cie
  have hstop : (layOut ctx rs).size = (0 + (rs.map (EhRec.size ctx)).sum) % 2^32 :=
    stop_mod (by decide) rs
  have hlt : buf.length < 2^32 := by
    rw [hbuf, hstop]
    exact Nat.mod_lt _ (by decide)
  rw [copy_buf_puts hok hcells hlists hfst] at h
  obtain ⟨hsum,-,hout⟩ := puts_placed hlen hlt (Nat.zero_le _) h
  have hend : buf.drop (0 + (rs.map (EhRec.size ctx)).sum) = [] :=
    List.drop_eq_nil_of_le (by omega)
  rw [hend, List.append_nil, List.drop_zero] at hout
  have hplaced := @place_placed _ _ _ hlen 0 rs (by omega)
  rw [hout]
  refine written_of hok hlists' (fun cie _ => cie_image_length image cie) ?_ hplaced ?_
  · intro fde hfde hkept cie hc pos
    have hcie := hok.cies cie (List.mem_of_getElem? hc)
    have hwritten := @cie_written image cie hcie (hcells fde hfde hkept cie hc) pos
    exact ⟨hwritten.len hcie,hwritten⟩
  · intro p hp
    have hin := (placed_apart ((layOut ctx rs).records.map
      (recImage ctx image (cieImage image) (layOut ctx rs).records)) 0).1
        (p.2,recImage ctx image (cieImage image) (layOut ctx rs).records p)
        (hplaced ▸ List.mem_map_of_mem hp)
    have htotal := place_flatten_length hlen 0 rs
    have hsize := size_ge hok hlists (hfst ▸ List.mem_map_of_mem hp)
    have hplen := hlen p
    have hflat : ((layOut ctx rs).records.map
      (recImage ctx image (cieImage image) (layOut ctx rs).records)).flatten.length =
        (rs.map (EhRec.size ctx)).sum := htotal
    dsimp only at hin
    omega

theorem final_some (hok : RecordsOk ctx) {kept : FdeRecord → Bool}
    (hcells : CellsIn ctx kept) {rs : List EhRec} (hlists : Lists ctx kept rs)
    (hsum : (rs.map (EhRec.size ctx)).sum < 2^32) {buf : List UInt8}
    (hbuf : buf.length = (layOut ctx rs).size) :
    ∃ out, copyBuf ctx image (layOut ctx rs).records buf = some out := by
  have hlen := @rec_image_length ctx image (cieImage image) (layOut ctx rs).records hok
    fun cie _ => cie_image_length image cie
  have hstop : (layOut ctx rs).size = (0 + (rs.map (EhRec.size ctx)).sum) % 2^32 :=
    stop_mod (by decide) rs
  have hfst : (layOut ctx rs).records.map Prod.fst = rs := place_map_fst 0 rs
  rw [copy_buf_puts hok hcells hlists hfst]
  exact puts_some hlen (by omega) (by omega)

end Final

/-! ## The bytes of a `-r` output -/

section Relocatable
variable {ctx : Context} {image : Image} {bits : ℕ → BitVec 32} {records : List (EhRec × ℕ)}

/-- The relocation of a CIE's personality. -/
def recRels (ctx : Context) (bits : ℕ → BitVec 32) (p : EhRec × ℕ) : List MachRel :=
  match p.1 with
  | .cie c =>
    (ctx.cies[c]?.map fun cie => cie.personality.toList.map fun sym =>
      { offset := p.2+cie.personalityOffset, bits := bits sym : MachRel }).getD []
  | .fde _ => []

/-- What a `-r` output has for a record: of a CIE, the object's bytes. -/
def relImage (ctx : Context) (image : Image) (records : List (EhRec × ℕ)) :
    EhRec × ℕ → List UInt8 := recImage ctx image (fun cie _ => cie.data) records

theorem append_record (hok : RecordsOk ctx) {kept : FdeRecord → Bool} {rs : List EhRec}
    (hlists : Lists ctx kept rs) {p : EhRec × ℕ} (hp : p.1 ∈ rs) (s : List UInt8 × List MachRel) :
    appendRecord ctx image bits records s p =
      if p.2 ≠ s.1.length ∨ 2^32 ≤ p.2+4 then none
      else some (s.1 ++ relImage ctx image records p,s.2 ++ recRels ctx bits p) := by
  obtain ⟨r,off⟩ := p
  rw [appendRecord]
  dsimp only
  split
  · rfl
  · next hoff =>
    cases r with
    | cie c =>
      obtain ⟨fde,hfde,-,rfl⟩ := (hlists.cies c).1 hp
      obtain ⟨cie,hc,-⟩ := hok.fdes fde hfde
      simp only [relImage, recImage, recRels, hc, Option.map_some, Option.getD_some,
        Option.bind_eq_bind, Option.bind_some]
    | fde f =>
      obtain ⟨fde,hf,-⟩ := (hlists.fdes f).1 hp
      obtain ⟨cie,hc,hfde⟩ := hok.fdes fde (List.mem_of_getElem? hf)
      have hlen := @fde_image_length ctx image fde cie (image.ehFrameAddr+off)
        (ciePtr records fde off) hfde
      have hat : off = s.1.length := by omega
      have hwrite (bytes : List UInt8) (hbytes : bytes.length = fde.data.length) :
          writeAt (s.1 ++ fde.data) off bytes = s.1 ++ bytes := by
        rw [writeAt, hat, List.take_left, List.drop_eq_nil_of_le (by simp; omega), List.append_nil]
      have hself := hwrite fde.data rfl
      have hrelocate := @relocate_fde ctx image fde cie (image.ehFrameAddr+off)
        (ciePtr records fde off) hc hfde (s.1 ++ fde.data) off (by simp; omega)
      rw [hself, hwrite _ hlen] at hrelocate
      simp only [relImage, recImage, recRels, hf, hc, Option.bind_some, Option.map_some,
        Option.getD_some, Option.bind_eq_bind, hrelocate, List.append_nil]

/-- Appended records stand one after another, at their offsets. -/
theorem appended (hok : RecordsOk ctx) {kept : FdeRecord → Bool} {rs : List EhRec}
    (hlists : Lists ctx kept rs) {l : List (EhRec × ℕ)} (hl : ∀ p ∈ l, p.1 ∈ rs)
    {s out : List UInt8 × List MachRel}
    (h : l.foldlM (appendRecord ctx image bits records) s = some out) :
    out.1 = s.1 ++ (l.map (relImage ctx image records)).flatten ∧
      out.2 = s.2 ++ l.flatMap (recRels ctx bits) ∧
      l.map (fun p => (p.2,relImage ctx image records p)) =
        placed s.1.length (l.map (relImage ctx image records)) ∧
      ∀ p ∈ l, p.2+4 < 2^32 := by
  induction l generalizing s with
  | nil =>
    obtain rfl := Option.some.inj h
    simp [placed]
  | cons p l ih =>
    rw [List.foldlM_cons, append_record hok hlists (hl p List.mem_cons_self)] at h
    split at h
    · cases h
    · next hoff =>
      obtain ⟨hbytes,hrels,hplaced,hbound⟩ := ih (fun q hq => hl q (List.mem_cons_of_mem _ hq)) h
      rw [List.length_append] at hplaced
      refine ⟨?_,?_,?_,?_⟩
      · rw [hbytes, List.map_cons, List.flatten_cons, List.append_assoc]
      · rw [hrels, List.flatMap_cons, List.append_assoc]
      · rw [List.map_cons, List.map_cons, placed, hplaced]
        congr 2
        omega
      · intro q hq
        rcases List.mem_cons.1 hq with rfl | hq
        · omega
        · exact hbound q hq

theorem relocatable_written (hok : RecordsOk ctx) {kept : FdeRecord → Bool} {rs : List EhRec}
    (hlists : Lists ctx kept rs) {out : List UInt8} {rels : List MachRel}
    (h : ehFrameContents ctx image bits (place (EhRec.size ctx) 0 rs) = some (out,rels)) :
    Written ctx image kept (fun cie _ rec => rec = cie.data) (place (EhRec.size ctx) 0 rs) out ∧
      rels = (place (EhRec.size ctx) 0 rs).flatMap (recRels ctx bits) := by
  have hfst := @place_map_fst _ (EhRec.size ctx) 0 rs
  have hlists' : Lists ctx kept ((place (EhRec.size ctx) 0 rs).map Prod.fst) := by rwa [hfst]
  obtain ⟨hbytes,hrels,hplaced,hbound⟩ :=
    appended hok hlists (fun p hp => hfst ▸ List.mem_map_of_mem hp) h
  rw [List.nil_append] at hbytes hrels
  dsimp only at hbytes hrels
  refine ⟨?_,hrels⟩
  rw [hbytes]
  exact written_of hok hlists' (fun _ _ _ => rfl)
    (fun _ _ _ cie hc _ => ⟨(hok.cies cie (List.mem_of_getElem? hc)).len,rfl⟩) hplaced hbound

theorem relocatable_some (hok : RecordsOk ctx) {kept : FdeRecord → Bool} {rs : List EhRec}
    (hlists : Lists ctx kept rs) {l : List EhRec} (hl : ∀ r ∈ l, r ∈ rs) {off : ℕ}
    (hsum : off + (l.map (EhRec.size ctx)).sum < 2^32) {s : List UInt8 × List MachRel}
    (hs : s.1.length = off) :
    ∃ out, (place (EhRec.size ctx) off l).foldlM (appendRecord ctx image bits records) s =
      some out := by
  induction l generalizing off s with
  | nil => exact ⟨s,rfl⟩
  | cons r l ih =>
    have hr := hl r List.mem_cons_self
    have hsize := size_ge hok hlists hr
    rw [List.map_cons, List.sum_cons] at hsum
    have hlen : (relImage ctx image records (r,off)).length = r.size ctx :=
      rec_image_length hok (fun _ _ _ => rfl) (r,off)
    rw [place, List.foldlM_cons, append_record hok hlists hr, if_neg (by dsimp only; omega),
      Nat.mod_eq_of_lt (by omega)]
    refine ih (fun q hq => hl q (List.mem_cons_of_mem _ hq)) (by omega) ?_
    rw [List.length_append, hs, hlen]

end Relocatable

end MoldMacho.EhFrameSection
