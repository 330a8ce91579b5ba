import Mathlib.Data.List.TakeWhile
import MoldMacho.Objc.RefRecords

/-!
# What coalescing replaces

Each record that coalescing replaces agrees with the one that stands for it, which
comes first of its key, stays, and is as aligned.
-/

set_option autoImplicit false

namespace MoldMacho.Objc
open MoldMacho.Arch (Reloc)
open MoldMacho.Chunks (bytes)
open MoldMacho.InputSections (InputSection)
open MoldMacho.FirstOfKey MoldMacho.Links MoldMacho.OutputSectionNames MoldMacho.Replacements
open MoldMacho.StableSort

variable {T : Type}

/-- A link as it is read: an object's subsections are those listed, by their input
addresses, each in its section and with its relocations and bytes in it. -/
structure Context.Read (ctx : Context T) : Prop where
  nodup : ∀ obj ∈ ctx.objs, obj.subsecs.Nodup
  sorted : ∀ obj ∈ ctx.objs, obj.subsecs.Pairwise fun a b => inputAddr ctx a ≤ inputAddr ctx b
  owned : ∀ (i : ℕ) obj, ctx.objs[i]? = some obj → ctx.isInternal i = false →
    ∀ id, id ∈ obj.subsecs ↔ ∃ isec, ctx.isecs[id]? = some isec ∧ isec.file = i
  inSection : ∀ i isec obj hdr, ctx.record i = some (isec,obj,hdr) →
    hdr.addr ≤ isec.inputAddr ∧ isec.inputAddr ≤ hdr.addr+hdr.size
  contained : ∀ i isec obj hdr, ctx.record i = some (isec,obj,hdr) → Contained isec obj

/-! ## The records visited -/

section Visited
variable {ctx : Context T} {names : List (List UInt8)}

theorem mem_subsecs_of_object {obj : ObjectFile T} {id kind : ℕ} :
    (id,kind) ∈ subsecsOfObject ctx names obj ↔ ∃ hdr shndx, obj.sectHdrs[shndx]? = some hdr ∧
      names.findIdx? (fun name => hdr.sectname == name) = some kind ∧
      id ∈ subsecsOfSection ctx obj shndx hdr := by
  simp only [subsecsOfObject, List.mem_flatMap, Prod.exists, List.mk_mem_zipIdx_iff_getElem?]
  refine exists_congr fun hdr => exists_congr fun shndx => and_congr_right fun _ => ?_
  split
  · next k hk =>
    rw [hk, Option.some.injEq, List.mem_map]
    constructor
    · rintro ⟨id',hid,heq⟩
      obtain ⟨rfl,rfl⟩ := Prod.mk.inj heq
      exact ⟨rfl,hid⟩
    · rintro ⟨rfl,hid⟩
      exact ⟨id,hid,rfl⟩
  · next hk => simp [hk]

theorem subsecs_of_object_distinct {obj : ObjectFile T} (h : obj.subsecs.Nodup) :
    (subsecsOfObject ctx names obj).Pairwise fun a b => a.1 ≠ b.1 := by
  rw [subsecsOfObject, List.pairwise_flatMap]
  constructor
  · rintro ⟨hdr,shndx⟩ -
    dsimp only
    split
    · have hsub : (subsecsOfSection ctx obj shndx hdr).Sublist obj.subsecs :=
        List.filter_sublist.trans ((List.takeWhile_sublist _).trans (List.dropWhile_sublist _))
      exact List.pairwise_map.2 (h.sublist hsub)
    · exact List.Pairwise.nil
  · have hidx : obj.sectHdrs.zipIdx.Pairwise fun a b => a.2 ≠ b.2 := by
      apply List.pairwise_map.1
      rw [List.zipIdx_map_snd]
      exact List.nodup_range'
    refine hidx.imp fun {a b} hne x hx y hy heq => hne ?_
    obtain ⟨isec,hisec,ha⟩ := section_of_subsec hx
    obtain ⟨isec',hisec',hb⟩ := section_of_subsec hy
    rw [heq, hisec'] at hisec
    obtain rfl := Option.some.inj hisec
    exact ha.symm.trans hb

/-- The records visited are in subsection order, each once. -/
theorem visited_ordered (hread : ctx.Read) :
    (subsecsOfSections ctx names).Pairwise fun a b => a.1 < b.1 := by
  have hdistinct : (subsecsOfSections ctx names).Pairwise fun a b => a.1 ≠ b.1 := by
    rw [subsecsOfSections, (sort_perm _ _).pairwise_iff fun {_ _} h => h.symm,
      List.pairwise_flatMap]
    constructor
    · rintro ⟨obj,i⟩ hobj
      have hmem : obj ∈ ctx.objs := List.fst_mem_of_mem_zipIdx hobj
      dsimp only
      split
      · exact List.Pairwise.nil
      · exact subsecs_of_object_distinct (hread.nodup obj hmem)
    · have hidx : ctx.objs.zipIdx.Pairwise fun a b => a.2 ≠ b.2 := by
        apply List.pairwise_map.1
        rw [List.zipIdx_map_snd]
        exact List.nodup_range'
      refine hidx.imp_of_mem fun {a b} ha hb hne x hx y hy heq => hne ?_
      have hfile {c : ObjectFile T × ℕ} (hc : c ∈ ctx.objs.zipIdx) {z : ℕ × ℕ}
          (hz : z ∈ if ctx.isInternal c.2 then [] else subsecsOfObject ctx names c.1) :
          ∃ isec, ctx.isecs[z.1]? = some isec ∧ isec.file = c.2 := by
        split at hz
        · cases hz
        · next hint =>
          obtain ⟨hdr,shndx,-,-,hid⟩ := mem_subsecs_of_object.1 hz
          exact (hread.owned c.2 c.1 (List.mk_mem_zipIdx_iff_getElem?.1 hc)
            (Bool.eq_false_iff.2 hint) z.1).1 (mem_subsecs_of_section hid).1
      obtain ⟨isec,hisec,hfa⟩ := hfile ha hx
      obtain ⟨isec',hisec',hfb⟩ := hfile hb hy
      rw [heq, hisec'] at hisec
      obtain rfl := Option.some.inj hisec
      exact hfa.symm.trans hfb
  have hle := sort_sorted (fun f : ℕ × ℕ => toLex f) (ctx.objs.zipIdx.flatMap fun c =>
    if ctx.isInternal c.2 then [] else subsecsOfObject ctx names c.1)
  refine (hle.and hdistinct).imp fun {a b} h => lt_of_le_of_ne ?_ h.2
  exact Prod.Lex.monotone_fst _ _ h.1

theorem mem_take_sorted {α : Type} {key : α → ℕ} {l : List α} {a : α} {bound : ℕ}
    (hl : l.Pairwise fun a b => key a ≤ key b) (ha : a ∈ l) (h : key a ≤ bound) :
    a ∈ l.takeWhile fun a => key a ≤ bound := by
  induction l with
  | nil => cases ha
  | cons b l ih =>
    obtain ⟨hb,hl⟩ := List.pairwise_cons.1 hl
    rcases List.mem_cons.1 ha with rfl | ha
    · simp [h]
    · rw [List.takeWhile_cons, if_pos (decide_eq_true ((hb a ha).trans h))]
      exact List.mem_cons_of_mem _ (ih hl ha)

/-- Each live subsection of a section named is visited. -/
theorem visited_mem (hread : ctx.Read) {i : ℕ} {isec : InputSection} {obj : ObjectFile T}
    {hdr : MachSection} (h : ctx.record i = some (isec,obj,hdr)) (halive : isec.isAlive = true)
    (hint : ctx.isInternal isec.file = false) (hname : hdr.sectname ∈ names) :
    ∃ kind, (i,kind) ∈ subsecsOfSections ctx names := by
  obtain ⟨hisec,hobj,hhdr⟩ := record_some h
  have haddr : inputAddr ctx i = isec.inputAddr := by
    rw [inputAddr, hisec]
    rfl
  have hmem := List.mem_of_getElem? hobj
  have hin : i ∈ obj.subsecs := (hread.owned _ obj hobj hint i).2 ⟨isec,hisec,rfl⟩
  obtain ⟨hlow,hhigh⟩ := hread.inSection i isec obj hdr h
  have hdrop : i ∈ obj.subsecs.dropWhile fun id => inputAddr ctx id < hdr.addr := by
    rw [← @List.takeWhile_append_dropWhile _ (fun id => decide (inputAddr ctx id < hdr.addr))
      obj.subsecs, List.mem_append] at hin
    refine hin.resolve_left fun htake => ?_
    have hlt := List.mem_takeWhile_imp htake
    rw [decide_eq_true_eq] at hlt
    omega
  have hsub : i ∈ subsecsOfSection ctx obj isec.shndx hdr := by
    refine List.mem_filter.2 ⟨mem_take_sorted ?_ hdrop (by omega),?_⟩
    · exact (hread.sorted obj hmem).sublist (List.dropWhile_sublist _)
    · simp [hisec, halive]
  obtain ⟨kind,hkind⟩ : ∃ kind, names.findIdx? (fun name => hdr.sectname == name) = some kind := by
    rw [← Option.isSome_iff_exists, List.findIdx?_isSome, List.any_eq_true]
    exact ⟨hdr.sectname,hname,beq_self_eq_true _⟩
  refine ⟨kind,mem_sort.2 (List.mem_flatMap.2 ⟨(obj,isec.file),?_,?_⟩)⟩
  · exact List.mk_mem_zipIdx_iff_getElem?.2 hobj
  · dsimp only
    rw [hint, if_neg Bool.false_ne_true]
    exact mem_subsecs_of_object.2 ⟨hdr,isec.shndx,hhdr,hkind,hsub⟩

end Visited

/-! ## The replacements -/

section Folds
variable {isecs : List InputSection} {fs : List (ℕ × ℕ)}

theorem coalesce_length (isecs : List InputSection) (f : ℕ × ℕ) :
    (coalesce isecs f).length = isecs.length := by
  rw [coalesce, List.length_modify, replace_length]

theorem replacement_coalesce (isecs : List InputSection) (f : ℕ × ℕ) (i : ℕ) :
    replacementOf (coalesce isecs f) i =
      if f.1 = i ∧ i < isecs.length then some f.2 else replacementOf isecs i := by
  rw [← replacement_replace, replacementOf, replacementOf, coalesce, List.getElem?_modify]
  cases (replace isecs f.1 f.2)[i]? with
  | none => rfl
  | some isec =>
    show (some _).bind _ = (some _).bind _
    split <;> rfl

theorem p2align_coalesce (isecs : List InputSection) (f : ℕ × ℕ) (i : ℕ) :
    p2alignOf (coalesce isecs f) i = if f.2 = i ∧ i < isecs.length then
      max (p2alignOf isecs i) (p2alignOf isecs f.1) else p2alignOf isecs i := by
  have hget : (coalesce isecs f)[i]?.map InputSection.p2align = isecs[i]?.map fun isec =>
      if f.2 = i then max isec.p2align (p2alignOf isecs f.1) else isec.p2align := by
    rw [coalesce, List.getElem?_modify, replace, List.getElem?_modify]
    cases isecs[i]? with
    | none => rfl
    | some isec =>
      show some _ = some _
      congr 1
      split <;> split <;> rfl
  rw [p2alignOf, hget]
  cases h : isecs[i]? with
  | none =>
    rw [if_neg fun hif => Nat.not_lt.2 (List.getElem?_eq_none_iff.1 h) hif.2]
    simp [p2alignOf, h]
  | some isec =>
    have hi := (List.getElem?_eq_some_iff.1 h).1
    have hold : p2alignOf isecs i = isec.p2align := by
      rw [p2alignOf, h]
      rfl
    by_cases heq : f.2 = i
    · simp [heq, hi, hold]
    · simp [heq, hold]

/-- The subsection is as it was but for its replacement and a raised alignment. -/
def Raised (old new : InputSection) : Prop :=
  new = { old with replacement := new.replacement, p2align := new.p2align }

theorem coalesce_get {f : ℕ × ℕ} {i : ℕ} {old : InputSection} (h : isecs[i]? = some old) :
    ∃ new, (coalesce isecs f)[i]? = some new ∧ Raised old new := by
  rw [coalesce, List.getElem?_modify, replace, List.getElem?_modify, h]
  refine ⟨_,rfl,?_⟩
  unfold Raised
  split <;> split <;> rfl

theorem coalesces_get (fs : List (ℕ × ℕ)) {i : ℕ} {old : InputSection} (h : isecs[i]? = some old) :
    ∃ new, (fs.foldl coalesce isecs)[i]? = some new ∧ Raised old new := by
  induction fs generalizing isecs old with
  | nil => exact ⟨old,h,rfl⟩
  | cons f fs ih =>
    obtain ⟨mid,hmid,hraised⟩ := coalesce_get (f := f) h
    obtain ⟨new,hnew,hraised'⟩ := ih hmid
    refine ⟨new,hnew,?_⟩
    rw [Raised] at hraised hraised' ⊢
    rw [hraised', hraised]

/-- A subsection that no fold replaces keeps its replacement. -/
theorem coalesces_kept {i : ℕ} (h : ∀ w, (i,w) ∉ fs) :
    replacementOf (fs.foldl coalesce isecs) i = replacementOf isecs i := by
  induction fs generalizing isecs with
  | nil => rfl
  | cons f fs ih =>
    rw [List.foldl_cons, ih fun w hw => h w (List.mem_cons_of_mem _ hw), replacement_coalesce,
      if_neg]
    rintro ⟨rfl,-⟩
    exact h f.2 List.mem_cons_self

theorem coalesces_replaced {i w : ℕ} (h : replacementOf (fs.foldl coalesce isecs) i = some w) :
    replacementOf isecs i = some w ∨ (i,w) ∈ fs := by
  induction fs generalizing isecs with
  | nil => exact Or.inl h
  | cons f fs ih =>
    rcases ih h with h | h
    · rw [replacement_coalesce] at h
      split at h
      · next hif =>
        obtain rfl := Option.some.inj h
        rw [← hif.1]
        exact Or.inr List.mem_cons_self
      · exact Or.inl h
    · exact Or.inr (List.mem_cons_of_mem _ h)

theorem coalesces_some {i : ℕ} (h : ∃ w, (i,w) ∈ fs) (hi : i < isecs.length) :
    ∃ w, replacementOf (fs.foldl coalesce isecs) i = some w := by
  induction fs generalizing isecs with
  | nil =>
    obtain ⟨w,hw⟩ := h
    cases hw
  | cons f fs ih =>
    rw [List.foldl_cons]
    by_cases hrest : ∃ w, (i,w) ∈ fs
    · exact ih hrest (by rwa [coalesce_length])
    · obtain ⟨w,hw⟩ := h
      have hf : f = (i,w) := ((List.mem_cons.1 hw).resolve_right fun h => hrest ⟨w,h⟩).symm
      rw [coalesces_kept fun w hw => hrest ⟨w,hw⟩, replacement_coalesce, hf, if_pos ⟨rfl,hi⟩]
      exact ⟨w,rfl⟩

theorem p2align_grows (fs : List (ℕ × ℕ)) (isecs : List InputSection) (i : ℕ) :
    p2alignOf isecs i ≤ p2alignOf (fs.foldl coalesce isecs) i := by
  induction fs generalizing isecs with
  | nil => exact le_rfl
  | cons f fs ih =>
    refine le_trans ?_ (ih (coalesce isecs f))
    rw [p2align_coalesce]
    split
    · exact le_max_left _ _
    · exact le_rfl

/-- The subsection that stands for another is as aligned. -/
theorem p2align_winner {l w : ℕ} (h : (l,w) ∈ fs) (hw : w < isecs.length) :
    p2alignOf isecs l ≤ p2alignOf (fs.foldl coalesce isecs) w := by
  induction fs generalizing isecs with
  | nil => cases h
  | cons f fs ih =>
    rcases List.mem_cons.1 h with rfl | h
    · refine le_trans ?_ (p2align_grows fs (coalesce isecs (l,w)) w)
      rw [p2align_coalesce, if_pos ⟨rfl,hw⟩]
      exact le_max_right _ _
    · exact (p2align_grows [f] isecs l).trans
        (@ih (coalesce isecs f) h (by rwa [coalesce_length]))

end Folds

/-! ## The pass -/

section Pass
variable [DecidableEq T] {ctx : Context T}

theorem ref_key_record {i : ℕ} {key : RefKey} (h : refKey ctx i = some key) :
    ∃ isec obj hdr, ctx.record i = some (isec,obj,hdr) ∧ isec.isEmitted = true ∧
      ctx.isInternal isec.file = false ∧ hdr.segname = bytes "__DATA" ∧
      sectionKey ctx isec obj hdr = some key := by
  obtain ⟨⟨isec,obj,hdr⟩,hrecord,h⟩ := Option.bind_eq_some_iff.1 h
  dsimp only at h
  split at h
  · cases h
  · next hif =>
    simp only [Bool.or_eq_true, Bool.not_eq_true', bne_iff_ne, not_or, Bool.not_eq_false,
      Bool.not_eq_true, ne_eq, not_not] at hif
    exact ⟨isec,obj,hdr,hrecord,hif.1.1,hif.1.2,hif.2,h⟩

theorem ref_key_root {i : ℕ} {key : RefKey} (h : refKey ctx i = some key) :
    replacementOf ctx.isecs i = none ∧ i < ctx.isecs.length := by
  obtain ⟨isec,obj,hdr,hrecord,hemitted,-⟩ := ref_key_record h
  obtain ⟨hisec,-⟩ := record_some hrecord
  rw [InputSection.isEmitted, Bool.and_eq_true, Option.isNone_iff_eq_none] at hemitted
  refine ⟨?_,(List.getElem?_eq_some_iff.1 hisec).1⟩
  rw [replacementOf, hisec]
  exact hemitted.2

theorem ref_keys_ordered (hread : ctx.Read) : (refKeys ctx).Pairwise fun a b => a.1 < b.1 := by
  rw [refKeys, List.pairwise_filterMap]
  refine (visited_ordered hread).imp fun {a b} hlt x hx y hy => ?_
  obtain ⟨key,-,rfl⟩ := Option.map_eq_some_iff.1 hx
  obtain ⟨key',-,rfl⟩ := Option.map_eq_some_iff.1 hy
  exact hlt

theorem key_section {isec : InputSection} {obj : ObjectFile T} {hdr : MachSection} {key : RefKey}
    (h : sectionKey ctx isec obj hdr = some key) : hdr.sectname ∈ refSections := by
  rcases section_key_cases h with ⟨_,_,⟨hname,-⟩ | ⟨hname,-⟩ | ⟨hname,-⟩⟩ | ⟨_,_,hname,-⟩ |
    ⟨_,_,hname,-⟩ <;> rw [hname, refSections] <;> simp

theorem mem_ref_keys (hread : ctx.Read) {i : ℕ} {key : RefKey} :
    (i,key) ∈ refKeys ctx ↔ refKey ctx i = some key := by
  rw [refKeys, List.mem_filterMap]
  constructor
  · rintro ⟨⟨j,kind⟩,-,h⟩
    obtain ⟨key',hkey,heq⟩ := Option.map_eq_some_iff.1 h
    obtain ⟨rfl,rfl⟩ := Prod.mk.inj heq
    exact hkey
  · intro h
    obtain ⟨isec,obj,hdr,hrecord,hemitted,hint,-,hkey⟩ := ref_key_record h
    rw [InputSection.isEmitted, Bool.and_eq_true] at hemitted
    obtain ⟨kind,hmem⟩ := visited_mem hread hrecord hemitted.1 hint (key_section hkey)
    exact ⟨(i,kind),hmem,by rw [h]; rfl⟩

/-- A record and the one that stands for it: in sections of one name, agreeing, the
first of its key, kept and as aligned. -/
structure StandsFor (ctx after : Context T) (l w : ℕ) (a b : InputSection)
    (oa ob : ObjectFile T) (ha hb : MachSection) : Prop where
  loser : ctx.record l = some (a,oa,ha)
  winner : ctx.record w = some (b,ob,hb)
  segname : ha.segname = hb.segname
  sectname : ha.sectname = hb.sectname
  agree : Agree ctx a b oa ob
  first : w < l ∧ ∀ j, refKey ctx j = refKey ctx l → w ≤ j
  kept : replacementOf after.isecs w = none
  aligned : ∃ b', after.isecs[w]? = some b' ∧ Raised b b' ∧ a.p2align ≤ b'.p2align ∧
    (b.isRecord = true → a.p2alignAt a.inputAddr ≤ b'.p2alignAt b'.inputAddr)

/-- What is replaced was not before, and what stands for it is not. -/
theorem fold_roots (hread : ctx.Read) {l w : ℕ} (h : (l,w) ∈ refFolds ctx) :
    replacementOf ctx.isecs l = none ∧
      replacementOf ((refFolds ctx).foldl coalesce ctx.isecs) w = none := by
  have hordered := ref_keys_ordered hread
  obtain ⟨-,key,hl,hw⟩ := fold_first hordered h
  refine ⟨(ref_key_root ((mem_ref_keys hread).1 hl)).1,?_⟩
  have hkept : ∀ v, (w,v) ∉ refFolds ctx := first_kept hordered h
  rw [coalesces_kept hkept]
  exact (ref_key_root ((mem_ref_keys hread).1 hw.1)).1

theorem coalesced_forest (h : Forest (replacementOf ctx.isecs)) (hread : ctx.Read) :
    Forest (replacementOf ((refFolds ctx).foldl coalesce ctx.isecs)) := by
  apply h.extend
  intro i
  by_cases hfold : ∃ w, (i,w) ∈ refFolds ctx
  · obtain ⟨w,hw⟩ := hfold
    have hroot := (fold_roots hread hw).1
    obtain ⟨-,key,hkey,-⟩ := fold_first (ref_keys_ordered hread) hw
    obtain ⟨v,hv⟩ := coalesces_some ⟨w,hw⟩ (ref_key_root ((mem_ref_keys hread).1 hkey)).2
    have hmem : (i,v) ∈ refFolds ctx := by
      refine (coalesces_replaced hv).resolve_left fun hold => ?_
      rw [hroot] at hold
      cases hold
    exact Or.inr ⟨hroot,v,hv,(fold_roots hread hmem).2⟩
  · exact Or.inl (coalesces_kept fun w hw => hfold ⟨w,hw⟩)

theorem fold_stands_for (h : Forest (replacementOf ctx.isecs)) (hread : ctx.Read)
    {after : Context T} (hafter : after.isecs = (refFolds ctx).foldl coalesce ctx.isecs) {l w : ℕ}
    (hfold : (l,w) ∈ refFolds ctx) :
    ∃ a b oa ob ha hb, StandsFor ctx after l w a b oa ob ha hb := by
  obtain ⟨hlt,key,hl,hw⟩ := fold_first (ref_keys_ordered hread) hfold
  have hkey := (mem_ref_keys hread).1 hl
  have hkey' := (mem_ref_keys hread).1 hw.1
  obtain ⟨a,oa,ha,hra,-,-,hseg,hsection⟩ := ref_key_record hkey
  obtain ⟨b,ob,hb,hrb,-,-,hseg',hsection'⟩ := ref_key_record hkey'
  obtain ⟨hname,hagree⟩ := section_key_agree h (hread.contained l a oa ha hra)
    (hread.contained w b ob hb hrb) hsection hsection'
  obtain ⟨hisec,-⟩ := record_some hra
  obtain ⟨hisec',-⟩ := record_some hrb
  obtain ⟨b',hb',hraised⟩ := coalesces_get (refFolds ctx) hisec'
  have halign : a.p2align ≤ b'.p2align := by
    have hle := p2align_winner hfold (List.getElem?_eq_some_iff.1 hisec').1
    rw [p2alignOf, p2alignOf, hisec, hb'] at hle
    exact hle
  refine ⟨a,b,oa,ob,ha,hb,hra,hrb,hseg.trans hseg'.symm,hname,hagree,⟨hlt,?_⟩,?_,?_⟩
  · intro j hj
    exact hw.2 j ((mem_ref_keys hread).2 (hj.trans hkey))
  · rw [hafter]
    exact (fold_roots hread hfold).2
  · refine ⟨b',by rw [hafter, hb'],hraised,halign,fun hrecord => ?_⟩
    have hrecord' : b'.isRecord = true := by
      rw [hraised]
      exact hrecord
    have hat : b'.p2alignAt b'.inputAddr = b'.p2align := by
      simp [InputSection.p2alignAt, hrecord']
    rw [hat]
    exact (InputSections.p2align_at_le a a.inputAddr).trans halign

/-- Coalescing ends, and each record it replaces agrees with the one that stands for
it, the first of its key. -/
theorem coalesce_refs_agree (h : Forest (replacementOf ctx.isecs)) (hread : ctx.Read) :
    ∃ fuel, ∀ more, ∃ after, coalesceObjcRefs ctx (fuel+more) = some after ∧
      Forest (replacementOf after.isecs) ∧
      ∀ l w, replacementOf after.isecs l = some w → replacementOf ctx.isecs l ≠ some w →
        ∃ a b oa ob ha hb, StandsFor ctx after l w a b oa ob ha hb := by
  by_cases hempty : (refFolds ctx).isEmpty = true
  · refine ⟨0,fun more => ⟨ctx,if_pos hempty,h,?_⟩⟩
    intro l w hl hne
    exact absurd hl hne
  · have hforest := coalesced_forest h hread
    obtain ⟨fuel,hfuel⟩ := redirect_returns hforest ctx.syms ctx.count
    refine ⟨fuel,fun more => ?_⟩
    obtain ⟨syms,hsyms,-⟩ := hfuel more
    refine ⟨{ ctx with isecs := (refFolds ctx).foldl coalesce ctx.isecs, syms },?_,hforest,?_⟩
    · rw [coalesceObjcRefs, if_neg hempty]
      dsimp only
      rw [hsyms, Option.map_some]
    · intro l w hl hne
      exact fold_stands_for h hread rfl ((coalesces_replaced hl).resolve_left hne)

end Pass

/-- Two objects with a reference each to the same selector, which neither defines. -/
def selrefObject : ObjectFile Bool where
  sectHdrs := [{ rawSectname := nameField (bytes "__objc_selrefs")
                 rawSegname := nameField (bytes "__DATA"), flags := 5, size := 8 }]
  symbols := [0]
  relocs := [{ offset := 0, ty := true, size := 8, isPcrel := false, isSubtracted := false,
               target := .sym 0, addend := 0 }]

def twoSelrefs : Context Bool where
  relocUnsigned := true
  isecs := [{ file := 0, p2align := 3, size := 8, isRecord := true, nrels := 1 },
    { file := 1, p2align := 3, size := 8, isRecord := true, nrels := 1 }]
  objs := [{ selrefObject with subsecs := [0] },{ selrefObject with subsecs := [1] }]
  count := 1

theorem two_selrefs_record {i : ℕ} {isec : InputSection} {obj : ObjectFile Bool}
    {hdr : MachSection} (h : twoSelrefs.record i = some (isec,obj,hdr)) :
    isec.inputAddr = 0 ∧ hdr.addr = 0 ∧ isec.size = 8 ∧ isec.contents = [] ∧
      rels isec obj = selrefObject.relocs := by
  match i with
  | 0 =>
    obtain ⟨rfl,rfl,rfl⟩ : _ = isec ∧ _ = obj ∧ _ = hdr := by simpa using Option.some.inj h
    exact ⟨rfl,rfl,rfl,rfl,rfl⟩
  | 1 =>
    obtain ⟨rfl,rfl,rfl⟩ : _ = isec ∧ _ = obj ∧ _ = hdr := by simpa using Option.some.inj h
    exact ⟨rfl,rfl,rfl,rfl,rfl⟩
  | _+2 => cases h

theorem two_selrefs_read : twoSelrefs.Read where
  nodup := by decide
  sorted := by decide
  owned i obj hobj _ id := by
    match i, id with
    | 0, 0 => cases hobj; simp [twoSelrefs]
    | 0, 1 => cases hobj; simp [twoSelrefs]
    | 1, 0 => cases hobj; simp [twoSelrefs]
    | 1, 1 => cases hobj; simp [twoSelrefs]
    | 0, _+2 => cases hobj; simp [twoSelrefs]
    | 1, _+2 => cases hobj; simp [twoSelrefs]
    | _+2, _ => cases hobj
  inSection i isec obj hdr h := by
    obtain ⟨haddr,hstart,-⟩ := two_selrefs_record h
    rw [haddr, hstart]
    exact ⟨le_rfl,Nat.zero_le _⟩
  contained i isec obj hdr h := by
    obtain ⟨-,-,hsize,hbytes,hrels⟩ := two_selrefs_record h
    refine ⟨?_,by rw [hbytes]; exact Nat.zero_le _⟩
    rw [hrels, hsize]
    decide

theorem coalesce_refs_agree_selrefs :
    refKey twoSelrefs 1 = refKey twoSelrefs 0 ∧ (refKey twoSelrefs 0).isSome = true ∧
      ∃ fuel, ∀ more, ∃ after, coalesceObjcRefs twoSelrefs (fuel+more) = some after ∧
        Forest (replacementOf after.isecs) ∧
        ∀ l w, replacementOf after.isecs l = some w → replacementOf twoSelrefs.isecs l ≠ some w →
          ∃ a b oa ob ha hb, StandsFor twoSelrefs after l w a b oa ob ha hb := by
  refine ⟨by decide,by decide,coalesce_refs_agree ?_ two_selrefs_read⟩
  intro i
  refine ⟨i,.done ?_⟩
  match i with
  | 0 => rfl
  | 1 => rfl
  | _+2 => rfl

end MoldMacho.Objc
