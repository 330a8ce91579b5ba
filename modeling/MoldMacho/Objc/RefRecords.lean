import Mathlib.Data.List.Forall2
import MoldMacho.Objc.CoalesceRefs

/-!
# Records of one key

Records of one key are of one size, have the same bytes where no relocation fills,
and refer to the same at each offset.
-/

set_option autoImplicit false

namespace MoldMacho.Objc
open MoldMacho.Arch (Reloc)
open MoldMacho.Chunks (bytes)
open MoldMacho.InputSections (InputSection)
open MoldMacho.Links MoldMacho.OutputSectionNames MoldMacho.Replacements MoldMacho.StableSort

variable {T : Type}

/-- What a relocation refers to, through the replacements made. -/
inductive Refers (ctx : Context T) (obj : ObjectFile T) (rel : Reloc T) : RefTarget → Prop
  | place {t r : ℕ} (ht : rel.target = .section t) (hr : Ends (replacementOf ctx.isecs) t r) :
      Refers ctx obj rel (.place r rel.addend)
  | defined {idx t r : ℕ} (ht : rel.target = .sym idx)
      (hs : (ctx.syms (symbolOf obj idx)).inputSection = some t)
      (hr : Ends (replacementOf ctx.isecs) t r) :
      Refers ctx obj rel
        (.place r (BitVec.ofNat 64 (ctx.syms (symbolOf obj idx)).value + rel.addend))
  | elsewhere {idx : ℕ} (ht : rel.target = .sym idx)
      (hs : (ctx.syms (symbolOf obj idx)).inputSection = none) :
      Refers ctx obj rel (.sym (symbolOf obj idx) rel.addend)

theorem refers_target {ctx : Context T} (h : Forest (replacementOf ctx.isecs)) (obj : ObjectFile T)
    (rel : Reloc T) : Refers ctx obj rel (refTarget ctx obj rel) := by
  rw [refTarget]
  cases ht : rel.target with
  | «section» t => exact .place ht (resolve_to_ends h t)
  | sym idx =>
    dsimp only
    rw [symTarget]
    cases hs : (ctx.syms (symbolOf obj idx)).inputSection with
    | some t => exact .defined ht hs (resolve_to_ends h t)
    | none => exact .elsewhere ht hs

/-- The relocations of a subsection that lie at an offset, in order. -/
def relsAt (isec : InputSection) (obj : ObjectFile T) (o : ℕ) : List (Reloc T) :=
  (rels isec obj).filter fun rel => rel.offset = o

/-- Two records that no one can tell apart. -/
structure Agree (ctx : Context T) (a b : InputSection) (oa ob : ObjectFile T) : Prop where
  size : a.size = b.size
  fills : ∀ o, (∃ rel ∈ rels a oa, Fills rel o) ↔ ∃ rel ∈ rels b ob, Fills rel o
  bytes : ∀ o, (∀ rel ∈ rels a oa, ¬ Fills rel o) → a.contents[o]? = b.contents[o]?
  refs : ∀ o, List.Forall₂ (fun rel rel' => ∃ t, Refers ctx oa rel t ∧ Refers ctx ob rel' t)
    (relsAt a oa o) (relsAt b ob o)

/-- Relocations stay in their subsection, and so do its bytes. -/
structure Contained (isec : InputSection) (obj : ObjectFile T) : Prop where
  rels_fit : ∀ rel ∈ rels isec obj, rel.offset+rel.size ≤ isec.size
  contents_length : isec.contents.length ≤ isec.size

section Same
variable [DecidableEq T] {ctx : Context T} {a b : InputSection} {oa ob : ObjectFile T}

theorem plain_size {rel : Reloc T} (h : plainPtr ctx rel = true) : rel.size = 8 := by
  simp only [plainPtr, Bool.and_eq_true, beq_iff_eq] at h
  exact h.1.1.2

theorem pointer_some {isec : InputSection} {rels : List (Reloc T)} {rel : Reloc T}
    (h : pointer ctx isec rels = some rel) :
    rels = [rel] ∧ isec.size = 8 ∧ plainPtr ctx rel = true := by
  unfold pointer at h
  split at h
  · split at h
    · next hif =>
      obtain rfl := Option.some.inj h
      exact ⟨rfl,hif⟩
    · cases h
  · cases h

theorem pointer_target_some {isec : InputSection} {rels : List (Reloc T)} {idx : ℕ}
    (h : pointerTarget ctx isec rels = some idx) :
    ∃ rel, pointer ctx isec rels = some rel ∧ rel.target = .sym idx ∧ rel.addend = 0 := by
  unfold pointerTarget at h
  split at h
  · next rel =>
    split at h
    · next ht =>
      split at h
      · next hif =>
        obtain rfl := Option.some.inj h
        exact ⟨rel,if_pos ⟨hif.1,hif.2.1⟩,ht,hif.2.2⟩
      · cases h
    · cases h
  · cases h

theorem filled_same (hplain : ∀ rel ∈ rels a oa, plainPtr ctx rel = true)
    (hplain' : ∀ rel ∈ rels b ob, plainPtr ctx rel = true)
    (hmap : ∀ o, (relsAt a oa o).map (refTarget ctx oa) = (relsAt b ob o).map (refTarget ctx ob))
    {o : ℕ} (h : ∃ rel ∈ rels a oa, Fills rel o) : ∃ rel ∈ rels b ob, Fills rel o := by
  obtain ⟨rel,hrel,hfills⟩ := h
  have hat : rel ∈ relsAt a oa rel.offset := List.mem_filter.2 ⟨hrel,decide_eq_true rfl⟩
  have hmem : refTarget ctx oa rel ∈ (relsAt b ob rel.offset).map (refTarget ctx ob) := by
    rw [← hmap]
    exact List.mem_map_of_mem hat
  obtain ⟨rel',hrel',-⟩ := List.mem_map.1 hmem
  obtain ⟨hin,hoff⟩ := List.mem_filter.1 hrel'
  refine ⟨rel',hin,?_⟩
  rw [Fills, plain_size (hplain _ hrel)] at hfills
  rw [Fills, plain_size (hplain' _ hin), of_decide_eq_true hoff]
  exact hfills

/-- Records whose pointers refer to the same, offset by offset, agree. -/
theorem agree_of (h : Forest (replacementOf ctx.isecs)) (hsize : a.size = b.size)
    (hplain : ∀ rel ∈ rels a oa, plainPtr ctx rel = true)
    (hplain' : ∀ rel ∈ rels b ob, plainPtr ctx rel = true)
    (hmap : ∀ o, (relsAt a oa o).map (refTarget ctx oa) = (relsAt b ob o).map (refTarget ctx ob))
    (hbytes : ∀ o, (∀ rel ∈ rels a oa, ¬ Fills rel o) → (∀ rel ∈ rels b ob, ¬ Fills rel o) →
      a.contents[o]? = b.contents[o]?) : Agree ctx a b oa ob where
  size := hsize
  fills o := ⟨filled_same hplain hplain' hmap,filled_same hplain' hplain fun o => (hmap o).symm⟩
  bytes o hnone := by
    apply hbytes o hnone
    intro rel hrel hfills
    obtain ⟨rel',hrel',hfills'⟩ :=
      filled_same hplain' hplain (fun o => (hmap o).symm) ⟨rel,hrel,hfills⟩
    exact hnone rel' hrel' hfills'
  refs o := by
    have heq := List.forall₂_eq_eq_eq ▸ hmap o
    rw [List.forall₂_map_left_iff, List.forall₂_map_right_iff] at heq
    refine heq.imp fun rel rel' ht => ⟨refTarget ctx oa rel,refers_target h oa rel,?_⟩
    rw [ht]
    exact refers_target h ob rel'

/-- Pointers to the same agree. -/
theorem pointer_agree (h : Forest (replacementOf ctx.isecs)) (ha : Contained a oa)
    (hb : Contained b ob) {rel rel' : Reloc T} (hp : pointer ctx a (rels a oa) = some rel)
    (hp' : pointer ctx b (rels b ob) = some rel')
    (ht : refTarget ctx oa rel = refTarget ctx ob rel') : Agree ctx a b oa ob := by
  obtain ⟨hrels,hsize,hplain⟩ := pointer_some hp
  obtain ⟨hrels',hsize',hplain'⟩ := pointer_some hp'
  have hfit := ha.rels_fit rel (by simp [hrels])
  have hfit' := hb.rels_fit rel' (by simp [hrels'])
  have hoff : rel.offset = 0 := by
    rw [plain_size hplain] at hfit
    omega
  have hoff' : rel'.offset = 0 := by
    rw [plain_size hplain'] at hfit'
    omega
  apply agree_of h (hsize.trans hsize'.symm)
  · simpa [hrels] using hplain
  · simpa [hrels'] using hplain'
  · intro o
    rw [relsAt, relsAt, hrels, hrels']
    by_cases ho : 0 = o
    · simp [hoff, hoff', ho, ht]
    · simp [hoff, hoff', ho]
  · intro o hnone _
    -- the pointer fills all eight bytes
    have hlarge : 8 ≤ o := by
      have hnot := hnone rel (by simp [hrels])
      rw [Fills, hoff, plain_size hplain] at hnot
      omega
    have hlen := ha.contents_length
    have hlen' := hb.contents_length
    rw [List.getElem?_eq_none (by omega), List.getElem?_eq_none (by omega)]

omit [DecidableEq T] in
theorem blank_get (bytes : List UInt8) {rel : Reloc T} {o : ℕ} (h : ¬ Fills rel o) :
    (blank bytes rel)[o]? = bytes[o]? := by
  rw [Fills] at h
  simp [blank, List.getElem?_mapIdx, h]

omit [DecidableEq T] in
theorem blanks_get {rels : List (Reloc T)} (bytes : List UInt8) {o : ℕ}
    (h : ∀ rel ∈ rels, ¬ Fills rel o) : (rels.foldl blank bytes)[o]? = bytes[o]? := by
  induction rels generalizing bytes with
  | nil => rfl
  | cons rel rels ih =>
    rw [List.foldl_cons, ih _ fun rel' hrel' => h rel' (List.mem_cons_of_mem _ hrel'),
      blank_get bytes (h rel List.mem_cons_self)]

omit [DecidableEq T] in
theorem ref_targets_at (isec : InputSection) (obj : ObjectFile T) (o : ℕ) :
    ((refTargets ctx obj (rels isec obj)).filter fun t => t.1 = o).map Prod.snd =
      (relsAt isec obj o).map (refTarget ctx obj) := by
  rw [refTargets, sort_filter, List.filter_map, List.map_map]
  rfl

/-- CFStrings of the same bytes and targets agree. -/
theorem cfstring_agree (h : Forest (replacementOf ctx.isecs)) (hsize : a.size = b.size)
    (hplain : (rels a oa).all (plainPtr ctx) = true)
    (hplain' : (rels b ob).all (plainPtr ctx) = true)
    (hbytes : (rels a oa).foldl blank a.contents = (rels b ob).foldl blank b.contents)
    (htargets : refTargets ctx oa (rels a oa) = refTargets ctx ob (rels b ob)) :
    Agree ctx a b oa ob := by
  apply agree_of h hsize (List.all_eq_true.1 hplain) (List.all_eq_true.1 hplain')
  · intro o
    rw [← ref_targets_at a oa o, ← ref_targets_at b ob o, htargets]
  · intro o hnone hnone'
    rw [← blanks_get a.contents hnone, ← blanks_get b.contents hnone', hbytes]

/-- The records that coalesce, by their section. -/
theorem section_key_cases {isec : InputSection} {obj : ObjectFile T} {hdr : MachSection}
    {key : RefKey} (h : sectionKey ctx isec obj hdr = some key) :
    (∃ rel, pointer ctx isec (rels isec obj) = some rel ∧
      (hdr.sectname = bytes "__objc_selrefs" ∧ key = .sel (refTarget ctx obj rel) ∨
        hdr.sectname = bytes "__objc_superrefs" ∧ key = .super (refTarget ctx obj rel) ∨
        hdr.sectname = bytes "__objc_protorefs" ∧ key = .proto (refTarget ctx obj rel))) ∨
    (∃ idx, pointerTarget ctx isec (rels isec obj) = some idx ∧
      hdr.sectname = bytes "__objc_classrefs" ∧ key = .cls (symbolOf obj idx)) ∨
    (isec.size = 32 ∧ (rels isec obj).all (plainPtr ctx) = true ∧
      hdr.sectname = bytes "__cfstring" ∧
      key = .cfString ((rels isec obj).foldl blank isec.contents)
        (refTargets ctx obj (rels isec obj))) := by
  unfold sectionKey at h
  dsimp only at h
  split at h
  · next hname =>
    split at h
    · cases h
    · obtain ⟨rel,hp,rfl⟩ := Option.map_eq_some_iff.1 h
      exact Or.inl ⟨rel,hp,Or.inl ⟨hname,rfl⟩⟩
  · split at h
    · next hname =>
      split at h
      · cases h
      · obtain ⟨idx,hp,rfl⟩ := Option.map_eq_some_iff.1 h
        exact Or.inr (Or.inl ⟨idx,hp,hname,rfl⟩)
    · split at h
      · next hname =>
        split at h
        · cases h
        · obtain ⟨rel,hp,rfl⟩ := Option.map_eq_some_iff.1 h
          exact Or.inl ⟨rel,hp,Or.inr (Or.inl ⟨hname,rfl⟩)⟩
      · split at h
        · next hname =>
          split at h
          · cases h
          · obtain ⟨rel,hp,rfl⟩ := Option.map_eq_some_iff.1 h
            exact Or.inl ⟨rel,hp,Or.inr (Or.inr ⟨hname,rfl⟩)⟩
        · split at h
          · next hname =>
            split at h
            · cases h
            · next hif =>
              obtain rfl := Option.some.inj h
              rw [not_or, not_not, Bool.not_eq_true', Bool.not_eq_false] at hif
              exact Or.inr (Or.inr ⟨hif.1,hif.2,hname,rfl⟩)
          · cases h

/-- Records of one key are in sections of one name and agree. -/
theorem section_key_agree (h : Forest (replacementOf ctx.isecs)) (ha : Contained a oa)
    (hb : Contained b ob) {hdr hdr' : MachSection} {key : RefKey}
    (hkey : sectionKey ctx a oa hdr = some key) (hkey' : sectionKey ctx b ob hdr' = some key) :
    hdr.sectname = hdr'.sectname ∧ Agree ctx a b oa ob := by
  rcases section_key_cases hkey with ⟨rel,hp,hk⟩ | ⟨idx,hp,hname,rfl⟩ | ⟨hsize,hplain,hname,rfl⟩
  · rcases section_key_cases hkey' with ⟨rel',hp',hk'⟩ | ⟨_,_,_,rfl⟩ | ⟨_,_,_,rfl⟩
    · have hsame : hdr.sectname = hdr'.sectname ∧ refTarget ctx oa rel = refTarget ctx ob rel' := by
        rcases hk with ⟨hname,rfl⟩ | ⟨hname,rfl⟩ | ⟨hname,rfl⟩ <;>
          rcases hk' with ⟨hname',ht⟩ | ⟨hname',ht⟩ | ⟨hname',ht⟩ <;>
          simp only [RefKey.sel.injEq, RefKey.super.injEq, RefKey.proto.injEq, reduceCtorEq] at ht <;>
          exact ⟨hname.trans hname'.symm,ht⟩
      exact ⟨hsame.1,pointer_agree h ha hb hp hp' hsame.2⟩
    · simp at hk
    · simp at hk
  · rcases section_key_cases hkey' with ⟨rel',_,hk'⟩ | ⟨idx',hp',hname',hk'⟩ | ⟨_,_,_,hk'⟩
    · simp at hk'
    · obtain ⟨rel,hpointer,ht,hzero⟩ := pointer_target_some hp
      obtain ⟨rel',hpointer',ht',hzero'⟩ := pointer_target_some hp'
      have hsame : refTarget ctx oa rel = refTarget ctx ob rel' := by
        rw [refTarget, refTarget, ht, ht', hzero, hzero']
        exact congrArg (symTarget ctx · 0) (RefKey.cls.inj hk')
      exact ⟨hname.trans hname'.symm,pointer_agree h ha hb hpointer hpointer' hsame⟩
    · cases hk'
  · rcases section_key_cases hkey' with ⟨rel',_,hk'⟩ | ⟨_,_,_,hk'⟩ | ⟨hsize',hplain',hname',hk'⟩
    · simp at hk'
    · cases hk'
    · obtain ⟨hbytes,htargets⟩ := RefKey.cfString.inj hk'
      exact ⟨hname.trans hname'.symm,
        cfstring_agree h (hsize.trans hsize'.symm) hplain hplain' hbytes htargets⟩

end Same

end MoldMacho.Objc
