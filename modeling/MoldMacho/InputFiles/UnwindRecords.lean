import MoldMacho.InputFiles.ParseUnwind
import MoldMacho.Lib.Lists

/-!
# FDEs and compact records, joined

Once an object's FDEs are added, the last FDE of each function that no compact
record covers is tied to the function's one record, and every other record is
as it came.
-/

set_option autoImplicit false

namespace MoldMacho.ParseUnwind
open MoldMacho.InputSections MoldMacho.Macho MoldMacho.EhFrame

section Lists
variable {α : Type}

/-- A list with one element of a kind. -/
theorem filter_single {l : List α} {p : α → Bool} {i : ℕ} {a : α} (ha : l[i]? = some a)
    (hp : p a = true) (hone : ∀ (j : ℕ) (b : α), l[j]? = some b → p b = true → j = i) :
    l.filter p = [a] := by
  obtain ⟨hi,rfl⟩ := List.getElem?_eq_some_iff.1 ha
  have hbefore : (l.take i).filter p = [] := by
    rw [List.filter_eq_nil_iff]
    intro b hb hpb
    obtain ⟨j,hj⟩ := List.getElem?_of_mem hb
    obtain ⟨hlt,-⟩ := List.getElem?_eq_some_iff.1 hj
    rw [List.length_take] at hlt
    have hget := List.getElem?_take_of_lt (l := l) (show j < i by omega)
    have hji := hone j b (hget.symm.trans hj) hpb
    omega
  have hafter : (l.drop (i+1)).filter p = [] := by
    rw [List.filter_eq_nil_iff]
    intro b hb hpb
    obtain ⟨j,hj⟩ := List.getElem?_of_mem hb
    rw [List.getElem?_drop] at hj
    have hji := hone (i+1+j) b hj hpb
    omega
  conv_lhs => rw [← List.take_append_drop i l, List.drop_eq_getElem_cons hi]
  rw [List.filter_append, hbefore, List.filter_cons_of_pos hp, hafter, List.nil_append]

theorem filter_modify {l : List α} {p : α → Bool} {i : ℕ} {a : α} {f : α → α} (ha : l[i]? = some a)
    (hp : p a = false) (hf : p (f a) = false) : (l.modify i f).filter p = l.filter p := by
  obtain ⟨hi,rfl⟩ := List.getElem?_eq_some_iff.1 ha
  rw [List.modify_eq_take_cons_drop hi]
  conv_rhs => rw [← List.take_append_drop i l, List.drop_eq_getElem_cons hi]
  rw [List.filter_append, List.filter_append, List.filter_cons_of_neg (by simpa using hf),
    List.filter_cons_of_neg (by simpa using hp)]

theorem modify_get {l : List α} {i : ℕ} {a : α} (ha : l[i]? = some a) (f : α → α) (j : ℕ) :
    (l.modify i f)[j]? = if i = j then some (f a) else l[j]? := by
  rw [List.getElem?_modify]
  split
  · next hij =>
    rw [← hij, ha]
    rfl
  · cases l[j]? <;> rfl

end Lists

/-! ## The records to begin with -/

section Start
variable {T : Type} {obj : StagedObject}

/-- A record as `__compact_unwind` gives it: without an FDE, and its function, if
a relocation gave it one, in the object. -/
structure Entered (obj : StagedObject) (rec : UnwindRecord) : Prop where
  fde : rec.fde = none
  isec : rec.isec = noIsec ∨ rec.isec < obj.isecs.length

theorem find_subsec_lt {addr isec off : ℕ} (h : obj.findSubsec addr = some (isec,off)) :
    isec < obj.isecs.length := by
  simp only [StagedObject.findSubsec, Option.bind_eq_bind, Option.bind_eq_some_iff] at h
  obtain ⟨id,-,sub,hsub,h⟩ := h
  split at h
  · cases h
    exact (List.getElem?_eq_some_iff.1 hsub).1
  · cases h

theorem find_symbol_subsec_lt {sect addr isec off : ℕ}
    (h : obj.findSymbolSubsec sect addr = some (isec,off)) : isec < obj.isecs.length := by
  simp only [StagedObject.findSymbolSubsec, Option.bind_eq_bind, Option.bind_eq_some_iff] at h
  obtain ⟨id,-,sub,hsub,h⟩ := h
  split at h
  · cases h
    exact (List.getElem?_eq_some_iff.1 hsub).1
  · cases h

theorem set_pointer_entered {records records' : List UnwindRecord} {r : Arch.Reloc T}
    (h : setPointer obj records r = some records') (hrecs : ∀ rec ∈ records, Entered obj rec) :
    ∀ rec ∈ records', Entered obj rec := by
  have hset : ∃ i rec rec', records[i]? = some rec ∧ rec'.fde = rec.fde ∧
      (rec'.isec = rec.isec ∨ rec'.isec < obj.isecs.length) ∧ records' = records.set i rec' := by
    unfold setPointer at h
    simp only [Option.bind_eq_bind, Option.bind_eq_some_iff] at h
    obtain ⟨rec,hrec,⟨sect,addr⟩,-,h⟩ := h
    split at h
    · obtain ⟨⟨isec,off⟩,hfind,h⟩ := Option.bind_eq_some_iff.1 h
      exact ⟨_,rec,_,hrec,by rfl,Or.inr (find_symbol_subsec_lt hfind),(Option.some.inj h).symm⟩
    · split at h
      · obtain ⟨sym,-,h⟩ := Option.bind_eq_some_iff.1 h
        exact ⟨_,rec,_,hrec,by rfl,Or.inl (by rfl),(Option.some.inj h).symm⟩
      · obtain ⟨sym,-,h⟩ := Option.bind_eq_some_iff.1 h
        exact ⟨_,rec,_,hrec,by rfl,Or.inl (by rfl),(Option.some.inj h).symm⟩
    · obtain ⟨⟨isec,off⟩,-,h⟩ := Option.bind_eq_some_iff.1 h
      exact ⟨_,rec,_,hrec,by rfl,Or.inl (by rfl),(Option.some.inj h).symm⟩
    · cases h
  obtain ⟨i,rec,rec',hrec,hfde,hisec,rfl⟩ := hset
  intro r hr
  rcases List.mem_or_eq_of_mem_set hr with hr | rfl
  · exact hrecs r hr
  · have hold := hrecs rec (List.mem_of_getElem? hrec)
    constructor
    · exact hfde.trans hold.fde
    · rcases hisec with heq | hlt
      · rw [heq]
        exact hold.isec
      · exact Or.inr hlt

theorem parse_compact_entered {hdr : MachSection} {rels : List (Arch.Reloc T)}
    {records : List UnwindRecord} (h : parseCompactUnwind obj hdr rels = some records) :
    ∀ rec ∈ records, rec.fde = none ∧ rec.isec < obj.isecs.length := by
  unfold parseCompactUnwind at h
  simp only [Option.bind_eq_bind, Option.bind_eq_some_iff] at h
  obtain ⟨entries,hentries,last,hlast,h⟩ := h
  cases h
  have hstart : ∀ rec ∈ entries, Entered obj rec := by
    intro rec hrec
    obtain ⟨i,-,hi⟩ := Lists.mapM_mem hentries rec hrec
    simp only [readEntry, Option.bind_eq_bind, Option.bind_eq_some_iff] at hi
    obtain ⟨codeLen,-,encoding,-,hi⟩ := hi
    cases hi
    exact ⟨rfl,Or.inl rfl⟩
  have hdone := Lists.foldlM_keeps (I := fun records => ∀ rec ∈ records, Entered obj rec)
    (fun _ _ _ hset hrecs => set_pointer_entered hset hrecs) hlast hstart
  intro rec hrec
  obtain ⟨hmem,hkept⟩ := List.mem_filter.1 hrec
  have hentered := hdone rec hmem
  exact ⟨hentered.fde,hentered.isec.resolve_left (of_decide_eq_true hkept)⟩

theorem compact_records_entered {relocs : ℕ → List (Arch.Reloc T)} {records : List UnwindRecord}
    (h : compactRecords obj relocs = some records) :
    ∀ rec ∈ records, rec.fde = none ∧ rec.isec < obj.isecs.length := by
  unfold compactRecords at h
  split at h
  · obtain ⟨hdr,-,h⟩ := Option.bind_eq_some_iff.1 h
    exact parse_compact_entered h
  · cases h
    simp

theorem dwarf_records_some {target : Target} {unwind : List UnwindRecord} {p : Place} {i : ℕ}
    (h : dwarfRecords target unwind p = some i) :
    ∃ rec, unwind[i]? = some rec ∧ place rec = p ∧ isDwarf target rec = true := by
  have hfold : ∀ (es : List (UnwindRecord × ℕ)) (recs : Place → Option ℕ),
      (∀ e ∈ es, unwind[e.2]? = some e.1) →
      (∀ p i, recs p = some i →
        ∃ rec, unwind[i]? = some rec ∧ place rec = p ∧ isDwarf target rec = true) →
      ∀ p i, es.foldl (fun recs e =>
        if isDwarf target e.1 then Function.update recs (place e.1) (some e.2) else recs) recs p =
          some i → ∃ rec, unwind[i]? = some rec ∧ place rec = p ∧ isDwarf target rec = true := by
    intro es
    induction es with
    | nil => exact fun recs _ hrecs => hrecs
    | cons e es ih =>
      intro recs hes hrecs
      rw [List.forall_mem_cons] at hes
      apply ih _ hes.2
      intro p i hp
      dsimp only at hp
      split at hp
      · next hdwarf =>
        by_cases hpe : p = place e.1
        · rw [hpe, Function.update_self] at hp
          cases hp
          exact ⟨e.1,hes.1,hpe.symm,hdwarf⟩
        · rw [Function.update_of_ne hpe] at hp
          exact hrecs p i hp
      · exact hrecs p i hp
  apply hfold unwind.zipIdx (fun _ => none) _ (fun _ _ h => by cases h) p i h
  rintro ⟨rec,j⟩ he
  exact List.mem_zipIdx_iff_getElem?.1 he

end Start

/-! ## Adding an FDE -/

/-- The last FDE of a function. -/
def lastFde (fdes : List (RawFde × FdeFunction)) (p : Place) : Option (RawFde × FdeFunction) :=
  (fdes.filter fun fde => funcPlace fde = p).getLast?

theorem last_fde_concat (fdes : List (RawFde × FdeFunction)) (fde : RawFde × FdeFunction)
    (p : Place) :
    lastFde (fdes ++ [fde]) p = if funcPlace fde = p then some fde else lastFde fdes p := by
  rw [lastFde, List.filter_append]
  split
  · next h =>
    rw [List.filter_cons_of_pos (by simpa using h), List.filter_nil, List.getLast?_concat]
  · next h =>
    rw [List.filter_cons_of_neg (by simpa using h), List.filter_nil, List.append_nil]
    rfl

/-- What adding an FDE does: nothing for a covered function, or else the FDE is
kept and its function's record, if it has one or is code, points at it. -/
theorem add_fde_cases (covered : List Place) (s : Adding) (fde : RawFde × FdeFunction) :
    (funcPlace fde ∈ covered ∧ addFde covered false s fde = s) ∨
    funcPlace fde ∉ covered ∧
      ((∃ i, s.dwarfRecs (funcPlace fde) = some i ∧
        addFde covered false s fde =
          { s with
            fdes := s.fdes ++ [fdeRecord fde]
            unwind := s.unwind.modify i fun rec => { rec with fde := some s.fdes.length } }) ∨
      s.dwarfRecs (funcPlace fde) = none ∧
        ((fde.2.isCode = false ∧
          addFde covered false s fde = { s with fdes := s.fdes ++ [fdeRecord fde] }) ∨
        fde.2.isCode = true ∧
          addFde covered false s fde =
            { unwind := s.unwind ++ [fdeOnlyRecord fde s.fdes.length]
              fdes := s.fdes ++ [fdeRecord fde]
              dwarfRecs :=
                Function.update s.dwarfRecs (funcPlace fde) (some s.unwind.length) })) := by
  by_cases hcovered : funcPlace fde ∈ covered
  · exact Or.inl ⟨hcovered,by simp [addFde, hcovered]⟩
  · refine Or.inr ⟨hcovered,?_⟩
    have hcontains : covered.contains (funcPlace fde) = false := by simpa using hcovered
    cases hrec : s.dwarfRecs (funcPlace fde) with
    | some i =>
      refine Or.inl ⟨i,rfl,?_⟩
      simp only [addFde, hcontains, hrec, Bool.false_and, Bool.false_eq_true, if_false]
    | none =>
      refine Or.inr ⟨rfl,?_⟩
      cases hcode : fde.2.isCode with
      | false =>
        refine Or.inl ⟨rfl,?_⟩
        simp only [addFde, hcontains, hrec, hcode, Bool.false_and, Bool.false_eq_true, if_false,
          Bool.not_false, if_true]
      | true =>
        refine Or.inr ⟨rfl,?_⟩
        simp only [addFde, hcontains, hrec, hcode, Bool.false_and, Bool.false_eq_true, if_false,
          Bool.not_true]

/-- The records and the FDEs once those of `fdes` are added: the record of a
function that no compact one covers points at its last FDE. -/
structure Tied (target : Target) (compact : List UnwindRecord) (fdes : List (RawFde × FdeFunction))
    (s : Adding) : Prop where
  slot : ∀ p i, s.dwarfRecs p = some i → ∃ rec, s.unwind[i]? = some rec ∧ place rec = p ∧
    (rec.fde = none → isDwarf target rec = true ∧
      (p ∉ coveredBy target compact → lastFde fdes p = none))
  tied : ∀ (i : ℕ) rec k, s.unwind[i]? = some rec → rec.fde = some k →
    s.dwarfRecs (place rec) = some i ∧ place rec ∉ coveredBy target compact ∧
    ∃ fde, lastFde fdes (place rec) = some fde ∧ s.fdes[k]? = some (fdeRecord fde)
  origin : ∀ rec ∈ s.unwind, ∀ k, rec.fde = some k →
    (∃ old ∈ compact, isDwarf target old = true ∧ rec = { old with fde := some k }) ∨
    ∃ fde ∈ fdes, rec = fdeOnlyRecord fde k
  untied : ∀ rec ∈ s.unwind, rec.fde = none → rec ∈ compact
  coded : ∀ fde ∈ fdes, fde.2.isCode = true → funcPlace fde ∉ coveredBy target compact →
    (s.dwarfRecs (funcPlace fde)).isSome = true
  covered : ∀ p ∈ coveredBy target compact,
    (s.unwind.filter fun rec => place rec = p) = compact.filter fun rec => place rec = p
  fdes : s.fdes =
    (fdes.filter fun fde => funcPlace fde ∉ coveredBy target compact).map fdeRecord

section Step
variable {target : Target} {compact : List UnwindRecord} {fdes : List (RawFde × FdeFunction)}
variable {s : Adding}

theorem tied_start (hfde : ∀ rec ∈ compact, rec.fde = none) :
    Tied target compact [] { unwind := compact, dwarfRecs := dwarfRecords target compact } := by
  constructor
  · intro p i hp
    obtain ⟨rec,hrec,hplace,hdwarf⟩ := dwarf_records_some hp
    exact ⟨rec,hrec,hplace,fun _ => ⟨hdwarf,fun _ => rfl⟩⟩
  · intro i rec k hrec hk
    rw [hfde rec (List.mem_of_getElem? hrec)] at hk
    cases hk
  · intro rec hrec k hk
    rw [hfde rec hrec] at hk
    cases hk
  · exact fun rec hrec _ => hrec
  · exact fun fde hmem => absurd hmem List.not_mem_nil
  · exact fun _ _ => rfl
  · rfl

/-- A covered function's FDE changes nothing. -/
theorem Tied.skip (h : Tied target compact fdes s) {fde : RawFde × FdeFunction}
    (hcovered : funcPlace fde ∈ coveredBy target compact) :
    Tied target compact (fdes ++ [fde]) s := by
  have hlast : ∀ p, p ∉ coveredBy target compact → lastFde (fdes ++ [fde]) p = lastFde fdes p := by
    intro p hp
    have hne : funcPlace fde ≠ p := fun he => hp (he ▸ hcovered)
    rw [last_fde_concat, if_neg hne]
  constructor
  · intro p i hp
    obtain ⟨rec,hrec,hplace,hnone⟩ := h.slot p i hp
    refine ⟨rec,hrec,hplace,fun hfde => ⟨(hnone hfde).1,fun hp => ?_⟩⟩
    rw [hlast p hp]
    exact (hnone hfde).2 hp
  · intro i rec k hrec hk
    obtain ⟨hslot,hplace,hfde⟩ := h.tied i rec k hrec hk
    rw [hlast _ hplace]
    exact ⟨hslot,hplace,hfde⟩
  · intro rec hrec k hk
    rcases h.origin rec hrec k hk with hold | ⟨fde',hmem,heq⟩
    · exact Or.inl hold
    · exact Or.inr ⟨fde',List.mem_append_left _ hmem,heq⟩
  · exact h.untied
  · intro fde' hmem hcode hp
    rcases List.mem_append.1 hmem with hmem | hmem
    · exact h.coded fde' hmem hcode hp
    · rw [List.mem_singleton.1 hmem] at hp
      exact absurd hcovered hp
  · exact h.covered
  · rw [h.fdes, List.filter_append, List.filter_cons_of_neg (by simpa using hcovered),
      List.filter_nil, List.append_nil]

/-- The FDEs kept once one more is. -/
theorem Tied.fdes_concat (h : Tied target compact fdes s) {fde : RawFde × FdeFunction}
    (hfree : funcPlace fde ∉ coveredBy target compact) :
    s.fdes ++ [fdeRecord fde] =
      ((fdes ++ [fde]).filter fun fde => funcPlace fde ∉ coveredBy target compact).map
        fdeRecord := by
  rw [h.fdes, List.filter_append, List.filter_cons_of_pos (by simpa using hfree), List.filter_nil,
    List.map_append]
  rfl

/-- Another function's record stays tied. -/
theorem Tied.other (h : Tied target compact fdes s) {fde : RawFde × FdeFunction} {i : ℕ}
    {rec : UnwindRecord} {k : ℕ} (hrec : s.unwind[i]? = some rec) (hk : rec.fde = some k)
    (hne : place rec ≠ funcPlace fde) :
    place rec ∉ coveredBy target compact ∧ ∃ last, lastFde (fdes ++ [fde]) (place rec) = some last ∧
      (s.fdes ++ [fdeRecord fde])[k]? = some (fdeRecord last) := by
  obtain ⟨-,hplace,last,hlast,hget⟩ := h.tied i rec k hrec hk
  refine ⟨hplace,last,?_,?_⟩
  · rw [last_fde_concat, if_neg hne.symm]
    exact hlast
  · rw [List.getElem?_append_left (List.getElem?_eq_some_iff.1 hget).1]
    exact hget

/-- A function's own record points at the new FDE. -/
theorem Tied.point (h : Tied target compact fdes s) {fde : RawFde × FdeFunction} {i : ℕ}
    (hfree : funcPlace fde ∉ coveredBy target compact)
    (hslot : s.dwarfRecs (funcPlace fde) = some i) :
    Tied target compact (fdes ++ [fde])
      { s with
        fdes := s.fdes ++ [fdeRecord fde]
        unwind := s.unwind.modify i fun rec => { rec with fde := some s.fdes.length } } := by
  obtain ⟨own,hown,hplace,hnone⟩ := h.slot _ i hslot
  have hget := modify_get hown fun rec => { rec with fde := some s.fdes.length }
  constructor
  · intro p j hp
    dsimp only
    rw [hget]
    obtain ⟨rec,hrec,hrplace,hrnone⟩ := h.slot p j hp
    by_cases hij : i = j
    · subst hij
      obtain rfl := Option.some.inj (hown.symm.trans hrec)
      rw [if_pos rfl]
      exact ⟨_,rfl,hrplace,nofun⟩
    · rw [if_neg hij]
      refine ⟨rec,hrec,hrplace,fun hfde => ⟨(hrnone hfde).1,fun hpfree => ?_⟩⟩
      rw [last_fde_concat, if_neg]
      · exact (hrnone hfde).2 hpfree
      · intro hpe
        rw [← hpe, hslot] at hp
        exact hij (Option.some.inj hp)
  · intro j rec k hrec hk
    dsimp only at hrec ⊢
    rw [hget] at hrec
    by_cases hij : i = j
    · subst hij
      rw [if_pos rfl] at hrec
      cases hrec
      cases hk
      have hownplace : place { own with fde := some s.fdes.length } = funcPlace fde := hplace
      rw [hownplace]
      refine ⟨hslot,hfree,fde,?_,List.getElem?_concat_length⟩
      rw [last_fde_concat, if_pos rfl]
    · rw [if_neg hij] at hrec
      obtain ⟨hrslot,-⟩ := h.tied j rec k hrec hk
      refine ⟨hrslot,h.other hrec hk ?_⟩
      intro he
      rw [he, hslot] at hrslot
      exact hij (Option.some.inj hrslot)
  · intro rec hrec k hk
    obtain ⟨j,hj⟩ := List.getElem?_of_mem hrec
    dsimp only at hj
    rw [hget] at hj
    by_cases hij : i = j
    · rw [if_pos hij] at hj
      cases hj
      cases hk
      cases hfde : own.fde with
      | none =>
        exact Or.inl ⟨own,h.untied own (List.mem_of_getElem? hown) hfde,(hnone hfde).1,rfl⟩
      | some k =>
        rcases h.origin own (List.mem_of_getElem? hown) k hfde with
          ⟨old,hold,hdwarf,heq⟩ | ⟨fde',hmem,heq⟩
        · exact Or.inl ⟨old,hold,hdwarf,by rw [heq]⟩
        · exact Or.inr ⟨fde',List.mem_append_left _ hmem,by rw [heq, fdeOnlyRecord, fdeOnlyRecord]⟩
    · rw [if_neg hij] at hj
      rcases h.origin rec (List.mem_of_getElem? hj) k hk with hold | ⟨fde',hmem,heq⟩
      · exact Or.inl hold
      · exact Or.inr ⟨fde',List.mem_append_left _ hmem,heq⟩
  · intro rec hrec hk
    obtain ⟨j,hj⟩ := List.getElem?_of_mem hrec
    dsimp only at hj
    rw [hget] at hj
    by_cases hij : i = j
    · rw [if_pos hij] at hj
      cases hj
      cases hk
    · rw [if_neg hij] at hj
      exact h.untied rec (List.mem_of_getElem? hj) hk
  · intro fde' hmem hcode hp
    rcases List.mem_append.1 hmem with hmem | hmem
    · exact h.coded fde' hmem hcode hp
    · rw [List.mem_singleton.1 hmem]
      dsimp only
      rw [hslot]
      rfl
  · intro p hp
    have hne : place own ≠ p := by
      rw [hplace]
      exact fun he => hfree (he ▸ hp)
    rw [← h.covered p hp]
    exact filter_modify hown (decide_eq_false hne) (decide_eq_false hne)
  · exact h.fdes_concat hfree

/-- An FDE outside code is only carried. -/
theorem Tied.carry (h : Tied target compact fdes s) {fde : RawFde × FdeFunction}
    (hfree : funcPlace fde ∉ coveredBy target compact)
    (hslot : s.dwarfRecs (funcPlace fde) = none) (hcode : fde.2.isCode = false) :
    Tied target compact (fdes ++ [fde]) { s with fdes := s.fdes ++ [fdeRecord fde] } := by
  have hne : ∀ p i, s.dwarfRecs p = some i → funcPlace fde ≠ p := by
    intro p i hp he
    rw [← he, hslot] at hp
    cases hp
  constructor
  · intro p i hp
    obtain ⟨rec,hrec,hplace,hnone⟩ := h.slot p i hp
    refine ⟨rec,hrec,hplace,fun hfde => ⟨(hnone hfde).1,fun hpfree => ?_⟩⟩
    rw [last_fde_concat, if_neg (hne p i hp)]
    exact (hnone hfde).2 hpfree
  · intro i rec k hrec hk
    obtain ⟨hrslot,-⟩ := h.tied i rec k hrec hk
    exact ⟨hrslot,h.other hrec hk (hne _ i hrslot).symm⟩
  · intro rec hrec k hk
    rcases h.origin rec hrec k hk with hold | ⟨fde',hmem,heq⟩
    · exact Or.inl hold
    · exact Or.inr ⟨fde',List.mem_append_left _ hmem,heq⟩
  · exact h.untied
  · intro fde' hmem hcode' hp
    rcases List.mem_append.1 hmem with hmem | hmem
    · exact h.coded fde' hmem hcode' hp
    · rw [List.mem_singleton.1 hmem, hcode] at hcode'
      cases hcode'
  · exact h.covered
  · exact h.fdes_concat hfree

/-- A function in code with no record gets one. -/
theorem Tied.push (h : Tied target compact fdes s) {fde : RawFde × FdeFunction}
    (hfree : funcPlace fde ∉ coveredBy target compact)
    (hslot : s.dwarfRecs (funcPlace fde) = none) :
    Tied target compact (fdes ++ [fde])
      { unwind := s.unwind ++ [fdeOnlyRecord fde s.fdes.length]
        fdes := s.fdes ++ [fdeRecord fde]
        dwarfRecs := Function.update s.dwarfRecs (funcPlace fde) (some s.unwind.length) } := by
  have hnew : place (fdeOnlyRecord fde s.fdes.length) = funcPlace fde := rfl
  have hslots : ∀ p i, p ≠ funcPlace fde →
      (Function.update s.dwarfRecs (funcPlace fde) (some s.unwind.length) p = some i ↔
        s.dwarfRecs p = some i) := by
    intro p i hp
    rw [Function.update_of_ne hp]
  have hget : ∀ (i : ℕ) rec, (s.unwind ++ [fdeOnlyRecord fde s.fdes.length])[i]? = some rec →
      s.unwind[i]? = some rec ∨
        i = s.unwind.length ∧ rec = fdeOnlyRecord fde s.fdes.length := by
    intro i rec hrec
    rcases Nat.lt_trichotomy i s.unwind.length with hlt | heq | hgt
    · rw [List.getElem?_append_left hlt] at hrec
      exact Or.inl hrec
    · rw [heq, List.getElem?_concat_length] at hrec
      exact Or.inr ⟨heq,(Option.some.inj hrec).symm⟩
    · rw [List.getElem?_eq_none (by simp; omega)] at hrec
      cases hrec
  constructor
  · intro p i hp
    by_cases hpe : p = funcPlace fde
    · dsimp only at hp ⊢
      rw [hpe, Function.update_self] at hp
      cases hp
      refine ⟨_,List.getElem?_concat_length,hpe ▸ hnew,fun hfde => ?_⟩
      cases hfde
    · obtain ⟨rec,hrec,hplace,hnone⟩ := h.slot p i ((hslots p i hpe).1 hp)
      refine ⟨rec,?_,hplace,fun hfde => ⟨(hnone hfde).1,fun hpfree => ?_⟩⟩
      · dsimp only
        rw [List.getElem?_append_left (List.getElem?_eq_some_iff.1 hrec).1]
        exact hrec
      · rw [last_fde_concat, if_neg (Ne.symm hpe)]
        exact (hnone hfde).2 hpfree
  · intro i rec k hrec hk
    rcases hget i rec hrec with hrec | ⟨rfl,rfl⟩
    · obtain ⟨hrslot,-⟩ := h.tied i rec k hrec hk
      have hne : place rec ≠ funcPlace fde := by
        intro he
        rw [he, hslot] at hrslot
        cases hrslot
      exact ⟨(hslots _ i hne).2 hrslot,h.other hrec hk hne⟩
    · cases hk
      rw [hnew]
      refine ⟨Function.update_self ..,hfree,fde,?_,List.getElem?_concat_length⟩
      rw [last_fde_concat, if_pos rfl]
  · intro rec hrec k hk
    rcases List.mem_append.1 hrec with hrec | hrec
    · rcases h.origin rec hrec k hk with hold | ⟨fde',hmem,heq⟩
      · exact Or.inl hold
      · exact Or.inr ⟨fde',List.mem_append_left _ hmem,heq⟩
    · obtain rfl := List.mem_singleton.1 hrec
      cases hk
      exact Or.inr ⟨fde,by simp,rfl⟩
  · intro rec hrec hk
    rcases List.mem_append.1 hrec with hrec | hrec
    · exact h.untied rec hrec hk
    · obtain rfl := List.mem_singleton.1 hrec
      cases hk
  · intro fde' hmem hcode hp
    dsimp only
    by_cases hpe : funcPlace fde' = funcPlace fde
    · rw [hpe, Function.update_self]
      rfl
    · rw [Function.update_of_ne hpe]
      rcases List.mem_append.1 hmem with hmem | hmem
      · exact h.coded fde' hmem hcode hp
      · exact absurd (congrArg funcPlace (List.mem_singleton.1 hmem)) hpe
  · intro p hp
    have hne : place (fdeOnlyRecord fde s.fdes.length) ≠ p := by
      rw [hnew]
      exact fun he => hfree (he ▸ hp)
    rw [← h.covered p hp, List.filter_append, List.filter_cons_of_neg (by simpa using hne),
      List.filter_nil, List.append_nil]
  · exact h.fdes_concat hfree

theorem tied_step (h : Tied target compact fdes s) (fde : RawFde × FdeFunction) :
    Tied target compact (fdes ++ [fde]) (addFde (coveredBy target compact) false s fde) := by
  rcases add_fde_cases (coveredBy target compact) s fde with ⟨hcovered,heq⟩ |
    ⟨hfree,⟨i,hslot,heq⟩ | ⟨hslot,⟨hcode,heq⟩ | ⟨-,heq⟩⟩⟩
  · rw [heq]
    exact h.skip hcovered
  · rw [heq]
    exact h.point hfree hslot
  · rw [heq]
    exact h.carry hfree hslot hcode
  · rw [heq]
    exact h.push hfree hslot

/-- However many FDEs there are, and in whatever order, the records and the FDEs
are tied. -/
theorem tied_run (hfde : ∀ rec ∈ compact, rec.fde = none) :
    Tied target compact fdes (addFdes target compact fdes false) := by
  have hfold : ∀ (rest before : List (RawFde × FdeFunction)) (s : Adding),
      Tied target compact before s →
      Tied target compact (before ++ rest)
        (rest.foldl (addFde (coveredBy target compact) false) s) := by
    intro rest
    induction rest with
    | nil =>
      intro before s h
      rw [List.append_nil]
      exact h
    | cons fde rest ih =>
      intro before s h
      rw [List.append_cons]
      exact ih _ _ (tied_step h fde)
  exact hfold fdes [] _ (tied_start hfde)

end Step

/-! ## The records that stay -/

/-- The records and the FDEs of an object, joined: a function in code that no
compact record covers, and that has an FDE, has one record, its own DWARF-mode
one or a new one, tied to its last FDE; a covered function has its records that
are not in DWARF mode and no FDE; and every DWARF-mode record has an FDE. -/
structure Joined (target : Target) (compact : List UnwindRecord)
    (fdes : List (RawFde × FdeFunction)) (info : UnwindInfo) : Prop where
  one : ∀ fde ∈ fdes, fde.2.isCode = true → funcPlace fde ∉ coveredBy target compact →
    ∃ rec k last, (info.unwind.filter fun rec => place rec = funcPlace fde) = [rec] ∧
      rec.fde = some k ∧ info.fdes[k]? = some (fdeRecord last) ∧
      lastFde fdes (funcPlace fde) = some last ∧
      ((∃ old ∈ compact, isDwarf target old = true ∧ rec = { old with fde := some k }) ∨
        ∃ first ∈ fdes, rec = fdeOnlyRecord first k)
  covered : ∀ p ∈ coveredBy target compact,
    (info.unwind.filter fun rec => place rec = p) =
      (compact.filter fun rec => place rec = p && !isDwarf target rec) ∧
    ∀ fde ∈ info.fdes, (fde.isec,fde.funcOffset) ≠ p
  dwarf : ∀ rec ∈ info.unwind, isDwarf target rec = true → rec.fde.isSome = true

section Stay
variable {target : Target} {compact : List UnwindRecord} {fdes : List (RawFde × FdeFunction)}

theorem mem_covered {p : Place} :
    p ∈ coveredBy target compact ↔
      ∃ rec ∈ compact, isDwarf target rec = false ∧ place rec = p := by
  simp [coveredBy, and_assoc]

/-- The last FDE of a function that has one. -/
theorem last_fde_some {fde : RawFde × FdeFunction} (h : fde ∈ fdes) :
    (lastFde fdes (funcPlace fde)).isSome = true := by
  have hmem : fde ∈ fdes.filter fun f => funcPlace f = funcPlace fde :=
    List.mem_filter.2 ⟨h,decide_eq_true rfl⟩
  rw [lastFde, List.getLast?_eq_some_getLast (List.ne_nil_of_mem hmem)]
  rfl

theorem tied_joined {s : Adding} (h : Tied target compact fdes s) (cies : List CieRecord) :
    Joined target compact fdes
      { unwind := s.unwind.filter fun rec => !isDwarf target rec || rec.fde.isSome
        cies, fdes := s.fdes } := by
  constructor
  · intro fde hmem hcode hfree
    obtain ⟨i,hslot⟩ := Option.isSome_iff_exists.1 (h.coded fde hmem hcode hfree)
    obtain ⟨rec,hrec,hplace,hnone⟩ := h.slot _ i hslot
    have hk : ∃ k, rec.fde = some k := by
      cases hfde : rec.fde with
      | some k => exact ⟨k,rfl⟩
      | none =>
        have hsome := last_fde_some hmem
        rw [(hnone hfde).2 hfree] at hsome
        cases hsome
    obtain ⟨k,hk⟩ := hk
    obtain ⟨-,-,last,hlast,hget⟩ := h.tied i rec k hrec hk
    rw [hplace] at hlast
    refine ⟨rec,k,last,?_,hk,hget,hlast,h.origin rec (List.mem_of_getElem? hrec) k hk⟩
    dsimp only
    rw [List.filter_filter]
    apply filter_single hrec
    · simp [hplace, hk]
    · intro j other hother hp
      obtain ⟨hoplace,hstays⟩ : place other = funcPlace fde ∧
          (!isDwarf target other || other.fde.isSome) = true := by
        simpa only [Bool.and_eq_true, decide_eq_true_eq] using hp
      cases hofde : other.fde with
      | some l =>
        obtain ⟨hoslot,-⟩ := h.tied j other l hother hofde
        rw [hoplace, hslot] at hoslot
        exact (Option.some.inj hoslot).symm
      | none =>
        have hnot : isDwarf target other = false := by simpa [hofde] using hstays
        exact absurd (mem_covered.2
          ⟨other,h.untied other (List.mem_of_getElem? hother) hofde,hnot,hoplace⟩) hfree
  · intro p hp
    constructor
    · dsimp only
      have hsame : ∀ rec ∈ s.unwind.filter fun rec => place rec = p, rec.fde = none := by
        intro rec hrec
        obtain ⟨hmem,hplace⟩ := List.mem_filter.1 hrec
        obtain ⟨i,hi⟩ := List.getElem?_of_mem hmem
        cases hfde : rec.fde with
        | none => rfl
        | some k =>
          obtain ⟨-,hfree,-⟩ := h.tied i rec k hi hfde
          exact absurd (of_decide_eq_true hplace ▸ hp) hfree
      calc ((s.unwind.filter fun rec => !isDwarf target rec || rec.fde.isSome).filter
            fun rec => place rec = p)
          = (s.unwind.filter fun rec => place rec = p).filter
              fun rec => !isDwarf target rec || rec.fde.isSome := by
            rw [List.filter_filter, List.filter_filter]
            exact List.filter_congr fun rec _ => Bool.and_comm _ _
        _ = (s.unwind.filter fun rec => place rec = p).filter fun rec => !isDwarf target rec :=
            List.filter_congr fun rec hrec => by rw [hsame rec hrec]; simp
        _ = (compact.filter fun rec => place rec = p).filter fun rec => !isDwarf target rec := by
            rw [h.covered p hp]
        _ = compact.filter fun rec => place rec = p && !isDwarf target rec := by
            rw [List.filter_filter]
            exact List.filter_congr fun rec _ => Bool.and_comm _ _
    · intro fde hfde
      dsimp only at hfde
      rw [h.fdes] at hfde
      obtain ⟨raw,hraw,rfl⟩ := List.mem_map.1 hfde
      have hfree := (List.mem_filter.1 hraw).2
      rintro rfl
      simp only [decide_not, Bool.not_eq_true', decide_eq_false_iff_not] at hfree
      exact hfree hp
  · intro rec hrec hdwarf
    have hstays := (List.mem_filter.1 hrec).2
    simpa [hdwarf] using hstays

/-- An order of the records that keeps those of a function in theirs keeps them
joined. -/
theorem Joined.reorder {info : UnwindInfo} (h : Joined target compact fdes info)
    {unwind : List UnwindRecord} (hmem : ∀ rec ∈ unwind, rec ∈ info.unwind)
    (hplace : ∀ p, (unwind.filter fun rec => place rec = p) =
      info.unwind.filter fun rec => place rec = p) :
    Joined target compact fdes { info with unwind } where
  one fde hfde hcode hfree := by
    obtain ⟨rec,k,last,hone,hrest⟩ := h.one fde hfde hcode hfree
    exact ⟨rec,k,last,(hplace _).trans hone,hrest⟩
  covered p hp := ⟨(hplace p).trans (h.covered p hp).1,(h.covered p hp).2⟩
  dwarf rec hrec := h.dwarf rec (hmem rec hrec)

end Stay

/-! ## The order of the records -/

/-- A record without its FDE. -/
def unlinked (rec : UnwindRecord) : UnwindRecord := { rec with fde := none }

/-- Adding FDEs keeps the records in their order, new ones at the end in that of
the FDEs. -/
theorem add_fdes_order (target : Target) (compact : List UnwindRecord)
    (fdes : List (RawFde × FdeFunction)) (keepAllFdes : Bool) :
    ∃ new : List (RawFde × FdeFunction), new.Sublist fdes ∧
      (addFdes target compact fdes keepAllFdes).unwind.map unlinked =
        compact.map unlinked ++ new.map fun fde => unlinked (fdeOnlyRecord fde 0) := by
  have hfold : ∀ (fdes : List (RawFde × FdeFunction)) (s : Adding),
      ∃ new : List (RawFde × FdeFunction), new.Sublist fdes ∧
      (fdes.foldl (addFde (coveredBy target compact) keepAllFdes) s).unwind.map unlinked =
        s.unwind.map unlinked ++ new.map fun fde => unlinked (fdeOnlyRecord fde 0) := by
    intro fdes
    induction fdes with
    | nil => exact fun s => ⟨[],List.nil_sublist _,(List.append_nil _).symm⟩
    | cons fde fdes ih =>
      intro s
      obtain ⟨new,hnew,heq⟩ := ih (addFde (coveredBy target compact) keepAllFdes s fde)
      rw [List.foldl_cons, heq]
      have hstep : (addFde (coveredBy target compact) keepAllFdes s fde).unwind.map unlinked =
            s.unwind.map unlinked ∨
          (addFde (coveredBy target compact) keepAllFdes s fde).unwind.map unlinked =
            s.unwind.map unlinked ++ [unlinked (fdeOnlyRecord fde 0)] := by
        simp only [addFde]
        split
        · exact Or.inl rfl
        · split
          · exact Or.inl rfl
          · split
            · left
              apply List.ext_getElem?
              intro j
              rw [List.getElem?_map, List.getElem?_map, List.getElem?_modify, Option.map_eq_map,
                Option.map_map]
              congr 1
              funext rec
              simp only [Function.comp_apply]
              split <;> rfl
            · split
              · exact Or.inl rfl
              · right
                rw [List.map_append]
                rfl
      rcases hstep with hstep | hstep
      · exact ⟨new,hnew.cons _,by rw [hstep]⟩
      · refine ⟨fde::new,hnew.cons_cons _,?_⟩
        rw [hstep, List.append_assoc]
        rfl
  exact hfold fdes _

/-! ## An object -/

/-- An object's tables, which are read without an error. -/
structure Tables {T : Type} (target : Target) (obj : StagedObject)
    (relocs : ℕ → List (Arch.Reloc T)) where
  compact : List UnwindRecord
  cies : List CieRecord
  fdes : List (RawFde × FdeFunction)
  compactRead : compactRecords obj relocs = some compact
  fdesRead :
    match ehFrameSection obj with
    | some hdr => ∃ raw, readEhframe target obj hdr = some (cies,raw) ∧
        readFunctions obj cies raw = some fdes
    | none => cies = [] ∧ fdes = []

section Object
variable {T : Type} {target : Target} {obj : StagedObject} {relocs : ℕ → List (Arch.Reloc T)}

theorem read_tables (tables : Tables target obj relocs) :
    readUnwindInfo target obj relocs .uncovered = some {
      unwind := (addFdes target tables.compact tables.fdes false).unwind.filter fun rec =>
        !isDwarf target rec || rec.fde.isSome
      cies := tables.cies
      fdes := (addFdes target tables.compact tables.fdes false).fdes } := by
  have hfdes := tables.fdesRead
  rw [readUnwindInfo, tables.compactRead]
  simp only [Option.bind_eq_bind, Option.bind_some, reduceCtorEq, if_false]
  cases hhdr : ehFrameSection obj with
  | some hdr =>
    rw [hhdr] at hfdes
    obtain ⟨raw,hread,hfunctions⟩ := hfdes
    simp only [parseEhframe, hread, Option.bind_eq_bind, Option.bind_some, hfunctions,
      decide_false]
    rfl
  | none =>
    rw [hhdr] at hfdes
    obtain ⟨hcies,hnone⟩ := hfdes
    rw [hcies, hnone]
    rfl

/-- What is read without an error has tables. -/
theorem tables_of_read {info : UnwindInfo}
    (h : readUnwindInfo target obj relocs .uncovered = some info) :
    Nonempty (Tables target obj relocs) := by
  simp only [readUnwindInfo, Option.bind_eq_bind, Option.bind_eq_some_iff, reduceCtorEq,
    if_false] at h
  obtain ⟨compact,hcompact,h⟩ := h
  cases hhdr : ehFrameSection obj with
  | some hdr =>
    rw [hhdr] at h
    simp only [parseEhframe, Option.bind_eq_bind, Option.bind_eq_some_iff] at h
    obtain ⟨-,⟨⟨cies,raw⟩,hread,fdes,hfdes,-⟩,-⟩ := h
    refine ⟨⟨compact,cies,fdes,hcompact,?_⟩⟩
    rw [hhdr]
    exact ⟨raw,hread,hfdes⟩
  | none =>
    refine ⟨⟨compact,[],[],hcompact,?_⟩⟩
    rw [hhdr]
    exact ⟨rfl,rfl⟩

theorem read_joined (tables : Tables target obj relocs) {info : UnwindInfo}
    (h : readUnwindInfo target obj relocs .uncovered = some info) :
    Joined target tables.compact tables.fdes info := by
  rw [read_tables tables] at h
  cases h
  exact tied_joined (tied_run fun rec hrec =>
    (compact_records_entered tables.compactRead rec hrec).1) _

theorem read_fde_lt {cies : List CieRecord} {fde : RawFde} {f : FdeFunction}
    (h : readFde obj cies fde = some f) : f.isec < obj.isecs.length := by
  simp only [readFde, Option.bind_eq_bind, Option.bind_eq_some_iff] at h
  obtain ⟨cie,-,size,-,funcAddr,-,codeLen,-,⟨isec,off⟩,hfind,sect,-,h⟩ := h
  have hisec : f.isec = isec := by
    split at h
    · obtain ⟨lsda,-,h⟩ := Option.bind_eq_some_iff.1 h
      cases h
      rfl
    · obtain ⟨lsda,-,h⟩ := Option.bind_eq_some_iff.1 h
      cases h
      rfl
  rw [hisec]
  exact find_subsec_lt hfind

theorem read_functions_lt {cies : List CieRecord} {raw : List RawFde}
    {fdes : List (RawFde × FdeFunction)} (h : readFunctions obj cies raw = some fdes) :
    ∀ fde ∈ fdes, fde.1 ∈ raw ∧ fde.2.isec < obj.isecs.length := by
  intro fde hfde
  obtain ⟨r,hr,hread⟩ := Lists.mapM_mem h fde hfde
  obtain ⟨f,hf,rfl⟩ := Option.map_eq_some_iff.1 hread
  exact ⟨hr,read_fde_lt hf⟩

/-- The records are of the object's functions, and those with an FDE point at one
of their subsection. -/
structure Known (n : ℕ) (unwind : List UnwindRecord) (fdes : List FdeRecord) : Prop where
  isec : ∀ rec ∈ unwind, rec.isec < n
  fde : ∀ rec ∈ unwind, ∀ k, rec.fde = some k →
    ∃ fde, fdes[k]? = some fde ∧ fde.isec = rec.isec

theorem Known.keep {n : ℕ} {unwind : List UnwindRecord} {fdes : List FdeRecord}
    (h : Known n unwind fdes) (more : List FdeRecord) : Known n unwind (fdes ++ more) := by
  constructor
  · exact h.isec
  · intro rec hrec k hk
    obtain ⟨fde,hget,hisec⟩ := h.fde rec hrec k hk
    refine ⟨fde,?_,hisec⟩
    rw [List.getElem?_append_left (List.getElem?_eq_some_iff.1 hget).1]
    exact hget

theorem Known.subset {n : ℕ} {unwind unwind' : List UnwindRecord} {fdes : List FdeRecord}
    (h : Known n unwind fdes) (hsub : ∀ rec ∈ unwind', rec ∈ unwind) : Known n unwind' fdes where
  isec rec hrec := h.isec rec (hsub rec hrec)
  fde rec hrec := h.fde rec (hsub rec hrec)

/-- The record that a function's FDEs belong to is of the function. -/
def Slotted (s : Adding) : Prop :=
  ∀ p i, s.dwarfRecs p = some i → ∃ rec, s.unwind[i]? = some rec ∧ place rec = p

theorem add_fde_known {covered : List Place} {keepAllFdes : Bool} {s : Adding}
    {fde : RawFde × FdeFunction} {n : ℕ} (h : Known n s.unwind s.fdes) (hslot : Slotted s)
    (hfde : fde.2.isec < n) :
    Known n (addFde covered keepAllFdes s fde).unwind (addFde covered keepAllFdes s fde).fdes ∧
    Slotted (addFde covered keepAllFdes s fde) := by
  have hnew : (s.fdes ++ [fdeRecord fde])[s.fdes.length]? = some (fdeRecord fde) :=
    List.getElem?_concat_length
  have hmore := h.keep [fdeRecord fde]
  simp only [addFde]
  split
  · exact ⟨h,hslot⟩
  · split
    · exact ⟨hmore,hslot⟩
    · split
      · next i hi =>
        obtain ⟨own,hown,hplace⟩ := hslot _ i hi
        have hget := modify_get hown fun rec => { rec with fde := some s.fdes.length }
        refine ⟨⟨?_,?_⟩,?_⟩
        · intro rec hrec
          obtain ⟨j,hj⟩ := List.getElem?_of_mem hrec
          rw [hget] at hj
          split at hj
          · cases hj
            exact h.isec own (List.mem_of_getElem? hown)
          · exact h.isec rec (List.mem_of_getElem? hj)
        · intro rec hrec k hk
          obtain ⟨j,hj⟩ := List.getElem?_of_mem hrec
          rw [hget] at hj
          split at hj
          · cases hj
            cases hk
            exact ⟨_,hnew,(congrArg Prod.fst hplace).symm⟩
          · exact hmore.fde rec (List.mem_of_getElem? hj) k hk
        · intro p j hp
          obtain ⟨rec,hrec,hrplace⟩ := hslot p j hp
          dsimp only
          rw [hget]
          split
          · next hij =>
            rw [← hij, hown] at hrec
            cases hrec
            exact ⟨_,rfl,hrplace⟩
          · exact ⟨rec,hrec,hrplace⟩
      · split
        · exact ⟨hmore,hslot⟩
        · refine ⟨⟨?_,?_⟩,?_⟩
          · intro rec hrec
            rcases List.mem_append.1 hrec with hrec | hrec
            · exact h.isec rec hrec
            · rw [List.mem_singleton.1 hrec]
              exact hfde
          · intro rec hrec k hk
            rcases List.mem_append.1 hrec with hrec | hrec
            · exact hmore.fde rec hrec k hk
            · obtain rfl := List.mem_singleton.1 hrec
              cases hk
              exact ⟨_,hnew,rfl⟩
          · intro p j hp
            dsimp only at hp ⊢
            by_cases hpe : p = funcPlace fde
            · rw [hpe, Function.update_self] at hp
              cases hp
              exact ⟨_,List.getElem?_concat_length,hpe.symm⟩
            · rw [Function.update_of_ne hpe] at hp
              obtain ⟨rec,hrec,hrplace⟩ := hslot p j hp
              refine ⟨rec,?_,hrplace⟩
              rw [List.getElem?_append_left (List.getElem?_eq_some_iff.1 hrec).1]
              exact hrec

theorem add_fdes_known {keepAllFdes : Bool} {unwind : List UnwindRecord}
    {fdes : List (RawFde × FdeFunction)} {n : ℕ} (hunwind : Known n unwind [])
    (hfdes : ∀ fde ∈ fdes, fde.2.isec < n) :
    Known n (addFdes target unwind fdes keepAllFdes).unwind
      (addFdes target unwind fdes keepAllFdes).fdes := by
  have hfold : ∀ (fdes : List (RawFde × FdeFunction)) (s : Adding),
      (∀ fde ∈ fdes, fde.2.isec < n) → Known n s.unwind s.fdes → Slotted s →
      Known n (fdes.foldl (addFde (coveredBy target unwind) keepAllFdes) s).unwind
        (fdes.foldl (addFde (coveredBy target unwind) keepAllFdes) s).fdes := by
    intro fdes
    induction fdes with
    | nil => exact fun _ _ hs _ => hs
    | cons fde fdes ih =>
      intro s hfdes hs hslot
      rw [List.forall_mem_cons] at hfdes
      obtain ⟨hs,hslot⟩ := add_fde_known hs hslot hfdes.1
      exact ih _ hfdes.2 hs hslot
  apply hfold fdes _ hfdes hunwind
  intro p i hp
  obtain ⟨rec,hrec,hplace,-⟩ := dwarf_records_some hp
  exact ⟨rec,hrec,hplace⟩

/-- An object's records are of its functions, whatever FDEs are kept. -/
theorem read_unwind_known {keptFdes : KeptFdes} {info : UnwindInfo}
    (h : readUnwindInfo target obj relocs keptFdes = some info) :
    Known obj.isecs.length info.unwind info.fdes := by
  simp only [readUnwindInfo, Option.bind_eq_bind, Option.bind_eq_some_iff] at h
  obtain ⟨compact,hcompact,h⟩ := h
  have hstart : Known obj.isecs.length compact [] := by
    constructor
    · exact fun rec hrec => (compact_records_entered hcompact rec hrec).2
    · intro rec hrec k hk
      rw [(compact_records_entered hcompact rec hrec).1] at hk
      cases hk
  split at h
  · cases h
    exact hstart
  · split at h
    · obtain ⟨read,hread,h⟩ := Option.bind_eq_some_iff.1 h
      cases h
      simp only [parseEhframe, Option.bind_eq_bind, Option.bind_eq_some_iff] at hread
      obtain ⟨⟨cies,raw⟩,-,fdes,hfdes,hread⟩ := hread
      cases hread
      exact (add_fdes_known hstart fun fde hfde => (read_functions_lt hfdes fde hfde).2).subset
        fun rec hrec => (List.mem_filter.1 hrec).1
    · cases h
      exact hstart.subset fun rec hrec => (List.mem_filter.1 hrec).1

end Object

end MoldMacho.ParseUnwind
