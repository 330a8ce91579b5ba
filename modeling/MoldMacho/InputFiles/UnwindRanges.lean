import MoldMacho.InputFiles.FdeCies
import MoldMacho.InputFiles.UnwindRecords

/-!
# The ranges of the unwind records

Grouping gathers each subsection's records into one run, in their order. In the
link's arena a live subsection's range is exactly its records, whatever objects
are added and whatever dies.
-/

set_option autoImplicit false

namespace MoldMacho.ParseUnwind
open MoldMacho.InputSections MoldMacho.Macho MoldMacho.EhFrame
open Bytes

/-! ## The runs -/

section Runs

/-- The ranks told so far tell subsections apart. -/
structure Ranked (s : Ranking) : Prop where
  below : ∀ i r, s.rank i = some r → r < s.runs
  distinct : ∀ i j r, s.rank i = some r → s.rank j = some r → i = j

theorem rank_run_ranked {s : Ranking} (h : Ranked s) (isec : ℕ) : Ranked (rankRun s isec) := by
  unfold rankRun
  split
  · next hnone =>
    constructor
    · intro i r hr
      dsimp only at hr ⊢
      by_cases hi : i = isec
      · rw [hi, Function.update_self] at hr
        cases hr
        exact Nat.lt_succ_self _
      · rw [Function.update_of_ne hi] at hr
        exact Nat.lt_succ_of_lt (h.below i r hr)
    · intro i j r hi hj
      dsimp only at hi hj
      by_cases hie : i = isec <;> by_cases hje : j = isec
      · rw [hie, hje]
      · rw [hie, Function.update_self] at hi
        cases hi
        rw [Function.update_of_ne hje] at hj
        exact absurd (h.below j _ hj) (Nat.lt_irrefl _)
      · rw [hje, Function.update_self] at hj
        cases hj
        rw [Function.update_of_ne hie] at hi
        exact absurd (h.below i _ hi) (Nat.lt_irrefl _)
      · rw [Function.update_of_ne hie] at hi
        rw [Function.update_of_ne hje] at hj
        exact h.distinct i j r hi hj
  · exact ⟨h.below,h.distinct⟩

theorem rank_run_kept {s : Ranking} {isec i r : ℕ} (h : s.rank i = some r) :
    (rankRun s isec).rank i = some r := by
  unfold rankRun
  split
  · next hnone =>
    have hne : i ≠ isec := by
      rintro rfl
      rw [hnone] at h
      cases h
    dsimp only
    rw [Function.update_of_ne hne]
    exact h
  · exact h

theorem rank_run_self (s : Ranking) (isec : ℕ) : ∃ r, (rankRun s isec).rank isec = some r := by
  unfold rankRun
  split
  · exact ⟨_,Function.update_self ..⟩
  · next r hr => exact ⟨r,hr⟩

/-- The ranks at the end: kept, distinct, and given to every record's
subsection. -/
theorem rank_runs_ranked {last : Option ℕ} {recs : List UnwindRecord} {s : Ranking} (h : Ranked s)
    (hlast : ∀ i, last = some i → (s.rank i).isSome = true) :
    Ranked (rankRuns last recs s) ∧
    (∀ i r, s.rank i = some r → (rankRuns last recs s).rank i = some r) ∧
    ∀ rec ∈ recs, ((rankRuns last recs s).rank rec.isec).isSome = true := by
  induction recs generalizing last s with
  | nil => exact ⟨h,fun _ _ hr => hr,by simp⟩
  | cons rec recs ih =>
    rw [rankRuns]
    by_cases hrec : last = some rec.isec
    · rw [if_pos hrec]
      obtain ⟨hranked,hkept,hall⟩ := ih h (hrec ▸ hlast)
      refine ⟨hranked,hkept,?_⟩
      rw [List.forall_mem_cons]
      refine ⟨?_,hall⟩
      obtain ⟨r,hr⟩ := Option.isSome_iff_exists.1 (hlast _ hrec)
      rw [hkept _ r hr]
      rfl
    · rw [if_neg hrec]
      obtain ⟨r,hr⟩ := rank_run_self s rec.isec
      have hself : ∀ i, some rec.isec = some i → ((rankRun s rec.isec).rank i).isSome = true := by
        rintro i ⟨⟩
        rw [hr]
        rfl
      obtain ⟨hranked,hkept,hall⟩ := ih (rank_run_ranked h rec.isec) hself
      refine ⟨hranked,fun i r hi => hkept i r (rank_run_kept hi),?_⟩
      rw [List.forall_mem_cons]
      refine ⟨?_,hall⟩
      rw [hkept _ r hr]
      rfl

/-- Records found grouped stand together, and those of a subsection seen before
only continue its run. -/
theorem rank_runs_grouped {last : Option ℕ} {recs : List UnwindRecord} {s : Ranking}
    (hlast : ∀ i, last = some i → (s.rank i).isSome = true)
    (h : (rankRuns last recs s).grouped = true) :
    s.grouped = true ∧ KeyRuns.Together UnwindRecord.isec recs ∧
    ∀ before rec after, recs = before ++ rec::after → (s.rank rec.isec).isSome = true →
      last = some rec.isec ∧ ∀ other ∈ before, other.isec = rec.isec := by
  induction recs generalizing last s with
  | nil =>
    refine ⟨h,?_,by simp⟩
    intro a b c hsub
    cases hsub
  | cons first recs ih =>
    rw [rankRuns] at h
    let next := if last = some first.isec then s else rankRun s first.isec
    have hnext : (next.rank first.isec).isSome = true ∧
        (∀ i, (s.rank i).isSome = true → (next.rank i).isSome = true) ∧
        (next.grouped = true → s.grouped = true ∧
          ((s.rank first.isec).isSome = true → last = some first.isec)) := by
      by_cases hfirst : last = some first.isec
      · simp only [next, if_pos hfirst]
        exact ⟨hlast _ hfirst,fun _ hi => hi,fun hg => ⟨hg,fun _ => hfirst⟩⟩
      · simp only [next, if_neg hfirst]
        obtain ⟨r,hr⟩ := rank_run_self s first.isec
        refine ⟨by rw [hr]; rfl,?_,?_⟩
        · intro i hi
          obtain ⟨r,hr⟩ := Option.isSome_iff_exists.1 hi
          rw [rank_run_kept hr]
          rfl
        · intro hg
          unfold rankRun at hg
          split at hg
          · next hnone => exact ⟨hg,fun hsome => by rw [hnone] at hsome; cases hsome⟩
          · cases hg
    obtain ⟨hself,hkept,hstart⟩ := hnext
    obtain ⟨hgrouped,htogether,hseen⟩ := ih (fun i hi => by cases hi; exact hself) h
    obtain ⟨hs,hnew⟩ := hstart hgrouped
    refine ⟨hs,?_,?_⟩
    · intro a b c hsub hac
      rcases List.sublist_cons_iff.1 hsub with hsub | ⟨r,hr,hsub⟩
      · exact htogether a b c hsub hac
      · obtain ⟨rfl,rfl⟩ := List.cons.inj hr
        obtain ⟨l,l',rfl,hb,hc⟩ := List.cons_sublist_iff.1 hsub
        obtain ⟨x,y,rfl⟩ := List.append_of_mem (List.singleton_sublist.1 hc)
        have hall := hseen (l ++ x) c y (by rw [List.append_assoc]) (hac ▸ hself)
        exact (hall.2 b (List.mem_append_left _ hb)).trans hac.symm
    · intro before rec after heq hrank
      cases before with
      | nil =>
        obtain ⟨rfl,-⟩ := List.cons.inj heq
        exact ⟨hnew hrank,by simp⟩
      | cons other before =>
        obtain ⟨rfl,hrecs⟩ := List.cons.inj heq
        obtain ⟨hsame,hbefore⟩ := hseen before rec after hrecs (hkept _ hrank)
        have hisec : first.isec = rec.isec := Option.some.inj hsame
        rw [← hisec] at hrank hbefore ⊢
        exact ⟨hnew hrank,List.forall_mem_cons.2 ⟨rfl,hbefore⟩⟩

/-- The records of each subsection end up in one run, in their order. -/
theorem group_together (unwind : List UnwindRecord) :
    KeyRuns.Together UnwindRecord.isec (groupUnwindRecords unwind) := by
  simp only [groupUnwindRecords]
  split
  · next h => exact (rank_runs_grouped (fun _ h => by cases h) h).2.1
  · have hstart : Ranked {} := ⟨fun _ _ h => (by cases h),fun _ _ _ h => (by cases h)⟩
    obtain ⟨hranked,-,hall⟩ : Ranked (rankRuns none unwind {}) ∧ _ ∧
        ∀ rec ∈ unwind, ((rankRuns none unwind {}).rank rec.isec).isSome = true :=
      rank_runs_ranked hstart (fun _ h => by cases h)
    let rank (rec : UnwindRecord) : ℕ := ((rankRuns none unwind {}).rank rec.isec).getD noIsec
    have hsorted : KeyRuns.Together rank (StableSort.sortBy rank unwind) :=
      KeyRuns.sort_together unwind
    intro a b c hsub hac
    have ha := StableSort.mem_sort.1 (hsub.subset (show a ∈ [a,b,c] by simp))
    have hb := StableSort.mem_sort.1 (hsub.subset (show b ∈ [a,b,c] by simp))
    have hrank : rank b = rank a := hsorted a b c hsub (by simp only [rank, hac])
    obtain ⟨r,hr⟩ := Option.isSome_iff_exists.1 (hall a ha)
    obtain ⟨r',hr'⟩ := Option.isSome_iff_exists.1 (hall b hb)
    simp only [rank, hr, hr', Option.getD_some] at hrank
    exact hranked.distinct _ _ r (hr'.trans (congrArg some hrank)) hr

theorem group_filter (unwind : List UnwindRecord) {p : UnwindRecord → Bool}
    (hp : ∀ a b, p a = true → p b = true → a.isec = b.isec) :
    (groupUnwindRecords unwind).filter p = unwind.filter p := by
  simp only [groupUnwindRecords]
  split
  · rfl
  · apply KeyRuns.sort_filter
    intro a _ b _ ha hb
    rw [hp a b ha hb]

theorem mem_group {unwind : List UnwindRecord} {rec : UnwindRecord} :
    rec ∈ groupUnwindRecords unwind ↔ rec ∈ unwind := by
  simp only [groupUnwindRecords]
  split
  · rfl
  · exact StableSort.mem_sort

end Runs

/-! ## The ranges -/

/-- A subsection's range holds exactly the records of its index. -/
structure RangeOf (recs : List UnwindRecord) (i : ℕ) (isec : InputSection) : Prop where
  count : isec.nunwind = (recs.filter fun rec => rec.isec = i).length
  items : (recs.drop isec.unwindOffset).take isec.nunwind = recs.filter fun rec => rec.isec = i

theorem filter_others {recs : List UnwindRecord} {i : ℕ} (h : ∀ rec ∈ recs, rec.isec ≠ i) :
    (recs.filter fun rec => rec.isec = i) = [] := by
  rw [List.filter_eq_nil_iff]
  intro rec hrec
  simpa using h rec hrec

theorem range_of_empty {recs : List UnwindRecord} {i : ℕ} {isec : InputSection}
    (hcount : isec.nunwind = 0) (hnone : ∀ rec ∈ recs, rec.isec ≠ i) : RangeOf recs i isec := by
  have hfilter := filter_others hnone
  constructor
  · rw [hcount, hfilter]
    rfl
  · rw [hcount, hfilter, List.take_zero]

/-- Records of others after it leave a range as it is. -/
theorem RangeOf.append {recs more : List UnwindRecord} {i : ℕ} {isec : InputSection}
    (h : RangeOf recs i isec) (hmore : ∀ rec ∈ more, rec.isec ≠ i) :
    RangeOf (recs ++ more) i isec := by
  have hfilter : ((recs ++ more).filter fun rec => rec.isec = i) =
      recs.filter fun rec => rec.isec = i := by
    rw [List.filter_append, filter_others hmore, List.append_nil]
  constructor
  · rw [hfilter]
    exact h.count
  · rw [hfilter, ← h.items]
    by_cases hzero : isec.nunwind = 0
    · rw [hzero, List.take_zero, List.take_zero]
    · have hlen := congrArg List.length h.items
      rw [← h.count, List.length_take, List.length_drop] at hlen
      rw [List.drop_append_of_le_length (by omega),
        List.take_append_of_le_length (by rw [List.length_drop]; omega)]

section Set
variable {isecs : List InputSection} {base : ℕ} {unwind : List UnwindRecord}

theorem set_ranges_length : (setUnwindRanges isecs base unwind).length = isecs.length := by
  rw [setUnwindRanges]
  generalize KeyRuns.runRanges UnwindRecord.isec base _ = ranges
  induction ranges generalizing isecs with
  | nil => rfl
  | cons e ranges ih =>
    rw [List.foldl_cons, ih, List.length_modify]

/-- Setting the ranges of records whose subsections' stand together gives each
subsection with records its own, and leaves the others. -/
theorem set_ranges_get (h : KeyRuns.Together UnwindRecord.isec unwind) (base : ℕ) {i : ℕ}
    {isec : InputSection} (hisec : isecs[i]? = some isec) :
    ((∀ rec ∈ unwind, rec.isec ≠ i) ∧ (setUnwindRanges isecs base unwind)[i]? = some isec) ∨
    ∃ isec', (setUnwindRanges isecs base unwind)[i]? = some isec' ∧
      isec'.isAlive = isec.isAlive ∧ ∃ off, isec'.unwindOffset = base + off ∧
        RangeOf unwind i { isec' with unwindOffset := off } := by
  have hapart := KeyRuns.groups_apart h
  rw [setUnwindRanges, Lists.foldl_modify, hisec, Option.map_some]
  by_cases hany : ∃ rec ∈ unwind, rec.isec = i
  · right
    obtain ⟨rec,hrec,hi⟩ := hany
    rw [← Counted.groups_flatten UnwindRecord.isec unwind] at hrec
    obtain ⟨e,he,hkey⟩ := KeyRuns.range_exists hapart base hrec
    have hei : e.1 = i := hkey.trans hi
    have hnodup := KeyRuns.ranges_nodup hapart base
    obtain ⟨hle,hcount,hitems⟩ := KeyRuns.range_items hapart he
    rw [Counted.groups_flatten, hei] at hcount hitems
    refine ⟨{ isec with unwindOffset := e.2.1, nunwind := e.2.2 },?_,rfl,e.2.1-base,?_,hcount,hitems⟩
    · rw [← hei, Lists.foldl_change_once (List.Nodup.of_map _ hnodup) _ he]
      exact fun j hj hje => List.inj_on_of_nodup_map hnodup hj he hje
    · dsimp only
      omega
  · left
    have hnone : ∀ rec ∈ unwind, rec.isec ≠ i := fun rec hrec hi => hany ⟨rec,hrec,hi⟩
    refine ⟨hnone,?_⟩
    rw [Lists.foldl_change_none]
    intro e he hei
    obtain ⟨rec,hrec,hkey⟩ := KeyRuns.range_key he
    rw [Counted.groups_flatten] at hrec
    exact hnone rec hrec (hkey.trans hei)

end Set

/-! ## The link -/

/-- The records of a subsection. -/
def recordsOf (ctx : Context) (i : ℕ) : List UnwindRecord :=
  ctx.unwindRecords.filter fun rec => rec.isec = i

/-- A record and the FDE it points at. -/
def withFde (ctx : Context) (rec : UnwindRecord) : UnwindRecord × Option FdeRecord :=
  ({ rec with fde := none },rec.fde.bind fun k => ctx.fdes[k]?)

/-- Each live subsection's range is exactly its records. -/
structure Ranged (ctx : Context) : Prop where
  together : KeyRuns.Together UnwindRecord.isec ctx.unwindRecords
  known : Known ctx.isecs.length ctx.unwindRecords ctx.fdes
  range : ∀ (i : ℕ) isec, ctx.isecs[i]? = some isec → isec.isAlive = true →
    RangeOf ctx.unwindRecords i isec

/-- The records of the subsections that are still alive are those they had, in
their order, with the FDEs they had. -/
structure Stays (ctx ctx' : Context) : Prop where
  grows : ctx.isecs.length ≤ ctx'.isecs.length
  alive : ∀ i < ctx.isecs.length, isAliveAt ctx'.isecs i = true → isAliveAt ctx.isecs i = true
  records : ∀ i < ctx.isecs.length, isAliveAt ctx'.isecs i = true →
    (recordsOf ctx' i).map (withFde ctx') = (recordsOf ctx i).map (withFde ctx)

theorem Stays.trans {a b c : Context} (h : Stays a b) (h' : Stays b c) : Stays a c where
  grows := h.grows.trans h'.grows
  alive i hi halive := h.alive i hi (h'.alive i (hi.trans_le h.grows) halive)
  records i hi halive :=
    (h'.records i (hi.trans_le h.grows) halive).trans
      (h.records i hi (h'.alive i (hi.trans_le h.grows) halive))

theorem ranged_start : Ranged {} where
  together := by
    intro a b c hsub
    cases hsub
  known := ⟨by simp,by simp⟩
  range i isec hi := by simp at hi

section Integrate
variable {ctx : Context} {obj : StagedObject} {info : UnwindInfo} {file : ObjectFile}

theorem integrate_length :
    (integrateObject ctx obj info file).isecs.length = ctx.isecs.length + obj.isecs.length := by
  simp [integrateObject, set_ranges_length]

/-- A new object's records leave those of the others as they are. -/
theorem integrate_records_old {i : ℕ} (hi : i < ctx.isecs.length) :
    recordsOf (integrateObject ctx obj info file) i = recordsOf ctx i := by
  simp only [recordsOf, integrateObject]
  conv_rhs => rw [← List.append_nil (List.filter _ _)]
  rw [List.filter_append]
  congr 1
  apply filter_others
  intro rec hrec
  obtain ⟨old,-,rfl⟩ := List.mem_map.1 hrec
  simp only [rebaseRecord]
  omega

theorem filter_rebased {recs unwind : List UnwindRecord} {n m : ℕ} {syms : List ℕ}
    (hrecs : ∀ rec ∈ recs, rec.isec < n) {j : ℕ} :
    ((recs ++ unwind.map (rebaseRecord n m syms)).filter fun rec => rec.isec = n+j) =
      (unwind.filter fun rec => rec.isec = j).map (rebaseRecord n m syms) := by
  rw [List.filter_append, filter_others, List.nil_append, List.filter_map]
  · congr 1
    apply List.filter_congr
    intro rec _
    simp only [Function.comp_apply, rebaseRecord]
    congr 1
    exact propext (by omega)
  · intro rec hrec
    have hlt := hrecs rec hrec
    omega

/-- The range that an object gives a subsection, moved to the link's records. -/
theorem RangeOf.rebase {recs unwind : List UnwindRecord} {n m : ℕ} {syms : List ℕ}
    (hrecs : ∀ rec ∈ recs, rec.isec < n) {j off : ℕ} {isec isec' : InputSection}
    (h : RangeOf unwind j { isec with unwindOffset := off })
    (hoff : isec'.unwindOffset = recs.length + off) (hcount : isec'.nunwind = isec.nunwind) :
    RangeOf (recs ++ unwind.map (rebaseRecord n m syms)) (n+j) isec' := by
  have hisec : isec.nunwind = (unwind.filter fun rec => rec.isec = j).length := h.count
  have hitems : (unwind.drop off).take isec.nunwind = unwind.filter fun rec => rec.isec = j :=
    h.items
  constructor
  · rw [filter_rebased hrecs, List.length_map, hcount, hisec]
  · rw [filter_rebased hrecs, hcount, hoff, ← List.drop_drop, List.drop_left' rfl, ← List.map_drop,
      ← List.map_take, hitems]

/-- A new subsection's records are the object's. -/
theorem integrate_records_new (h : Ranged ctx) (j : ℕ) :
    recordsOf (integrateObject ctx obj info file) (ctx.isecs.length+j) =
      (info.unwind.filter fun rec => rec.isec = j).map
        (rebaseRecord ctx.isecs.length ctx.fdes.length file.symbols) := by
  exact filter_rebased h.known.isec

theorem integrate_known (h : Ranged ctx) (hknown : Known obj.isecs.length info.unwind info.fdes) :
    Known (integrateObject ctx obj info file).isecs.length
      (integrateObject ctx obj info file).unwindRecords
      (integrateObject ctx obj info file).fdes := by
  rw [integrate_length]
  constructor
  · intro rec hrec
    rcases List.mem_append.1 hrec with hrec | hrec
    · have hlt := h.known.isec rec hrec
      omega
    · obtain ⟨old,hold,rfl⟩ := List.mem_map.1 hrec
      have hlt := hknown.isec old hold
      simp only [rebaseRecord]
      omega
  · intro rec hrec k hk
    rcases List.mem_append.1 hrec with hrec | hrec
    · exact (h.known.keep _).fde rec hrec k hk
    · obtain ⟨old,hold,rfl⟩ := List.mem_map.1 hrec
      obtain ⟨l,hl,rfl⟩ := Option.map_eq_some_iff.1 hk
      obtain ⟨fde,hget,hisec⟩ := hknown.fde old hold l hl
      refine ⟨rebaseFde ctx.isecs.length ctx.cies.length fde,?_,?_⟩
      · simp only [integrateObject]
        rw [List.getElem?_append_right (Nat.le_add_left _ _), Nat.add_sub_cancel, List.getElem?_map,
          hget]
        rfl
      · simp only [rebaseFde, rebaseRecord, hisec]

theorem integrate_ranged (h : Ranged ctx) (hfresh : ∀ isec ∈ obj.isecs, isec.nunwind = 0)
    (htogether : KeyRuns.Together UnwindRecord.isec info.unwind)
    (hknown : Known obj.isecs.length info.unwind info.fdes) :
    Ranged (integrateObject ctx obj info file) := by
  have hnew : ∀ rec ∈ info.unwind.map
      (rebaseRecord ctx.isecs.length ctx.fdes.length file.symbols), ctx.isecs.length ≤ rec.isec := by
    intro rec hrec
    obtain ⟨old,-,rfl⟩ := List.mem_map.1 hrec
    exact Nat.le_add_left _ _
  constructor
  · apply h.together.append (htogether.map _)
    · intro a ha b hb
      exact ((h.known.isec a ha).trans_le (hnew b hb)).ne
    · intro a _ b _
      exact Nat.add_right_cancel_iff
  · exact integrate_known h hknown
  · intro i isec hi halive
    by_cases hold : i < ctx.isecs.length
    · have hget : ctx.isecs[i]? = some isec := by
        rw [← hi]
        exact (List.getElem?_append_left hold).symm
      apply (h.range i isec hget halive).append
      exact fun rec hrec => (hold.trans_le (hnew rec hrec)).ne'
    · obtain ⟨j,rfl⟩ : ∃ j, i = ctx.isecs.length + j := ⟨i - ctx.isecs.length,by omega⟩
      simp only [integrateObject] at hi
      rw [List.getElem?_append_right (Nat.le_add_right _ _), Nat.add_sub_cancel_left,
        List.getElem?_map] at hi
      obtain ⟨set,hset,rfl⟩ := Option.map_eq_some_iff.1 hi
      have hlt := (List.getElem?_eq_some_iff.1 hset).1
      rw [set_ranges_length] at hlt
      rcases set_ranges_get htogether ctx.unwindRecords.length (List.getElem?_eq_getElem hlt) with
        ⟨hnone,hsame⟩ | ⟨isec',hsame,-,off,hoff,hrange⟩
      · obtain rfl := Option.some.inj (hset.symm.trans hsame)
        have hzero := hfresh obj.isecs[j] (List.getElem_mem hlt)
        refine range_of_empty hzero ?_
        intro rec hrec
        rcases List.mem_append.1 hrec with hrec | hrec
        · have hrlt := h.known.isec rec hrec
          omega
        · obtain ⟨old,hold,rfl⟩ := List.mem_map.1 hrec
          have hne := hnone old hold
          simp only [rebaseRecord]
          omega
      · obtain rfl := Option.some.inj (hset.symm.trans hsame)
        exact hrange.rebase h.known.isec hoff rfl

theorem alive_at_iff {isecs : List InputSection} {i : ℕ} :
    isAliveAt isecs i = true ↔ ∃ isec, isecs[i]? = some isec ∧ isec.isAlive = true := by
  rw [isAliveAt]
  cases isecs[i]? <;> simp

theorem integrate_stays (h : Ranged ctx) : Stays ctx (integrateObject ctx obj info file) := by
  have hget : ∀ i < ctx.isecs.length,
      (integrateObject ctx obj info file).isecs[i]? = ctx.isecs[i]? :=
    fun i hi => List.getElem?_append_left hi
  constructor
  · rw [integrate_length]
    exact Nat.le_add_right _ _
  · intro i hi halive
    rw [isAliveAt, hget i hi] at halive
    exact halive
  · intro i hi _
    rw [integrate_records_old hi]
    apply List.map_congr_left
    intro rec hrec
    rw [withFde, withFde]
    cases hk : rec.fde with
    | none => rfl
    | some k =>
      obtain ⟨fde,hfde,-⟩ := h.known.fde rec (List.mem_filter.1 hrec).1 k hk
      simp only [integrateObject, Option.bind_some]
      rw [List.getElem?_append_left (List.getElem?_eq_some_iff.1 hfde).1]

end Integrate

/-! ## Dead subsections -/

/-- A subsection that dies. -/
def kill (ctx : Context) (i : ℕ) : Context :=
  { ctx with isecs := ctx.isecs.modify i fun isec => { isec with isAlive := false } }

section Dead
variable {ctx : Context}

theorem kill_get {i j : ℕ} {isec : InputSection} (h : (kill ctx i).isecs[j]? = some isec)
    (halive : isec.isAlive = true) : ctx.isecs[j]? = some isec := by
  simp only [kill, List.getElem?_modify] at h
  obtain ⟨old,hold,heq⟩ := Option.map_eq_some_iff.1 h
  split at heq
  · rw [← heq] at halive
    cases halive
  · rw [hold, ← heq]

theorem kill_ranged (h : Ranged ctx) (i : ℕ) : Ranged (kill ctx i) where
  together := h.together
  known := by
    simp only [kill, List.length_modify]
    exact h.known
  range j isec hj halive := h.range j isec (kill_get hj halive) halive

theorem kill_stays (ctx : Context) (i : ℕ) : Stays ctx (kill ctx i) where
  grows := by simp [kill]
  alive j _ halive := by
    obtain ⟨isec,hj,halive⟩ := alive_at_iff.1 halive
    exact alive_at_iff.2 ⟨isec,kill_get hj halive,halive⟩
  records _ _ _ := rfl

/-- A record whose FDE has moved. -/
def relink (ctx : Context) (rec : UnwindRecord) : UnwindRecord :=
  { rec with fde := rec.fde.bind (fdeMap ctx) }

theorem remove_dead_records (ctx : Context) : (removeDeadUnwindInfo ctx).unwindRecords =
    (ctx.unwindRecords.filter fun rec => isAliveAt ctx.isecs rec.isec).map (relink ctx) := by
  simp only [removeDeadUnwindInfo]
  induction ctx.unwindRecords with
  | nil => rfl
  | cons rec recs ih =>
    cases halive : isAliveAt ctx.isecs rec.isec with
    | true =>
      rw [List.filterMap_cons_some (b := relink ctx rec) (by rw [if_pos halive]; rfl),
        List.filter_cons, if_pos halive, List.map_cons, ih]
    | false =>
      rw [List.filterMap_cons_none (by simp [halive]), List.filter_cons, halive, if_neg nofun, ih]

/-- The FDE of a live subsection is where its index now is. -/
theorem fde_map_get {k : ℕ} {fde : FdeRecord} (hfde : ctx.fdes[k]? = some fde)
    (halive : isAliveAt ctx.isecs fde.isec = true) :
    ∃ l, fdeMap ctx k = some l ∧ (removeDeadUnwindInfo ctx).fdes[l]? = some fde := by
  refine ⟨_,?_,Lists.filter_countP hfde halive⟩
  rw [fdeMap, hfde, Option.bind_some, if_pos halive]

theorem remove_dead_together (h : Ranged ctx) :
    KeyRuns.Together UnwindRecord.isec (removeDeadUnwindInfo ctx).unwindRecords := by
  rw [remove_dead_records]
  exact (h.together.sublist List.filter_sublist).map fun _ _ _ _ => Iff.rfl

theorem remove_dead_get {i : ℕ} {isec : InputSection} (h : Ranged ctx)
    (hi : (removeDeadUnwindInfo ctx).isecs[i]? = some isec) :
    ∃ old, ctx.isecs[i]? = some old ∧ isec.isAlive = old.isAlive ∧
      (isec = old ∧ (∀ rec ∈ (removeDeadUnwindInfo ctx).unwindRecords, rec.isec ≠ i) ∨
        RangeOf (removeDeadUnwindInfo ctx).unwindRecords i isec) := by
  have htogether := remove_dead_together h
  have hlt := (List.getElem?_eq_some_iff.1 hi).1
  simp only [removeDeadUnwindInfo] at hlt
  rw [set_ranges_length] at hlt
  refine ⟨_,List.getElem?_eq_getElem hlt,?_⟩
  rcases set_ranges_get htogether 0 (List.getElem?_eq_getElem hlt) with
    ⟨hnone,hsame⟩ | ⟨isec',hsame,halive,off,hoff,hrange⟩
  · obtain rfl := Option.some.inj (hi.symm.trans hsame)
    exact ⟨rfl,Or.inl ⟨rfl,hnone⟩⟩
  · obtain rfl := Option.some.inj (hi.symm.trans hsame)
    refine ⟨halive,Or.inr ?_⟩
    rw [Nat.zero_add] at hoff
    rw [← hoff] at hrange
    exact hrange

/-- The records of a live subsection all stay. -/
theorem remove_dead_records_of {i : ℕ} (halive : isAliveAt ctx.isecs i = true) :
    recordsOf (removeDeadUnwindInfo ctx) i = (recordsOf ctx i).map (relink ctx) := by
  rw [recordsOf, remove_dead_records, recordsOf, List.filter_map, List.filter_filter]
  congr 1
  apply List.filter_congr
  intro rec _
  simp only [Function.comp_apply, relink]
  by_cases hi : rec.isec = i
  · simp [hi, halive]
  · simp [hi]

theorem remove_dead_ranged (h : Ranged ctx) : Ranged (removeDeadUnwindInfo ctx) := by
  constructor
  · exact remove_dead_together h
  · have hlen : (removeDeadUnwindInfo ctx).isecs.length = ctx.isecs.length := by
      simp only [removeDeadUnwindInfo, set_ranges_length]
    rw [hlen, remove_dead_records]
    constructor
    · intro rec hrec
      obtain ⟨old,hold,rfl⟩ := List.mem_map.1 hrec
      exact h.known.isec old (List.mem_filter.1 hold).1
    · intro rec hrec k hk
      obtain ⟨old,hold,rfl⟩ := List.mem_map.1 hrec
      obtain ⟨hmem,halive⟩ := List.mem_filter.1 hold
      obtain ⟨l,hl,hmap⟩ := Option.bind_eq_some_iff.1 hk
      obtain ⟨fde,hfde,hisec⟩ := h.known.fde old hmem l hl
      obtain ⟨k',hk',hget⟩ := fde_map_get hfde (hisec.symm ▸ halive)
      obtain rfl := Option.some.inj (hk'.symm.trans hmap)
      exact ⟨fde,hget,hisec⟩
  · intro i isec hi halive
    obtain ⟨old,hold,hsame,hrange⟩ := remove_dead_get h hi
    rcases hrange with ⟨rfl,hnone⟩ | hrange
    · -- No record is left, so there was none and the range stays empty.
      have hrecords := remove_dead_records_of (alive_at_iff.2 ⟨isec,hold,halive⟩)
      rw [recordsOf, filter_others hnone] at hrecords
      have hempty : recordsOf ctx i = [] := List.map_eq_nil_iff.1 hrecords.symm
      have hcount := (h.range i isec hold halive).count
      rw [recordsOf] at hempty
      rw [hempty] at hcount
      exact range_of_empty hcount hnone
    · exact hrange

theorem remove_dead_stays (h : Ranged ctx) : Stays ctx (removeDeadUnwindInfo ctx) := by
  have halive : ∀ i, isAliveAt (removeDeadUnwindInfo ctx).isecs i = true →
      isAliveAt ctx.isecs i = true := by
    intro i hi
    obtain ⟨isec,hget,hlive⟩ := alive_at_iff.1 hi
    obtain ⟨old,hold,hsame,-⟩ := remove_dead_get h hget
    exact alive_at_iff.2 ⟨old,hold,hsame ▸ hlive⟩
  constructor
  · simp only [removeDeadUnwindInfo, set_ranges_length]
    exact le_rfl
  · exact fun i _ hi => halive i hi
  · intro i _ hi
    rw [remove_dead_records_of (halive i hi), List.map_map]
    apply List.map_congr_left
    intro rec hrec
    obtain ⟨hmem,hisec⟩ := List.mem_filter.1 hrec
    simp only [Function.comp_apply, withFde, relink]
    cases hk : rec.fde with
    | none => rfl
    | some k =>
      obtain ⟨fde,hfde,hfisec⟩ := h.known.fde rec hmem k hk
      have hlive : isAliveAt ctx.isecs fde.isec = true := by
        rw [hfisec, of_decide_eq_true hisec]
        exact halive i hi
      obtain ⟨l,hl,hget⟩ := fde_map_get hfde hlive
      rw [Option.bind_some, hl, Option.bind_some, Option.bind_some, hget, hfde]

end Dead

end MoldMacho.ParseUnwind
