import MoldMacho.Passes.GatherRuns

/-!
# The output sections of a run

Put together in the order of the blocks, what the workers gathered is what one
pass over the arena gathers, and the output sections are made from that.
-/

set_option autoImplicit false

namespace MoldMacho.SectionAssignment
open MoldMacho.Lists MoldMacho.StableSort MoldMacho.Chunks MoldMacho.OutputSectionNames
open MoldMacho.AssignInputSections MoldMacho.GatherSections MoldMacho.GatherRuns

/-! ## Groups of pieces -/

section Joined

/-- The groups of pieces of a list, of those that have any member. -/
def joined (pieces : List (List ((ℕ × InputSection) × Destination))) :
    List OutputSectionFileMembers := pieces.flatMap fun piece => (gathered piece).toList

theorem joined_members (pieces : List (List ((ℕ × InputSection) × Destination))) :
    (joined pieces).flatMap (fun g => g.members) = pieces.flatten.map fun y => y.1.1 := by
  induction pieces with
  | nil => rfl
  | cons piece pieces ih =>
    rw [joined] at ih ⊢
    rw [List.flatMap_cons, List.flatMap_append, ih, List.flatten_cons, List.map_append]
    cases piece <;> simp [gathered]

theorem joined_head (pieces : List (List ((ℕ × InputSection) × Destination))) :
    (joined pieces).head?.map (fun g => (g.members.head?,g.dest)) =
      pieces.flatten.head?.map fun y => (some y.1.1,y.2) := by
  induction pieces with
  | nil => rfl
  | cons piece pieces ih =>
    rw [joined] at ih ⊢
    rw [List.flatMap_cons, List.flatten_cons]
    cases piece with
    | nil => simpa [gathered] using ih
    | cons y piece => simp [gathered]

theorem joined_p2align {pieces : List (List ((ℕ × InputSection) × Destination))}
    {y : (ℕ × InputSection) × Destination} (h : y ∈ pieces.flatten) :
    y.1.2.p2align ≤ ((joined pieces).map fun g => g.p2align).foldl max 0 := by
  obtain ⟨piece,hpiece,hy⟩ := List.mem_flatten.1 h
  cases piece with
  | nil => cases hy
  | cons z piece =>
    let group : OutputSectionFileMembers :=
      { members := (z::piece).map fun y => y.1.1
        p2align := ((z::piece).map fun y => y.1.2.p2align).foldl max 0
        dest := z.2 }
    have hgroup : group ∈ joined pieces :=
      List.mem_flatMap.2 ⟨z::piece,hpiece,by simp [gathered, group]⟩
    have hle : y.1.2.p2align ≤ group.p2align :=
      le_foldl_max 0 (Or.inr (List.mem_map_of_mem hy))
    exact hle.trans (le_foldl_max 0 (Or.inr (List.mem_map_of_mem hgroup)))

end Joined

section Run
variable (ctx : Context) (moves : ℕ → Option Move)

/-- The subsections that go to a section, in input order. -/
def membersOf (name : SectionName) : List ℕ :=
  ((items ctx).filter fun x => (sent ctx moves x).any fun d => d.name = name).map Prod.fst

/-- Whether a section has both zero-fill and file-backed members. -/
def isMixed (name : SectionName) : Bool :=
  let members := (items ctx).filter fun x => (sent ctx moves x).any fun d => d.name = name
  members.any (fun x => (ctx.hdr x.2).isZerofill) &&
    members.any fun x => !(ctx.hdr x.2).isZerofill

variable {ctx moves}

theorem going_members (name : SectionName) (l : List (ℕ × InputSection)) :
    (going ctx moves name l).map Prod.fst =
      l.filter fun x => (sent ctx moves x).any fun d => d.name = name := by
  induction l with
  | nil => rfl
  | cons x l ih =>
    rw [going] at ih ⊢
    rw [List.filterMap_cons, List.filter_cons]
    cases hs : sent ctx moves x with
    | none => simpa using ih
    | some d =>
      by_cases hd : d.name = name
      · simp [hd, ih]
      · simp [hd, ih]

theorem mem_going {name : SectionName} {l : List (ℕ × InputSection)}
    {y : (ℕ × InputSection) × Destination} :
    y ∈ going ctx moves name l ↔
      y.1 ∈ l ∧ sent ctx moves y.1 = some y.2 ∧ y.2.name = name := by
  obtain ⟨x,d⟩ := y
  simp only [going, List.mem_filterMap, Option.bind_eq_some_iff]
  constructor
  · rintro ⟨x',hx',d',hd',he⟩
    split at he
    case isTrue hname =>
      obtain ⟨rfl,rfl⟩ := Prod.mk.inj (Option.some.inj he)
      exact ⟨hx',hd',hname⟩
    case isFalse => cases he
  · rintro ⟨hx,hs,hname⟩
    exact ⟨x,hx,d,hs,by rw [if_pos hname]⟩

theorem blocks_items : (List.range (blockCount ctx)).flatMap (blockItems ctx) = items ctx := by
  have h := flatMap_pieces (items ctx) (show 0 < block by decide)
  rwa [items, List.length_map, List.length_zipIdx] at h

theorem item_index {x : ℕ × InputSection} (h : x ∈ items ctx) : ctx.isecs[x.1]? = some x.2 := by
  obtain ⟨⟨isec,i⟩,hmem,rfl⟩ := List.mem_map.1 h
  exact List.mem_zipIdx_iff_getElem?.1 hmem

theorem items_getElem (k : ℕ) : (items ctx)[k]? = ctx.isecs[k]?.map fun isec => (k,isec) := by
  rw [items, List.getElem?_map, List.getElem?_zipIdx]
  cases ctx.isecs[k]? <;> simp

end Run

section Results
variable {ι : Type} [DecidableEq ι] {ctx : Context} {moves : ℕ → Option Move} {done : Config ι}
variable (run : Run ctx moves done)
include run

theorem results_isecs :
    (resultsOf ctx done).flatMap Prod.fst = (items ctx).map (visited ctx moves) := by
  rw [resultsOf, List.flatMap_map, ← blocks_items, List.map_flatMap]
  apply List.flatMap_congr
  intro b hb
  exact (run_finished run (List.mem_range.1 hb)).isecs

/-- A section's groups are those of the blocks' subsections that go to it. -/
theorem transpose_joined {n : ℕ} {name : SectionName} (hn : done.table.byName[n]? = some name) :
    transpose (resultsOf ctx done) n =
      joined ((List.range (blockCount ctx)).map fun b => going ctx moves name (blockItems ctx b)) := by
  rw [transpose, joined, resultsOf, List.flatMap_map, List.flatMap_map]
  apply List.flatMap_congr
  intro b hb
  obtain ⟨_,hgrouped,hnodup⟩ := run_finished run (List.mem_range.1 hb)
  have htable := (run_ok run).tableOk
  by_cases hin : n ∈ (done.results b).2.map Prod.fst
  · obtain ⟨⟨n',group⟩,hmem,rfl⟩ := List.mem_map.1 hin
    obtain ⟨name',hname',hgathered⟩ := hgrouped.made n' group hmem
    rw [hn] at hname'
    obtain rfl := Option.some.inj hname'
    rw [filter_key hnodup hmem, hgathered]
    rfl
  · rw [going_nil htable hgrouped hn hin, List.filter_eq_nil_iff.2]
    · rfl
    · intro e he hen
      exact hin (List.mem_map.2 ⟨e,he,eq_of_beq hen⟩)

omit run [DecidableEq ι] in
theorem pieces_going (name : SectionName) :
    ((List.range (blockCount ctx)).map fun b => going ctx moves name (blockItems ctx b)).flatten =
      going ctx moves name (items ctx) := by
  rw [← blocks_items, ← List.flatMap_def, going, List.filterMap_flatMap]
  rfl

theorem transpose_members {n : ℕ} {name : SectionName} (hn : done.table.byName[n]? = some name) :
    (transpose (resultsOf ctx done) n).flatMap (fun g => g.members) = membersOf ctx moves name := by
  rw [transpose_joined run hn, joined_members, pieces_going, membersOf, ← going_members,
    List.map_map]
  rfl

/-- Every section found has a member. -/
theorem going_cons {n : ℕ} {name : SectionName} (hn : done.table.byName[n]? = some name) :
    ∃ y rest, going ctx moves name (items ctx) = y::rest := by
  have hok := run_ok run
  obtain ⟨key,hkey,hgoes⟩ := hok.tableOk.found name (List.mem_of_getElem? hn)
  obtain ⟨entry,hentry,rfl⟩ := List.mem_map.1 hkey
  obtain ⟨x,hx,hp,hxkey⟩ := hok.keys entry hentry
  obtain ⟨d,hd,hname⟩ := goes_to_iff.1 hgoes
  have hs : sent ctx moves x = some d := by
    rw [sent, if_pos hp, ← hd, hxkey, keyDest, keyOf, key_hdr, key_move, destOf]
  apply List.exists_cons_of_ne_nil
  exact List.ne_nil_of_mem (mem_going.2 ⟨hx,hs,hname⟩ : (x,d) ∈ _)

/-- The keys of a section are those of its members. -/
theorem keys_any (p : MachSection → Bool) (name : SectionName) :
    ((done.table.byKey.map Prod.fst).any fun key => goesTo ctx name key && p (keyHdr key)) =
      ((items ctx).filter fun x => (sent ctx moves x).any fun d => d.name = name).any
        fun x => p (ctx.hdr x.2) := by
  have hok := run_ok run
  have hkey : ∀ x, placeable x.2 → keyDest ctx (keyOf ctx moves x) = sent ctx moves x := by
    intro x hp
    rw [sent, if_pos hp, keyDest, keyOf, key_hdr, key_move, destOf]
  rw [Bool.eq_iff_iff, List.any_eq_true, List.any_eq_true]
  constructor
  · rintro ⟨key,hmem,hboth⟩
    obtain ⟨hgoes,hhdr⟩ := Bool.and_eq_true_iff.1 hboth
    obtain ⟨entry,hentry,rfl⟩ := List.mem_map.1 hmem
    obtain ⟨x,hx,hp,hxkey⟩ := hok.keys entry hentry
    rw [hxkey] at hgoes hhdr
    refine ⟨x,List.mem_filter.2 ⟨hx,?_⟩,by simpa [keyOf] using hhdr⟩
    rwa [goesTo, hkey x hp] at hgoes
  · rintro ⟨x,hmem,hhdr⟩
    obtain ⟨hx,hgoes⟩ := List.mem_filter.1 hmem
    obtain ⟨d,hd,_⟩ := (Option.any_eq_true _ _).1 hgoes
    have hp : placeable x.2 := by
      by_contra hp
      rw [sent, if_neg hp] at hd
      cases hd
    have hblock := hx
    rw [← blocks_items, List.mem_flatMap] at hblock
    obtain ⟨b,hb,hxb⟩ := hblock
    obtain ⟨found,hfound⟩ := (run_finished run (List.mem_range.1 hb)).grouped.asked x hxb hp
    refine ⟨keyOf ctx moves x,List.mem_map.2 ⟨_,hfound,rfl⟩,Bool.and_eq_true_iff.2 ⟨?_,?_⟩⟩
    · rwa [goesTo, hkey x hp]
    · simpa [keyOf] using hhdr

theorem kinds_mixed {n : ℕ} {name : SectionName} (hn : done.table.byName[n]? = some name) :
    decide (done.table.fillKinds.getD n 0 = 3) = isMixed ctx moves name := by
  have hkinds : done.table.fillKinds.getD n 0 =
      kindsOf ctx (done.table.byKey.map Prod.fst) name := by
    rw [(run_ok run).tableOk.kinds, List.getD_eq_getElem?_getD, List.getElem?_map, hn]
    rfl
  rw [hkinds, kindsOf, isMixed, keys_any run (fun hdr => hdr.isZerofill),
    keys_any run (fun hdr => !hdr.isZerofill)]
  generalize List.any _ _ = a
  generalize List.any _ _ = b
  cases a <;> cases b <;> rfl

theorem tlv_members {n : ℕ} {name : SectionName} (hn : done.table.byName[n]? = some name) :
    done.table.hasTlvData.getD n false =
      ((items ctx).filter fun x => (sent ctx moves x).any fun d => d.name = name).any
        fun x => isTlvData (ctx.hdr x.2) := by
  rw [(run_ok run).tableOk.tlv, List.getD_eq_getElem?_getD, List.getElem?_map, hn]
  exact keys_any run isTlvData name

end Results

/-! ## Making the sections -/

section Make
variable (text : SectionName)

/-- Each section made goes after those there are, under its place among the
numbers. -/
theorem make_fold {step : Context × (ℕ → ℕ) → ℕ → Context × (ℕ → ℕ)} (new : ℕ → OutputSection)
    {order : List ℕ} (horder : order.Nodup) (c : Context) (ids : ℕ → ℕ)
    (hstep : ∀ made n, n ∈ order → made.1.isecs = c.isecs → made.1.args = c.args →
      made.1.sectHdrs = c.sectHdrs → step made n =
        ((addOutputSection made.1 (new n)).2,Function.update made.2 n made.1.outputSections.length)) :
    (order.foldl step (c,ids)).1.args = c.args ∧
      (order.foldl step (c,ids)).1.outputSections = c.outputSections ++ order.map new ∧
      (∀ n ∈ order, (order.foldl step (c,ids)).2 n = c.outputSections.length+order.idxOf n) ∧
      ∀ n, n ∉ order → (order.foldl step (c,ids)).2 n = ids n := by
  induction order generalizing c ids with
  | nil => simp
  | cons n order ih =>
    obtain ⟨hn,horder⟩ := List.nodup_cons.1 horder
    rw [List.foldl_cons, hstep (c,ids) n List.mem_cons_self rfl rfl rfl]
    obtain ⟨hargs,hsections,hids,hrest⟩ := ih horder (addOutputSection c (new n)).2
      (Function.update ids n c.outputSections.length)
      fun made m hm => hstep made m (List.mem_cons_of_mem _ hm)
    refine ⟨hargs,?_,?_,?_⟩
    · rw [hsections, addOutputSection, List.append_assoc]
      rfl
    · intro m hm
      rcases List.mem_cons.1 hm with rfl | hm
      · rw [hrest m hn, Function.update_self, List.idxOf_cons_self, Nat.add_zero]
      · have hne : n ≠ m := by
          rintro rfl
          exact hn hm
        rw [hids m hm, addOutputSection, List.length_append, List.length_singleton,
          List.idxOf_cons_ne _ hne]
        omega
    · intro m hm
      rw [List.mem_cons, not_or] at hm
      rw [hrest m hm.2, Function.update_of_ne hm.1]

end Make

section Sections
variable {ι : Type} [DecidableEq ι] (text : SectionName) (ctx : Context) (moves : ℕ → Option Move)
variable (done : Config ι)

def numbers : List ℕ := List.range done.table.fillKinds.length

def grouped (n : ℕ) : List OutputSectionFileMembers := transpose (resultsOf ctx done) n

/-- The numbers in the order of the sections' first members. -/
def order : List ℕ := sortBy (fun n => firstMember (grouped ctx done n)) (numbers done)

def nameOf (n : ℕ) : SectionName := (done.table.byName[n]?).getD ([],[])

def newSection (n : ℕ) : OutputSection :=
  match (going ctx moves (nameOf done n) (items ctx)).head? with
  | some (x,d) =>
    { name := d.name
      flags := firstMemberFlags ctx.args (ctx.hdr x.2) text d.name d.flagsName
      moved := d.moved
      hasTlvData := done.table.hasTlvData.getD n false }
  | none => { name := nameOf done n, flags := 0 }

def finalSection (n : ℕ) : OutputSection :=
  let osec := fill (grouped ctx done n) (newSection text ctx moves done n)
  if !ctx.args.relocatable && isMixed ctx moves (nameOf done n) then
    { osec with flags := settledFlags osec.flags }
  else osec

/-- The context with the sections added, and the ids they get. -/
def madeSections : Context × (ℕ → ℕ) :=
  (order ctx done).foldl (makeSection text (grouped ctx done) done.table)
    ({ ctx with isecs := (resultsOf ctx done).flatMap Prod.fst },fun _ => 0)

end Sections

section Sections
variable {ι : Type} [DecidableEq ι] (text : SectionName) {ctx : Context}
variable {moves : ℕ → Option Move} {done : Config ι} (run : Run ctx moves done)
include run

theorem mem_numbers {n : ℕ} (hn : n ∈ numbers done) :
    done.table.byName[n]? = some (nameOf done n) := by
  rw [numbers, List.mem_range, (run_ok run).tableOk.kinds, List.length_map] at hn
  rw [nameOf, List.getElem?_eq_getElem hn]
  rfl

theorem first_member {n : ℕ} (hn : n ∈ numbers done) {y : (ℕ × InputSection) × Destination}
    {rest : List ((ℕ × InputSection) × Destination)}
    (hgoing : going ctx moves (nameOf done n) (items ctx) = y::rest) :
    firstMember (grouped ctx done n) = y.1.1 ∧
      (grouped ctx done n).head?.map (fun g => g.dest) = some y.2 := by
  have h := joined_head ((List.range (blockCount ctx)).map
    fun b => going ctx moves (nameOf done n) (blockItems ctx b))
  rw [← transpose_joined run (mem_numbers run hn), pieces_going, hgoing, List.head?_cons,
    Option.map_some, Option.map_eq_some_iff] at h
  obtain ⟨g,hg,he⟩ := h
  obtain ⟨hmember,hdest⟩ := Prod.mk.inj he
  rw [firstMember, grouped, hg]
  exact ⟨by rw [Option.bind_some, hmember]; rfl,by rw [Option.map_some, hdest]⟩

theorem make_section {n : ℕ} (hn : n ∈ numbers done) {made : Context × (ℕ → ℕ)}
    (hisecs : made.1.isecs = (items ctx).map (visited ctx moves)) (hargs : made.1.args = ctx.args)
    (hhdrs : made.1.sectHdrs = ctx.sectHdrs) :
    makeSection text (grouped ctx done) done.table made n =
      ((addOutputSection made.1 (newSection text ctx moves done n)).2,
        Function.update made.2 n made.1.outputSections.length) := by
  obtain ⟨⟨x,d⟩,rest,hgoing⟩ := going_cons run (mem_numbers run hn)
  obtain ⟨hfirst,hdest⟩ := first_member run hn hgoing
  obtain ⟨hx,hs,_⟩ := mem_going.1 (hgoing ▸ List.mem_cons_self :
    (x,d) ∈ going ctx moves (nameOf done n) (items ctx))
  have hvisited : visited ctx moves x = x.2 := by
    rw [sent] at hs
    split at hs
    case isTrue => rw [visited, hs]; simp
    case isFalse => cases hs
  obtain ⟨g,hg,rfl⟩ := Option.map_eq_some_iff.1 hdest
  have hisec : made.1.isecs[x.1]? = some x.2 := by
    rw [hisecs, List.getElem?_map, items_getElem, item_index hx, Option.map_some, Option.map_some,
      hvisited]
  have hhdr : made.1.hdr x.2 = ctx.hdr x.2 := by rw [Context.hdr, Context.hdr, hhdrs]
  rw [makeSection, hg, hfirst, hisec]
  simp only [addOutputSectionFor, addOutputSection, newSection, hgoing, List.head?_cons, hhdr, hargs]

omit run [DecidableEq ι] in
theorem order_nodup : (order ctx done).Nodup :=
  (sort_perm _ _).nodup_iff.2 List.nodup_range

omit run [DecidableEq ι] in
theorem mem_order {n : ℕ} : n ∈ order ctx done ↔ n ∈ numbers done := mem_sort

theorem made_sections :
    (madeSections text ctx done).1.args = ctx.args ∧
      (madeSections text ctx done).1.outputSections =
        ctx.outputSections ++ (order ctx done).map (newSection text ctx moves done) ∧
      ∀ n ∈ numbers done, (madeSections text ctx done).2 n =
        ctx.outputSections.length+(order ctx done).idxOf n := by
  have h := make_fold (newSection text ctx moves done)
    (order_nodup : (order ctx done).Nodup)
    { ctx with isecs := (resultsOf ctx done).flatMap Prod.fst } (fun _ => 0)
    (fun made n hn hisecs hargs hhdrs => make_section text run (mem_order.1 hn)
      (hisecs.trans (results_isecs run)) hargs hhdrs)
  exact ⟨h.1,h.2.1,fun n hn => h.2.2.1 n (mem_order.2 hn)⟩

theorem made_ids {n k : ℕ} (hk : (order ctx done)[k]? = some n) :
    n ∈ numbers done ∧ (madeSections text ctx done).2 n = ctx.outputSections.length+k := by
  have hn : n ∈ numbers done := mem_order.1 (List.mem_of_getElem? hk)
  refine ⟨hn,?_⟩
  rw [(made_sections text run).2.2 n hn]
  obtain ⟨hlt,rfl⟩ := List.getElem?_eq_some_iff.1 hk
  rw [order_nodup.idxOf_getElem]

theorem made_ids_inj {n m : ℕ} (hn : n ∈ numbers done) (hm : m ∈ numbers done)
    (h : (madeSections text ctx done).2 n = (madeSections text ctx done).2 m) : n = m := by
  rw [(made_sections text run).2.2 n hn, (made_sections text run).2.2 m hm] at h
  exact (List.idxOf_inj (mem_order.2 hn)).1 (Nat.add_left_cancel h)

theorem sections_filled :
    (numbers done).foldl
        (fun osecs n => osecs.modify ((madeSections text ctx done).2 n) (fill (grouped ctx done n)))
        (madeSections text ctx done).1.outputSections =
      ctx.outputSections ++
        (order ctx done).map fun n => fill (grouped ctx done n) (newSection text ctx moves done n) := by
  rw [(made_sections text run).2.1]
  apply List.ext_getElem?
  intro k
  rw [foldl_modify]
  by_cases hk : k < ctx.outputSections.length
  · rw [List.getElem?_append_left hk, List.getElem?_append_left hk]
    have hsame : ∀ a, (numbers done).foldl (fun a n =>
        if (madeSections text ctx done).2 n = k then fill (grouped ctx done n) a else a) a = a := by
      apply foldl_change_none
      intro n hn hnk
      rw [(made_sections text run).2.2 n hn] at hnk
      omega
    simp only [hsame, Option.map_id']
  · rw [List.getElem?_append_right (by omega), List.getElem?_append_right (by omega),
      List.getElem?_map, List.getElem?_map]
    cases ho : (order ctx done)[k-ctx.outputSections.length]? with
    | none => rfl
    | some n =>
      obtain ⟨hn,hid⟩ := made_ids text run ho
      have hk' : (madeSections text ctx done).2 n = k := by omega
      rw [Option.map_some, Option.map_some, Option.map_some, ← hk', numbers]
      rw [foldl_change_once List.nodup_range (fun n => fill (grouped ctx done n)) hn
        fun m hm he => made_ids_inj text run hm hn he]

theorem kinds_by_id {n : ℕ} (hn : n ∈ numbers done) :
    kindsById done.table (madeSections text ctx done).2 ((madeSections text ctx done).2 n) =
      done.table.fillKinds.getD n 0 := by
  have hfind : (List.range done.table.fillKinds.length).find?
      (fun m => (madeSections text ctx done).2 m = (madeSections text ctx done).2 n) = some n := by
    cases hf : (List.range done.table.fillKinds.length).find?
        fun m => (madeSections text ctx done).2 m = (madeSections text ctx done).2 n with
    | none => simpa using List.find?_eq_none.1 hf n hn
    | some m =>
      have hm := List.find?_some hf
      rw [made_ids_inj text run (List.mem_of_find?_eq_some hf) hn (of_decide_eq_true hm)]
  rw [kindsById, hfind]
  rfl

theorem kinds_by_old_id {id : ℕ} (h : id < ctx.outputSections.length) :
    kindsById done.table (madeSections text ctx done).2 id = 0 := by
  rw [kindsById, List.find?_eq_none.2]
  · rfl
  · intro n hn
    rw [(made_sections text run).2.2 n hn, decide_eq_true_eq]
    omega

omit run [DecidableEq ι] in
theorem assign_eq : assignInputSections text ctx (resultsOf ctx done) done.table =
    let filled : Context := { (madeSections text ctx done).1 with
      outputSections := (numbers done).foldl
        (fun osecs n => osecs.modify ((madeSections text ctx done).2 n) (fill (grouped ctx done n)))
        (madeSections text ctx done).1.outputSections
      isecs := (resultsOf ctx done).flatMap (pointMembers (madeSections text ctx done).2) }
    if filled.args.relocatable then filled
    else resolveZerofillConflicts (kindsById done.table (madeSections text ctx done).2) filled := rfl

theorem final_sections :
    (assignInputSections text ctx (resultsOf ctx done) done.table).outputSections =
      ctx.outputSections ++ (order ctx done).map (finalSection text ctx moves done) := by
  rw [assign_eq]
  simp only [(made_sections text run).1, sections_filled text run]
  by_cases hr : ctx.args.relocatable = true
  · rw [if_pos hr]
    refine congrArg (ctx.outputSections ++ ·) (List.map_congr_left ?_)
    intro n _
    simp [finalSection, hr]
  · rw [if_neg hr, resolveZerofillConflicts]
    apply List.ext_getElem?
    intro k
    rw [List.getElem?_mapIdx]
    by_cases hk : k < ctx.outputSections.length
    · rw [List.getElem?_append_left hk, List.getElem?_append_left hk, kinds_by_old_id text run hk]
      simp
    · rw [List.getElem?_append_right (by omega), List.getElem?_append_right (by omega),
        List.getElem?_map, List.getElem?_map]
      cases ho : (order ctx done)[k-ctx.outputSections.length]? with
      | none => rfl
      | some n =>
        obtain ⟨hn,hid⟩ := made_ids text run ho
        have hk' : k = (madeSections text ctx done).2 n := by omega
        have hmixed := kinds_mixed run (mem_numbers run hn)
        rw [Option.map_some, Option.map_some, Option.map_some, hk', kinds_by_id text run hn,
          finalSection, ← hmixed]
        simp only [Bool.not_eq_true] at hr
        simp [hr]

end Sections

/-! ## Pointing the members at their sections -/

section Point
variable {ι : Type} [DecidableEq ι] {ctx : Context} {moves : ℕ → Option Move} {done : Config ι}

variable (ctx moves done) in
/-- A subsection in the end, where the sections have the ids given. -/
def pointed (ids : ℕ → ℕ) (x : ℕ × InputSection) : InputSection :=
  match sent ctx moves x with
  | some d => x.2.setOutputSection (ids (done.table.byName.idxOf d.name))
  | none => visited ctx moves x

theorem block_items_getElem {b k : ℕ} {x : ℕ × InputSection}
    (h : (blockItems ctx b)[k]? = some x) : k < block ∧ x.1 = b*block+k := by
  rw [blockItems, List.getElem?_take] at h
  split at h
  case isFalse => cases h
  case isTrue hk =>
    rw [List.getElem?_drop, items_getElem, Option.map_eq_some_iff] at h
    obtain ⟨_,_,rfl⟩ := h
    exact ⟨hk,rfl⟩

theorem point_members_pairs (ids : ℕ → ℕ) (result : List InputSection × Groups) :
    pointMembers ids result =
      (result.2.flatMap fun g => g.2.members.map fun i => (i,g.1)).foldl
        (fun isecs p => isecs.modify (p.1 % block) (InputSection.setOutputSection (ids p.2)))
        result.1 := by
  rw [pointMembers, List.foldl_flatMap]
  congr 1
  funext isecs g
  rw [List.foldl_map]

theorem sent_visited {x : ℕ × InputSection} {d : Destination} (h : sent ctx moves x = some d) :
    visited ctx moves x = x.2 := by
  rw [sent] at h
  split at h
  case isTrue => rw [visited, h]; simp
  case isFalse => cases h

variable (run : Run ctx moves done)
include run

/-- What a block's groups say of one of its subsections. -/
theorem group_member {b k : ℕ} (hb : b < blockCount ctx) {x : ℕ × InputSection}
    (hx : (blockItems ctx b)[k]? = some x) {n : ℕ} {group : OutputSectionFileMembers}
    (hgroup : (n,group) ∈ (done.results b).2) {i : ℕ} (hi : i ∈ group.members)
    (hk : i % block = k) :
    ∃ d, sent ctx moves x = some d ∧ n = done.table.byName.idxOf d.name := by
  obtain ⟨name,hname,hgathered⟩ := (run_finished run hb).grouped.made n group hgroup
  have hmembers : group.members = (going ctx moves name (blockItems ctx b)).map fun y => y.1.1 := by
    cases hgo : going ctx moves name (blockItems ctx b) with
    | nil => rw [hgo] at hgathered; cases hgathered
    | cons y rest =>
      rw [hgo] at hgathered
      obtain rfl := Option.some.inj hgathered
      rfl
  rw [hmembers] at hi
  obtain ⟨y,hy,rfl⟩ := List.mem_map.1 hi
  obtain ⟨hyb,hsent,rfl⟩ := mem_going.1 hy
  obtain ⟨k',hk'⟩ := List.mem_iff_getElem?.1 hyb
  obtain ⟨hlt,hidx⟩ := block_items_getElem hk'
  have hkk : k' = k := by
    rw [hidx, Nat.mul_add_mod_of_lt hlt] at hk
    exact hk
  rw [hkk, hx] at hk'
  obtain rfl := Option.some.inj hk'
  refine ⟨y.2,hsent,?_⟩
  obtain ⟨hn,hget⟩ := List.getElem?_eq_some_iff.1 hname
  rw [← hget, (run_ok run).tableOk.nodup.idxOf_getElem]

theorem point_block (ids : ℕ → ℕ) {b : ℕ} (hb : b < blockCount ctx) :
    pointMembers ids (done.results b) = (blockItems ctx b).map (pointed ctx moves done ids) := by
  have hfinished := run_finished run hb
  rw [point_members_pairs, hfinished.isecs]
  apply List.ext_getElem?
  intro k
  rw [foldl_modify, List.getElem?_map, List.getElem?_map]
  cases hx : (blockItems ctx b)[k]? with
  | none => rfl
  | some x =>
    have hpair : ∀ p ∈ (done.results b).2.flatMap (fun g => g.2.members.map fun i => (i,g.1)),
        p.1 % block = k → ∃ d, sent ctx moves x = some d ∧ p.2 = done.table.byName.idxOf d.name := by
      intro p hp hpk
      obtain ⟨⟨n,group⟩,hgroup,hmem⟩ := List.mem_flatMap.1 hp
      obtain ⟨i,hi,rfl⟩ := List.mem_map.1 hmem
      exact group_member run hb hx hgroup hi hpk
    rw [Option.map_some, Option.map_some, Option.map_some, Option.some.injEq]
    cases hs : sent ctx moves x with
    | none =>
      rw [pointed, hs]
      apply foldl_change_none
      intro p hp hpk
      obtain ⟨d,hd,_⟩ := hpair p hp hpk
      rw [hs] at hd
      cases hd
    | some d =>
      rw [pointed, hs, sent_visited hs]
      refine foldl_change_some
        (u := InputSection.setOutputSection (ids (done.table.byName.idxOf d.name)))
        (fun _ => rfl) ?_ ?_ x.2
      · intro p hp hpk
        obtain ⟨d',hd',hn⟩ := hpair p hp hpk
        rw [hs] at hd'
        obtain rfl := Option.some.inj hd'
        rw [hn]
      · have hmem := List.mem_of_getElem? hx
        obtain ⟨n,group,hgroup,hname⟩ := hfinished.grouped.all x hmem d hs
        obtain ⟨name,hname',hgathered⟩ := hfinished.grouped.made n group hgroup
        rw [hname] at hname'
        obtain rfl := Option.some.inj hname'
        have hgo : (x,d) ∈ going ctx moves d.name (blockItems ctx b) :=
          mem_going.2 ⟨hmem,hs,rfl⟩
        have hin : x.1 ∈ group.members := by
          cases hlist : going ctx moves d.name (blockItems ctx b) with
          | nil => rw [hlist] at hgo; cases hgo
          | cons y rest =>
            rw [hlist] at hgathered hgo
            obtain rfl := Option.some.inj hgathered
            exact List.mem_map.2 ⟨(x,d),hgo,rfl⟩
        refine ⟨(x.1,n),List.mem_flatMap.2 ⟨_,hgroup,List.mem_map.2 ⟨x.1,hin,rfl⟩⟩,?_⟩
        obtain ⟨hlt,hidx⟩ := block_items_getElem hx
        rw [hidx, Nat.mul_add_mod_of_lt hlt]

theorem final_isecs (text : SectionName) :
    (assignInputSections text ctx (resultsOf ctx done) done.table).isecs =
      (items ctx).map (pointed ctx moves done (madeSections text ctx done).2) := by
  have hisecs : (assignInputSections text ctx (resultsOf ctx done) done.table).isecs =
      (resultsOf ctx done).flatMap (pointMembers (madeSections text ctx done).2) := by
    rw [assign_eq]
    dsimp only
    split
    · rfl
    · rfl
  rw [hisecs, resultsOf, List.flatMap_map, ← blocks_items, List.map_flatMap]
  apply List.flatMap_congr
  intro b hb
  exact point_block run _ (List.mem_range.1 hb)

end Point

/-! ## The assignment -/

section Assigned
variable (ctx : Context) (moves : ℕ → Option Move) (text : SectionName)

/-- An output section made for the subsections that go to its name, under the
flags and the move of the first; made file-backed if they are of mixed kinds. -/
structure Made (osec : OutputSection) : Prop where
  members : osec.members = membersOf ctx moves osec.name
  first : ∃ x d, x ∈ items ctx ∧ osec.members.head? = some x.1 ∧ sent ctx moves x = some d ∧
    osec.name = d.name ∧ osec.moved = d.moved ∧
    osec.flags =
      let flags := firstMemberFlags ctx.args (ctx.hdr x.2) text d.name d.flagsName
      if !ctx.args.relocatable && isMixed ctx moves osec.name then settledFlags flags else flags
  tlv : osec.hasTlvData = osec.members.any fun i =>
    (ctx.isecs[i]?).any fun isec => isTlvData (ctx.hdr isec)
  aligned : ∀ x ∈ items ctx, x.1 ∈ osec.members → x.2.p2align ≤ osec.p2align

/-- The output sections made, and where the subsections are put. -/
structure Assigned (made : List OutputSection) (ctx' : Context) : Prop where
  sections : ctx'.outputSections = ctx.outputSections ++ made
  names : (made.map fun osec => osec.name).Nodup
  order : made.Pairwise fun a b => a.members.headD 0 < b.members.headD 0
  each : ∀ osec ∈ made, Made ctx moves text osec
  length : ctx'.isecs.length = ctx.isecs.length
  placed : ∀ x ∈ items ctx, placeable x.2 → ∀ d, destOf ctx moves x = some d →
    ∃ j osec, made[j]? = some osec ∧ osec.name = d.name ∧
      ctx'.isecs[x.1]? = some (x.2.setOutputSection (ctx.outputSections.length+j))
  killed : ∀ x ∈ items ctx, placeable x.2 → destOf ctx moves x = none →
    ctx'.isecs[x.1]? = some x.2.kill
  kept : ∀ x ∈ items ctx, ¬ placeable x.2 → ctx'.isecs[x.1]? = some x.2

end Assigned

section Final
variable {ι : Type} [DecidableEq ι] {ctx : Context} {moves : ℕ → Option Move} {done : Config ι}
variable (text : SectionName) (run : Run ctx moves done)
include run

theorem final_members {n : ℕ} (hn : n ∈ numbers done) :
    (finalSection text ctx moves done n).name = nameOf done n ∧
      (finalSection text ctx moves done n).members = membersOf ctx moves (nameOf done n) := by
  have hmembers := transpose_members run (mem_numbers run hn)
  obtain ⟨⟨x,d⟩,rest,hgoing⟩ := going_cons run (mem_numbers run hn)
  obtain ⟨_,_,hname⟩ := mem_going.1 (hgoing ▸ List.mem_cons_self :
    (x,d) ∈ going ctx moves (nameOf done n) (items ctx))
  rw [finalSection]
  split
  all_goals
    refine ⟨?_,hmembers⟩
    simp only [fill, newSection, hgoing, List.head?_cons]
    exact hname

theorem final_first {n : ℕ} (hn : n ∈ numbers done) :
    ∃ x d, x ∈ items ctx ∧ sent ctx moves x = some d ∧ d.name = nameOf done n ∧
      (membersOf ctx moves (nameOf done n)).head? = some x.1 ∧
      firstMember (grouped ctx done n) = x.1 ∧
      newSection text ctx moves done n =
        { name := d.name
          flags := firstMemberFlags ctx.args (ctx.hdr x.2) text d.name d.flagsName
          moved := d.moved
          hasTlvData := done.table.hasTlvData.getD n false } := by
  obtain ⟨⟨x,d⟩,rest,hgoing⟩ := going_cons run (mem_numbers run hn)
  obtain ⟨hx,hs,hname⟩ := mem_going.1 (hgoing ▸ List.mem_cons_self :
    (x,d) ∈ going ctx moves (nameOf done n) (items ctx))
  refine ⟨x,d,hx,hs,hname,?_,(first_member run hn hgoing).1,?_⟩
  · rw [membersOf, ← going_members, hgoing]
    rfl
  · simp only [newSection, hgoing, List.head?_cons]

theorem final_made {n : ℕ} (hn : n ∈ numbers done) :
    Made ctx moves text (finalSection text ctx moves done n) := by
  obtain ⟨hname,hmembers⟩ := final_members text run hn
  obtain ⟨x,d,hx,hs,hd,hhead,_,hnew⟩ := final_first text run hn
  have hfields : (finalSection text ctx moves done n).moved = d.moved ∧
      (finalSection text ctx moves done n).hasTlvData = done.table.hasTlvData.getD n false ∧
      (finalSection text ctx moves done n).p2align =
        (fill (grouped ctx done n) (newSection text ctx moves done n)).p2align ∧
      (finalSection text ctx moves done n).flags =
        (let flags := firstMemberFlags ctx.args (ctx.hdr x.2) text d.name d.flagsName
        if !ctx.args.relocatable && isMixed ctx moves (nameOf done n) then settledFlags flags
        else flags) := by
    rw [finalSection, hnew]
    split
    · exact ⟨rfl,rfl,rfl,rfl⟩
    · exact ⟨rfl,rfl,rfl,rfl⟩
  refine ⟨by rw [hmembers, hname],⟨x,d,hx,by rw [hmembers, hhead],hs,by rw [hname, hd],hfields.1,
    by rw [hname]; exact hfields.2.2.2⟩,?_,?_⟩
  · rw [hfields.2.1, tlv_members run (mem_numbers run hn), hmembers, membersOf, List.any_map]
    rw [Bool.eq_iff_iff, List.any_eq_true, List.any_eq_true]
    constructor
    · rintro ⟨z,hz,htlv⟩
      refine ⟨z,hz,?_⟩
      rw [Function.comp_apply, item_index (List.mem_filter.1 hz).1]
      exact htlv
    · rintro ⟨z,hz,htlv⟩
      refine ⟨z,hz,?_⟩
      rw [Function.comp_apply, item_index (List.mem_filter.1 hz).1] at htlv
      exact htlv
  · intro z hz hzm
    rw [hmembers, membersOf, ← going_members, List.map_map] at hzm
    obtain ⟨y,hy,hyz⟩ := List.mem_map.1 hzm
    have hyx : y.1 = z := by
      have hi := item_index (mem_going.1 hy).1
      rw [show y.1.1 = z.1 from hyz, item_index hz] at hi
      exact Prod.ext hyz (Option.some.inj hi).symm
    rw [← pieces_going] at hy
    rw [hfields.2.2.1, ← hyx]
    refine (joined_p2align hy).trans ?_
    rw [← transpose_joined run (mem_numbers run hn)]
    exact le_max_right _ _

theorem final_order :
    ((order ctx done).map (finalSection text ctx moves done)).Pairwise
      fun a b => a.members.headD 0 < b.members.headD 0 := by
  rw [List.pairwise_map]
  have hfirst : ∀ n ∈ order ctx done,
      (finalSection text ctx moves done n).members.headD 0 = firstMember (grouped ctx done n) := by
    intro n hn
    obtain ⟨x,d,_,_,_,hhead,hx,_⟩ := final_first text run (mem_order.1 hn)
    rw [(final_members text run (mem_order.1 hn)).2, List.headD_eq_head?_getD, hhead, hx]
    rfl
  have hsorted : (order ctx done).Pairwise fun n m =>
      n ≠ m ∧ firstMember (grouped ctx done n) ≤ firstMember (grouped ctx done m) :=
    order_nodup.and (sort_sorted _ _)
  refine hsorted.imp_of_mem ?_
  rintro n m hn hm ⟨hne,hle⟩
  rw [hfirst n hn, hfirst m hm]
  refine lt_of_le_of_ne hle fun heq => hne ?_
  -- one first member would go to both
  obtain ⟨x,d,hx,hs,hd,_,hxn,_⟩ := final_first text run (mem_order.1 hn)
  obtain ⟨y,e,hy,ht,he,_,hym,_⟩ := final_first text run (mem_order.1 hm)
  have hxy : x = y := by
    have hi : x.1 = y.1 := by rw [← hxn, ← hym, heq]
    have hget := item_index hx
    rw [hi, item_index hy] at hget
    exact Prod.ext hi (Option.some.inj hget).symm
  rw [hxy, ht] at hs
  obtain rfl := Option.some.inj hs
  have hnames : done.table.byName[n]? = done.table.byName[m]? := by
    rw [mem_numbers run (mem_order.1 hn), mem_numbers run (mem_order.1 hm), ← hd, ← he]
  have hlt := (List.getElem?_eq_some_iff.1 (mem_numbers run (mem_order.1 hn))).1
  exact (List.getElem?_inj hlt (run_ok run).tableOk.nodup).1 hnames

theorem final_names :
    (((order ctx done).map (finalSection text ctx moves done)).map fun osec => osec.name).Nodup := by
  rw [List.map_map]
  refine List.Nodup.map_on ?_ order_nodup
  intro n hn m hm heq
  rw [Function.comp_apply, Function.comp_apply, (final_members text run (mem_order.1 hn)).1,
    (final_members text run (mem_order.1 hm)).1] at heq
  have hnames : done.table.byName[n]? = done.table.byName[m]? := by
    rw [mem_numbers run (mem_order.1 hn), mem_numbers run (mem_order.1 hm), heq]
  have hlt := (List.getElem?_eq_some_iff.1 (mem_numbers run (mem_order.1 hn))).1
  exact (List.getElem?_inj hlt (run_ok run).tableOk.nodup).1 hnames

theorem final_isec {x : ℕ × InputSection} (hx : x ∈ items ctx) :
    (assignInputSections text ctx (resultsOf ctx done) done.table).isecs[x.1]? =
      some (pointed ctx moves done (madeSections text ctx done).2 x) := by
  rw [final_isecs run, List.getElem?_map, items_getElem, item_index hx]
  rfl

/-- The number of the section a subsection goes to. -/
theorem sent_number {x : ℕ × InputSection} (hx : x ∈ items ctx) {d : Destination}
    (h : sent ctx moves x = some d) :
    done.table.byName.idxOf d.name ∈ numbers done ∧
      nameOf done (done.table.byName.idxOf d.name) = d.name := by
  rw [← blocks_items, List.mem_flatMap] at hx
  obtain ⟨b,hb,hxb⟩ := hx
  obtain ⟨n,_,_,hname⟩ := (run_finished run (List.mem_range.1 hb)).grouped.all x hxb d h
  obtain ⟨hlt,hget⟩ := List.getElem?_eq_some_iff.1 hname
  have hidx : done.table.byName.idxOf d.name = n := by
    rw [← hget, (run_ok run).tableOk.nodup.idxOf_getElem]
  rw [hidx, numbers, (run_ok run).tableOk.kinds, List.length_map, List.mem_range, nameOf, hname]
  exact ⟨hlt,rfl⟩

/-- Whatever workers gather the subsections, and however their lookups
interleave, each output section gets those that go to its name. -/
theorem sections_assigned : ∃ made, Assigned ctx moves text made
    (assignInputSections text ctx (resultsOf ctx done) done.table) := by
  refine ⟨(order ctx done).map (finalSection text ctx moves done),final_sections text run,
    final_names text run,final_order text run,?_,?_,?_,?_,?_⟩
  · intro osec hosec
    obtain ⟨n,hn,rfl⟩ := List.mem_map.1 hosec
    exact final_made text run (mem_order.1 hn)
  · rw [final_isecs run, List.length_map, items, List.length_map, List.length_zipIdx]
  · intro x hx hp d hd
    have hs : sent ctx moves x = some d := by rw [sent, if_pos hp, hd]
    obtain ⟨hn,hname⟩ := sent_number run hx hs
    have hlt := List.idxOf_lt_length_of_mem (mem_order.2 hn : _ ∈ order ctx done)
    refine ⟨(order ctx done).idxOf (done.table.byName.idxOf d.name),_,
      by rw [List.getElem?_map, List.getElem?_idxOf (mem_order.2 hn)]; rfl,?_,?_⟩
    · rw [(final_members text run hn).1, hname]
    · rw [final_isec text run hx, pointed, hs]
      dsimp only
      rw [(made_sections text run).2.2 _ hn]
  · intro x hx hp hd
    have hs : sent ctx moves x = none := by rw [sent, if_pos hp, hd]
    rw [final_isec text run hx, pointed, hs, visited, hp, hd]
    rfl
  · intro x hx hp
    have hs : sent ctx moves x = none := by rw [sent, if_neg hp]
    rw [final_isec text run hx, pointed, hs, visited, if_neg (by simp [hp])]

end Final

/-! ## A section of mixed kinds -/

/-- A zero-fill section renamed to a regular one. -/
def mixedArgs : Args :=
  { renameSections := [((bytes "__DATA",bytes "__bss"),(bytes "__DATA",bytes "__data"))] }

def padded (name : String) : List UInt8 := nameField (bytes name)

def mixedContext : Context where
  args := mixedArgs
  sectHdrs _ shndx :=
    if shndx = 0 then
      { rawSectname := padded "__bss", rawSegname := padded "__DATA", flags := sZerofill }
    else { rawSectname := padded "__data", rawSegname := padded "__DATA" }
  isecs := [{ file := 0, shndx := 0 },{ file := 0, shndx := 1, p2align := 3 }]

/-- One worker gathers the block; the other finds none left. -/
def mixedRun : Config Bool := schedule mixedContext (fun _ => none) [true,false,true,true,true]

theorem mixed_run : Run mixedContext (fun _ => none) mixedRun where
  steps := schedule_steps ..
  taken := by decide +kernel
  ended := by
    intro i
    rw [← Option.isNone_iff_eq_none]
    revert i
    decide +kernel

def textName : SectionName := (bytes "__TEXT",bytes "__text")

theorem sections_assigned_mixed :
    Run mixedContext (fun _ => none) mixedRun ∧ ∃ made, Assigned mixedContext (fun _ => none) textName
      made (assignInputSections textName mixedContext (resultsOf mixedContext mixedRun)
        mixedRun.table) := ⟨mixed_run,sections_assigned textName mixed_run⟩

/-- Its flags are not those of its first member. -/
theorem mixed_section_flags :
    ¬ ∀ (ctx : Context) (moves : ℕ → Option Move) (text : SectionName) (done : Config Bool),
      Run ctx moves done →
      ∀ osec ∈ (assignInputSections text ctx (resultsOf ctx done) done.table).outputSections.drop
        ctx.outputSections.length, ∀ x ∈ items ctx, osec.members.head? = some x.1 →
      ∀ d, destOf ctx moves x = some d →
        osec.flags = firstMemberFlags ctx.args (ctx.hdr x.2) text d.name d.flagsName := by
  intro h
  have hall := h mixedContext (fun _ => none) textName mixedRun mixed_run
  have hosec : ({ name := (bytes "__DATA",bytes "__data"), flags := 0, p2align := 3, members := [0,1] } :
      OutputSection) ∈ (assignInputSections textName mixedContext
        (resultsOf mixedContext mixedRun) mixedRun.table).outputSections.drop
          mixedContext.outputSections.length := by decide +kernel
  have hflags := hall _ hosec (0,{ file := 0, shndx := 0 }) (by decide) rfl
    { name := (bytes "__DATA",bytes "__data"), flagsName := (bytes "__DATA",bytes "__bss"),
      moved := none } (by decide +kernel)
  exact absurd hflags (by decide +kernel)

end MoldMacho.SectionAssignment
