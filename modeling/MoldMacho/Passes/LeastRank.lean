import Mathlib.Data.List.Nodup
import MoldMacho.Passes.FirstExporters

/-!
# The least rank wins

In whatever order the tasks of a round run, a symbol's best rank is the least
of its definitions', the object that has it is the only one that writes the
symbol, and the symbol ends as that object's definition makes it, unless a
dylib of a lesser rank claims it.
-/

set_option autoImplicit false

namespace MoldMacho.ResolveSymbols
open MoldMacho.InputSections (InputSection)
open MoldMacho.Macho MoldMacho.Symbols MoldMacho.Definitions MoldMacho.DylibRanks
open MoldMacho.Dylibs (DylibFile)
open MoldMacho.Interleave

/-- The objects' places in the input order: no two are the same, and the
counter they are drawn from has not run out. -/
structure Priorities (ctx : Context) : Prop where
  distinct : ∀ {i j : ℕ} {obj obj' : ObjectFile}, ctx.objs[i]? = some obj →
    ctx.objs[j]? = some obj' → obj.priority = obj'.priority → i = j
  below : ∀ obj ∈ ctx.objs, obj.priority.toNat < 2^32 - 1

section Tasks
variable {ctx : Context} {onlyAlive : Bool} {i j : ℕ} {c c' : Candidate}

theorem mem_tasks (h : c ∈ tasks ctx onlyAlive i) :
    ctx.objs[i]? = some c.obj ∧ c.objIdx = i ∧ c.entry ∈ c.obj.globals ∧
    definitionRank ctx.isecs c.obj c.entry ctx.autolinkPriority = some c.rank ∧
    (onlyAlive = true → c.obj.isReachable = true) := by
  unfold tasks at h
  split at h
  case h_1 obj hobj =>
    split at h
    case isTrue halive =>
      obtain ⟨entry,hentry,hc⟩ := List.mem_filterMap.1 h
      obtain ⟨rank,hrank,rfl⟩ := Option.map_eq_some_iff.1 hc
      exact ⟨hobj,rfl,hentry,hrank,fun ha => by simpa [ha] using halive⟩
    case isFalse => cases h
  case h_2 => cases h

variable (hp : Priorities ctx)
include hp

theorem rank_owner (h : c ∈ tasks ctx onlyAlive i) (h' : c' ∈ tasks ctx onlyAlive j)
    (hrank : c.rank = c'.rank) : i = j := by
  obtain ⟨hi,-,-,hr,-⟩ := mem_tasks h
  obtain ⟨hj,-,-,hr',-⟩ := mem_tasks h'
  have hpriority := rank_priority hr
  rw [hrank, rank_priority hr'] at hpriority
  exact (hp.distinct hj hi (UInt32.toNat_inj.1 hpriority)).symm

theorem rank_lt_max (h : c ∈ tasks ctx onlyAlive i) : c.rank < rankMax := by
  obtain ⟨hi,-,-,hr,-⟩ := mem_tasks h
  have hlow := rank_priority hr
  have hlt := rank_lt hr
  have hbelow := hp.below c.obj (List.mem_of_getElem? hi)
  rw [← hlow] at hbelow
  rw [rankMax]
  omega

end Tasks

/-! ## The race -/

section Race
variable {ctx : Context} {onlyAlive : Bool} {best : SymbolId → ℕ}
variable (hrace : RaceDefinitions ctx onlyAlive best)
include hrace

theorem best_le {i : ℕ} {c : Candidate} (h : c ∈ tasks ctx onlyAlive i) :
    best c.entry.id ≤ c.rank := by
  obtain ⟨done,hrun,rfl⟩ := hrace
  have hmem : (c,()) ∈ (tasks ctx onlyAlive i).map fun c => (c,()) := List.mem_map_of_mem h
  exact race_le_value (c := initial (fun i => (tasks ctx onlyAlive i).map fun c => (c,())) _) hrun hmem

theorem best_eq (id : SymbolId) :
    best id = rankMax ∨ ∃ i, ∃ c ∈ tasks ctx onlyAlive i, c.entry.id = id ∧ best id = c.rank := by
  obtain ⟨done,hrun,rfl⟩ := hrace
  rcases race_eq hrun id with h | ⟨i,bt,hbt,hid,hrank⟩
  · exact Or.inl h
  · obtain ⟨c,hc,rfl⟩ := List.mem_map.1 hbt
    exact Or.inr ⟨i,c,hc,hid,hrank⟩

end Race

/-! ## The claims -/

/-- A definition in a section that was dropped. -/
def Entry.discarded (entry : Entry) : Bool := entry.msym.ty == nSect && entry.subsec.isNone

theorem claim_kept (isecs : List InputSection) (obj : ObjectFile) (entry : Entry) (objIdx : ℕ)
    (sym : Symbol) :
    (claimDefinition isecs obj entry objIdx sym).2 = !Entry.discarded entry := by
  have hne : nSect ≠ nAbs := by decide
  simp only [claimDefinition, Entry.discarded, symbolSubsec]
  by_cases habs : entry.msym.ty = nAbs
  · simp [habs, hne.symm]
  · by_cases hsect : entry.msym.ty = nSect
    · cases entry.subsec <;> simp [hsect, hne]
    · by_cases hlive : obj.isReachable <;> simp [habs, hsect, hlive]

section Claims
variable (isecs : List InputSection)

/-- What a definition alone does to its symbol's slot. -/
def claimOne (slot : Slot) (c : Candidate) : Slot :=
  if slot.best = c.rank then
    { best := if Entry.discarded c.entry then rankMax else slot.best
      sym := (claimDefinition isecs c.obj c.entry c.objIdx slot.sym).1 }
  else slot

theorem solo_claims (ctx : Context) (cs : List Candidate) (slot : Slot) :
    Solo (claimTasks ctx) (cs.map fun c => (c,Stage.compare)) slot
      (cs.foldl (claimOne ctx.isecs) slot) := by
  induction cs generalizing slot with
  | nil => exact Solo.nil slot
  | cons c cs ih =>
    rw [List.map_cons, List.foldl_cons]
    have hrest := ih (claimOne ctx.isecs slot c)
    generalize cs.foldl (claimOne ctx.isecs) (claimOne ctx.isecs slot c) = last at hrest ⊢
    apply Solo.cons
    by_cases hbest : slot.best = c.rank
    · have hkept := claim_kept ctx.isecs c.obj c.entry c.objIdx slot.sym
      simp only [claimTasks, claimAccess, hbest, if_true, after]
      apply Solo.cons
      cases hd : Entry.discarded c.entry with
      | false =>
        rw [hd] at hkept
        simp only [claimOne, hbest, if_true, hd, Bool.false_eq_true, if_false] at hrest
        simpa [claimTasks, claimAccess, hkept, after, hbest] using hrest
      | true =>
        rw [hd] at hkept
        simp only [claimOne, hbest, if_true, hd] at hrest
        simp only [claimAccess, hkept, after]
        exact Solo.cons hrest
    · simp only [claimOne, hbest, if_false] at hrest
      simpa only [claimTasks, claimAccess, hbest, if_false, after] using hrest

theorem fold_claims_none (cs : List Candidate) (slot : Slot)
    (h : ∀ c ∈ cs, slot.best ≠ c.rank) : cs.foldl (claimOne isecs) slot = slot := by
  induction cs with
  | nil => rfl
  | cons c cs ih =>
    rw [List.forall_mem_cons] at h
    rw [List.foldl_cons, claimOne, if_neg h.1]
    exact ih h.2

/-- The last of the definitions with the best rank makes the symbol. -/
theorem fold_claims_kept (cs : List Candidate) (slot : Slot)
    (hkept : ∀ c ∈ cs, slot.best = c.rank → Entry.discarded c.entry = false)
    (hsome : ∃ c ∈ cs, slot.best = c.rank) :
    (cs.foldl (claimOne isecs) slot).best = slot.best ∧
    ∃ c ∈ cs, slot.best = c.rank ∧ ∃ sym,
      (cs.foldl (claimOne isecs) slot).sym =
        (claimDefinition isecs c.obj c.entry c.objIdx sym).1 := by
  induction cs generalizing slot with
  | nil =>
    obtain ⟨c,hc,-⟩ := hsome
    cases hc
  | cons c cs ih =>
    rw [List.forall_mem_cons] at hkept
    rw [List.foldl_cons]
    have hbest : (claimOne isecs slot c).best = slot.best := by
      rw [claimOne]
      split
      · next heq => simp [hkept.1 heq]
      · rfl
    by_cases hrest : ∃ c ∈ cs, slot.best = c.rank
    · obtain ⟨hb,d,hd,hrank,hsym⟩ := ih (claimOne isecs slot c)
        (by rw [hbest]; exact hkept.2) (by rw [hbest]; exact hrest)
      rw [hbest] at hb hrank
      exact ⟨hb,d,List.mem_cons_of_mem _ hd,hrank,hsym⟩
    · have hc : slot.best = c.rank := by
        obtain ⟨d,hd,hrank⟩ := hsome
        rcases List.mem_cons.1 hd with rfl | hd
        · exact hrank
        · exact absurd ⟨d,hd,hrank⟩ hrest
      rw [fold_claims_none isecs cs _ (by
        rw [hbest]
        exact fun d hd hrank => hrest ⟨d,hd,hrank⟩)]
      refine ⟨hbest,c,List.mem_cons_self,hc,slot.sym,?_⟩
      rw [claimOne, if_pos hc]

end Claims

section ClaimRun
variable {ctx : Context} {onlyAlive : Bool} {best : SymbolId → ℕ} {syms : SymbolId → Symbol}
variable {claimed : Config ℕ SymbolId Candidate Stage Slot}

/-- The values that a slot's best rank takes. -/
def Fits (least : ℕ) (slot : Slot) : Prop := slot.best = least ∨ slot.best = rankMax

theorem fits_access (least : ℕ) (c : Candidate) (stage : Stage) (slot : Slot)
    (h : Fits least slot) : Fits least ((claimTasks ctx).access c stage slot).1 := by
  cases stage with
  | compare => exact h
  | claim => exact h
  | discard => exact Or.inr rfl

variable (hp : Priorities ctx)
include hp

/-- An object without the symbol's least definition finds nothing to claim. -/
theorem others_idle {i j : ℕ} {c : Candidate} (hc : c ∈ tasks ctx onlyAlive i)
    (hbest : best c.entry.id = c.rank) (hij : j ≠ i) :
    Idle (claimTasks ctx) (Fits (best c.entry.id)) c.entry.id
      ((claimStart ctx onlyAlive best syms).left j) := by
  intro bt hbt _ slot hslot
  obtain ⟨d,hd,rfl⟩ := List.mem_map.1 hbt
  have hne : slot.best ≠ d.rank := by
    rcases hslot with h | h
    · intro heq
      rw [h, hbest] at heq
      exact hij (rank_owner hp hc hd heq).symm
    · rw [h]
      exact (rank_lt_max hp hd).ne'
  simp only [claimTasks, claimAccess, hne, if_false]

omit hp in
theorem start_left_on (id : SymbolId) (i : ℕ) :
    leftOn (claimTasks ctx) id ((claimStart ctx onlyAlive best syms).left i) =
      ((tasks ctx onlyAlive i).filter fun c => c.entry.id = id).map fun c => (c,Stage.compare) := by
  rw [leftOn, claimStart, initial, List.filter_map]
  rfl

/-- The slot ends as the object with the least definition alone leaves it. -/
theorem claim_run_slot (hrun : Run (claimTasks ctx) (claimStart ctx onlyAlive best syms) claimed)
    {i : ℕ} {c : Candidate} (hc : c ∈ tasks ctx onlyAlive i) (hbest : best c.entry.id = c.rank) :
    claimed.slots c.entry.id =
      ((tasks ctx onlyAlive i).filter fun d => d.entry.id = c.entry.id).foldl
        (claimOne ctx.isecs) { best := best c.entry.id, sym := syms c.entry.id } := by
  have hsolo := run_solo (P := Fits (best c.entry.id)) (s := c.entry.id)
    (fun d stage slot _ h => fits_access _ d stage slot h) hrun i
    (fun j hij => others_idle hp hc hbest hij) (Or.inl rfl)
  rw [start_left_on] at hsolo
  exact solo_unique hsolo (solo_claims ctx _ _)

/-- A symbol with a least definition, and none in a dropped section, is as one
of the least definitions of one object makes it. -/
theorem claim_run_kept (hrun : Run (claimTasks ctx) (claimStart ctx onlyAlive best syms) claimed)
    {i : ℕ} {c : Candidate} (hc : c ∈ tasks ctx onlyAlive i) (hbest : best c.entry.id = c.rank)
    (hkept : ∀ j, ∀ d ∈ tasks ctx onlyAlive j, d.entry.id = c.entry.id → d.rank = c.rank →
      Entry.discarded d.entry = false) :
    (claimed.slots c.entry.id).best = c.rank ∧
    ∃ d ∈ tasks ctx onlyAlive i, d.entry.id = c.entry.id ∧ d.rank = c.rank ∧ ∃ sym,
      (claimed.slots c.entry.id).sym =
        (claimDefinition ctx.isecs d.obj d.entry d.objIdx sym).1 := by
  rw [claim_run_slot hp hrun hc hbest]
  obtain ⟨hb,d,hd,hrank,hsym⟩ := fold_claims_kept ctx.isecs
    ((tasks ctx onlyAlive i).filter fun d => d.entry.id = c.entry.id)
    { best := best c.entry.id, sym := syms c.entry.id }
    (by
      intro d hd hrank
      obtain ⟨hmem,hid⟩ := List.mem_filter.1 hd
      exact hkept i d hmem (of_decide_eq_true hid) (hrank.symm.trans hbest))
    ⟨c,List.mem_filter.2 ⟨hc,decide_eq_true rfl⟩,hbest⟩
  obtain ⟨hmem,hid⟩ := List.mem_filter.1 hd
  exact ⟨hb.trans hbest,d,hmem,of_decide_eq_true hid,hrank.symm.trans hbest,hsym⟩

/-- Only the object with the least definition writes a symbol. -/
theorem claim_run_writer (hrace : RaceDefinitions ctx onlyAlive best)
    (hrun : Run (claimTasks ctx) (claimStart ctx onlyAlive best syms) claimed) {j : ℕ}
    {id : SymbolId} (hlog : (j,id,Stage.claim) ∈ claimed.log) :
    ∃ c ∈ tasks ctx onlyAlive j, c.entry.id = id ∧ best id = c.rank := by
  have hstart (k : ℕ) (hidle : Idle (claimTasks ctx) (Fits (best id)) id
      ((claimStart ctx onlyAlive best syms).left k)) : (k,id,Stage.claim) ∉ claimed.log := by
    intro hk
    rcases run_log (fun d stage slot _ h => fits_access _ d stage slot h) hrun hidle (Or.inl rfl)
      hk with h | ⟨bt,hbt,-,hstage⟩
    · cases h
    · obtain ⟨d,-,rfl⟩ := List.mem_map.1 hbt
      cases hstage
  rcases best_eq hrace id with hmax | ⟨i,c,hc,hid,hbest⟩
  · refine absurd hlog (hstart j ?_)
    intro bt hbt _ slot hslot
    obtain ⟨d,hd,rfl⟩ := List.mem_map.1 hbt
    have hslot' : slot.best = rankMax := by
      rcases hslot with h | h
      · exact h.trans hmax
      · exact h
    have hne : slot.best ≠ d.rank := by
      rw [hslot']
      exact (rank_lt_max hp hd).ne'
    simp only [claimTasks, claimAccess, hne, if_false]
  · by_cases hij : j = i
    · subst hij
      exact ⟨c,hc,hid,hbest⟩
    · subst hid
      exact absurd hlog (hstart j (others_idle hp hc hbest hij))

end ClaimRun

/-! ## Common symbols -/

section Common
variable {best : SymbolId → ℕ} {id : SymbolId}

theorem merge_common_ne {syms : SymbolId → Symbol} {common : CommonSym} (h : common.id ≠ id) :
    mergeCommon best syms common id = syms id := by
  unfold mergeCommon
  split
  · rfl
  · exact Function.update_of_ne (Ne.symm h) _ _

theorem merge_common_self {syms : SymbolId → Symbol} {common : CommonSym} (h : common.id = id)
    (hbest : best id >>> 40 = 4) :
    mergeCommon best syms common id =
      { syms id with
        value := max (syms id).value common.size
        commonP2align := max (syms id).commonP2align common.p2align
        isPrivateExtern := (syms id).isPrivateExtern || common.isPrivate } := by
  subst h
  rw [mergeCommon, if_neg (fun hne => hne hbest)]
  exact Function.update_self ..

theorem merge_not_common (hbest : best id >>> 40 ≠ 4) (commons : List CommonSym)
    (syms : SymbolId → Symbol) : mergeCommonSymbols commons best syms id = syms id := by
  rw [mergeCommonSymbols]
  induction commons generalizing syms with
  | nil => rfl
  | cons common commons ih =>
    rw [List.foldl_cons, ih]
    by_cases hid : common.id = id
    · rw [mergeCommon, if_pos]
      rw [hid]
      exact hbest
    · exact merge_common_ne hid

/-- Merging changes only the size, the alignment and the visibility. -/
theorem merge_frame (best : SymbolId → ℕ) (id : SymbolId) (commons : List CommonSym) (syms : SymbolId → Symbol) :
    ∃ value p2align isPrivate, mergeCommonSymbols commons best syms id =
      { syms id with value, commonP2align := p2align, isPrivateExtern := isPrivate } := by
  rw [mergeCommonSymbols]
  induction commons generalizing syms with
  | nil => exact ⟨_,_,_,rfl⟩
  | cons common commons ih =>
    obtain ⟨value,p2align,isPrivate,hrest⟩ := ih (mergeCommon best syms common)
    rw [List.foldl_cons, hrest]
    by_cases hid : common.id = id
    · by_cases hbest : best id >>> 40 = 4
      · rw [merge_common_self hid hbest]
        exact ⟨value,p2align,isPrivate,rfl⟩
      · rw [mergeCommon, if_pos (by rw [hid]; exact hbest)]
        exact ⟨value,p2align,isPrivate,rfl⟩
    · rw [merge_common_ne hid]
      exact ⟨value,p2align,isPrivate,rfl⟩

/-- A size or alignment that is at least those merged, and is one of them or
the one it began as. -/
theorem merge_max (best : SymbolId → ℕ) (id : SymbolId) (field : Symbol → ℕ) (size : CommonSym → ℕ)
    (hfield : ∀ syms common, common.id = id →
      field (mergeCommon best syms common id) = max (field (syms id)) (size common))
    (commons : List CommonSym) (syms : SymbolId → Symbol) :
    let last := field (mergeCommonSymbols commons best syms id)
    field (syms id) ≤ last ∧ (∀ common ∈ commons, common.id = id → size common ≤ last) ∧
    (last = field (syms id) ∨ ∃ common ∈ commons, common.id = id ∧ last = size common) := by
  simp only [mergeCommonSymbols]
  induction commons generalizing syms with
  | nil => simp
  | cons common commons ih =>
    obtain ⟨hge,hall,hone⟩ := ih (mergeCommon best syms common)
    rw [List.foldl_cons]
    by_cases hid : common.id = id
    · rw [hfield syms common hid] at hge hone
      refine ⟨(le_max_left _ _).trans hge,?_,?_⟩
      · rw [List.forall_mem_cons]
        exact ⟨fun _ => (le_max_right _ _).trans hge,hall⟩
      · rcases hone with h | ⟨d,hd,hdid,h⟩
        · rcases max_choice (field (syms id)) (size common) with hm | hm
          · exact Or.inl (h.trans hm)
          · exact Or.inr ⟨common,List.mem_cons_self,hid,h.trans hm⟩
        · exact Or.inr ⟨d,List.mem_cons_of_mem _ hd,hdid,h⟩
    · rw [merge_common_ne hid] at hge hone
      refine ⟨hge,?_,?_⟩
      · rw [List.forall_mem_cons]
        exact ⟨fun h => absurd h hid,hall⟩
      · rcases hone with h | ⟨d,hd,hdid,h⟩
        · exact Or.inl h
        · exact Or.inr ⟨d,List.mem_cons_of_mem _ hd,hdid,h⟩

end Common

/-! ## The round -/

/-- A symbol as its winning definition makes it: a tentative one is common, and
owned by its object only while that is lazy. -/
structure OwnedBy (isecs : List InputSection) (c : Candidate) (sym : Symbol) : Prop where
  notImported : sym.isImported = false
  common : sym.isCommon = decide (c.entry.msym.ty = nUndf)
  file : sym.file =
    if c.entry.msym.ty = nUndf ∧ c.obj.isReachable then none else some (.obj c.objIdx)
  absolute : c.entry.msym.ty = nAbs →
    sym.inputSection = none ∧ sym.value = c.entry.msym.value
  defined : c.entry.msym.ty = nSect → ∃ isec off, symbolSubsec isecs c.entry = some (isec,off) ∧
    sym.inputSection = some isec ∧ sym.value = off

theorem class_type {obj : ObjectFile} {entry : Entry} {cls : ℕ}
    (h : definitionClass obj entry = some cls) :
    (entry.msym.ty = nAbs ∨ entry.msym.ty = nSect ∨ entry.msym.ty = nUndf) ∧
    (cls = 4 ↔ entry.msym.ty = nUndf ∧ obj.isReachable = true) ∧
    (entry.msym.ty = nUndf → entry.msym.isCommon = true) := by
  have hsect : nSect ≠ nUndf := by decide
  have habs : nAbs ≠ nUndf := by decide
  simp only [definitionClass] at h
  split at h
  case isTrue hty =>
    rcases hty with hty | hty <;> split at h <;> cases h <;> simp_all
  case isFalse hty =>
    split at h
    case isTrue hundef => split at h <;> cases h <;> simp_all
    case isFalse => cases h

theorem claim_owned (isecs : List InputSection) {c : Candidate} (sym : Symbol) {cls : ℕ}
    (hcls : definitionClass c.obj c.entry = some cls) (hkept : Entry.discarded c.entry = false) :
    OwnedBy isecs c (claimDefinition isecs c.obj c.entry c.objIdx sym).1 ∧
    (cls = 4 → (claimDefinition isecs c.obj c.entry c.objIdx sym).1.value = c.entry.msym.value ∧
      (claimDefinition isecs c.obj c.entry c.objIdx sym).1.commonP2align =
        c.entry.msym.commonP2align) := by
  have hsu : nSect ≠ nUndf := by decide
  have hau : nAbs ≠ nUndf := by decide
  have hsa : nSect ≠ nAbs := by decide
  obtain ⟨hty,hfour,-⟩ := class_type hcls
  rw [hfour]
  rcases hty with hty | hty | hty
  · constructor
    · constructor <;> simp [claimDefinition, hty, hau, hsa.symm]
    · simp [hty, hau]
  · have hsub : ∃ isec, c.entry.subsec = some isec := by
      rw [← Option.isSome_iff_exists]
      simpa [Entry.discarded, hty] using hkept
    obtain ⟨isec,hisec⟩ := hsub
    constructor
    · constructor <;> simp [claimDefinition, symbolSubsec, hty, hsu, hsa, hisec]
    · simp [hty, hsu]
  · cases hlive : c.obj.isReachable with
    | true =>
      constructor
      · constructor <;> simp [claimDefinition, hty, hlive, hsu.symm, hau.symm]
      · simp [claimDefinition, hty, hlive, hsu.symm, hau.symm]
    | false =>
      constructor
      · constructor <;> simp [claimDefinition, hty, hlive, hsu.symm, hau.symm]
      · simp

theorem owned_congr {isecs : List InputSection} {c : Candidate} {sym sym' : Symbol}
    (h : OwnedBy isecs c sym) (himported : sym'.isImported = sym.isImported)
    (hcommon : sym'.isCommon = sym.isCommon) (hfile : sym'.file = sym.file)
    (hsection : sym'.inputSection = sym.inputSection)
    (hvalue : c.entry.msym.ty ≠ nUndf → sym'.value = sym.value) : OwnedBy isecs c sym' where
  notImported := himported.trans h.notImported
  common := hcommon.trans h.common
  file := hfile.trans h.file
  absolute := by
    intro hty
    rw [hsection, hvalue (by rw [hty]; decide)]
    exact h.absolute hty
  defined := by
    intro hty
    rw [hsection, hvalue (by rw [hty]; decide)]
    exact h.defined hty

theorem merge_owned {isecs : List InputSection} {c : Candidate} {best : SymbolId → ℕ}
    {syms : SymbolId → Symbol} {id : SymbolId} (h : OwnedBy isecs c (syms id))
    (hkind : best id >>> 40 = 4 → c.entry.msym.ty = nUndf) (commons : List CommonSym) :
    OwnedBy isecs c (mergeCommonSymbols commons best syms id) := by
  by_cases hbest : best id >>> 40 = 4
  · obtain ⟨value,p2align,isPrivate,hmerge⟩ := merge_frame best id commons syms
    rw [hmerge]
    exact owned_congr h rfl rfl rfl rfl fun hty => absurd (hkind hbest) hty
  · rw [merge_not_common hbest]
    exact h

theorem record_references_frame (ctx : Context) (refs : References) (id : SymbolId) (sym : Symbol) :
    ∃ weak strong,
      recordReferences ctx refs id sym = { sym with isWeakRef := weak, isStrongRef := strong } := by
  simp only [recordReferences]
  split
  · exact ⟨_,_,rfl⟩
  · split
    · exact ⟨_,_,rfl⟩
    · split <;> exact ⟨_,_,rfl⟩

/-- The link a round runs in: the dylibs it ranks are the first ones of the
link, whose indices fit in a symbol's file, and a relocatable link has none. -/
structure Linked (ctx : Context) (ranking : DylibRanking) : Prop where
  priorities : Priorities ctx
  few : ctx.dylibs.length < weakExport
  relocatable : ctx.args.relocatable = true → ctx.dylibs = []
  ranked : ∃ count fuel, DylibRanking.new (ctx.dylibs.take count) fuel = some ranking

/-- A link whose dylibs' lists are all there is to look up. -/
structure Ready (ctx : Context) (ranking : DylibRanking) : Prop extends Linked ctx ranking where
  collected : Collected ctx

theorem Linked.count_lt {ctx : Context} {ranking : DylibRanking} (h : Linked ctx ranking) :
    ranking.count < weakExport := by
  obtain ⟨count,fuel,hnew⟩ := h.ranked
  obtain ⟨ranks,-,rfl⟩ := Option.map_eq_some_iff.1 hnew
  exact (List.length_take_le' count ctx.dylibs).trans_lt h.few

theorem Linked.ranks_ge {ctx : Context} {ranking : DylibRanking} (h : Linked ctx ranking) (i : ℕ) :
    2 <<< 40 ≤ ranking.ranks i := by
  obtain ⟨count,fuel,hnew⟩ := h.ranked
  obtain ⟨ranks,hranks,rfl⟩ := Option.map_eq_some_iff.1 hnew
  exact dylib_ranks_ge hranks i

/-- The size and the alignment of a common symbol are the greatest of its live
tentative definitions'. -/
structure Greatest (ctx : Context) (id : SymbolId) (sym : Symbol) : Prop where
  size_le : ∀ common ∈ liveCommonSymbols ctx, common.id = id → common.size ≤ sym.value
  p2align_le : ∀ common ∈ liveCommonSymbols ctx, common.id = id →
    common.p2align ≤ sym.commonP2align
  size_eq : ∃ common ∈ liveCommonSymbols ctx, common.id = id ∧ sym.value = common.size
  p2align_eq : ∃ common ∈ liveCommonSymbols ctx, common.id = id ∧
    sym.commonP2align = common.p2align

section Round
variable {ctx : Context} {onlyAlive : Bool} {ranking : DylibRanking}

theorem live_common_mem {i : ℕ} {c : Candidate} (hc : c ∈ tasks ctx onlyAlive i)
    (hcls : definitionClass c.obj c.entry = some 4) :
    ∃ common ∈ liveCommonSymbols ctx, common.id = c.entry.id ∧
      common.size = c.entry.msym.value ∧ common.p2align = c.entry.msym.commonP2align := by
  obtain ⟨hobj,-,hglobal,hrank,-⟩ := mem_tasks hc
  obtain ⟨hstab,hext,-⟩ := definition_rank_some hrank
  obtain ⟨-,hfour,hcommon⟩ := class_type hcls
  obtain ⟨hty,hlive⟩ := hfour.1 rfl
  refine ⟨{ id := c.entry.id, size := c.entry.msym.value, p2align := c.entry.msym.commonP2align
            isPrivate := c.entry.msym.type &&& nPext != 0 || c.obj.hidden },?_,rfl,rfl,rfl⟩
  rw [liveCommonSymbols, List.mem_flatMap]
  refine ⟨c.obj,List.mem_filter.2 ⟨List.mem_of_getElem? hobj,hlive⟩,?_⟩
  apply List.mem_map.2
  refine ⟨c.entry,List.mem_filter.2 ⟨hglobal,?_⟩,rfl⟩
  simp [hstab, hext, hty, hcommon hty]

theorem merge_greatest {i : ℕ} {c : Candidate} (hc : c ∈ tasks ctx onlyAlive i)
    (hcls : definitionClass c.obj c.entry = some 4) (best : SymbolId → ℕ)
    (syms : SymbolId → Symbol)
    (hbest : best c.entry.id >>> 40 = 4) (hvalue : (syms c.entry.id).value = c.entry.msym.value)
    (hp2align : (syms c.entry.id).commonP2align = c.entry.msym.commonP2align) :
    Greatest ctx c.entry.id (mergeCommonSymbols (liveCommonSymbols ctx) best syms c.entry.id) := by
  obtain ⟨own,hown,hid,hsize,halign⟩ := live_common_mem hc hcls
  have hs := merge_max best c.entry.id Symbol.value CommonSym.size
    (fun syms common h => by rw [merge_common_self h hbest]) (liveCommonSymbols ctx) syms
  have ha := merge_max best c.entry.id Symbol.commonP2align CommonSym.p2align
    (fun syms common h => by rw [merge_common_self h hbest]) (liveCommonSymbols ctx) syms
  refine ⟨hs.2.1,ha.2.1,?_,?_⟩
  · rcases hs.2.2 with h | h
    · exact ⟨own,hown,hid,h.trans (hvalue.trans hsize.symm)⟩
    · exact h
  · rcases ha.2.2 with h | h
    · exact ⟨own,hown,hid,h.trans (hp2align.trans halign.symm)⟩
    · exact h

end Round

/-- How often a claim may yet be taken up. -/
def stagesLeft : Stage → ℕ
  | .compare => 2
  | .claim => 1
  | .discard => 0

/-- A round can always be run to its end. -/
theorem exists_pass (ctx : Context) (onlyAlive : Bool) (ranking : DylibRanking)
    (before : SymbolId → Symbol) : ∃ after, Nonempty (PassRun ctx onlyAlive ranking before after) := by
  have htasks (i : ℕ) (h : ctx.objs.length ≤ i) : tasks ctx onlyAlive i = [] := by
    rw [tasks, List.getElem?_eq_none h]
  obtain ⟨raced,hraced⟩ := exists_run (T := raceTasks) (fun _ => 0)
    (fun _ _ _ _ h => by cases h) ctx.objs.length
    (initial (fun i => (tasks ctx onlyAlive i).map fun c => (c,())) fun _ => rankMax)
    (fun i h => by simp only [initial, htasks i h, List.map_nil])
  obtain ⟨claimed,hclaimed⟩ := exists_run (T := claimTasks ctx) stagesLeft
    (by
      intro c stage slot next h
      cases stage with
      | compare =>
        simp only [claimTasks, claimAccess] at h
        split at h <;> cases h
        decide
      | claim =>
        simp only [claimTasks, claimAccess] at h
        split at h <;> cases h
        decide
      | discard => cases h)
    ctx.objs.length (claimStart ctx onlyAlive raced.slots before)
    (fun i h => by simp only [claimStart, initial, htasks i h, List.map_nil])
  obtain ⟨first,hfirst⟩ := exists_first_exporters ctx (collectDylibSymbols ctx)
    (dylibSearchOrder ranking.count ranking.ranks 0)
  exact ⟨_,⟨raced.slots,claimed,first,⟨raced,hraced,rfl⟩,hclaimed,hfirst,rfl⟩⟩

/-! What a round makes of one symbol. -/

section After
variable {ctx : Context} {onlyAlive : Bool} {ranking : DylibRanking}
variable {before after : SymbolId → Symbol}

/-- The symbol once the objects have claimed it and common symbols are merged. -/
def mergedSymbol (run : PassRun ctx onlyAlive ranking before after) (id : SymbolId) : Symbol :=
  mergeCommonSymbols (liveCommonSymbols ctx) (fun id => (run.claimed.slots id).best)
    (fun id => (run.claimed.slots id).sym) id

/-- The symbol with the references of the round. -/
def referenced (ctx : Context) (onlyAlive : Bool) (id : SymbolId) (sym : Symbol) : Symbol :=
  { recordReferences ctx (collectReferences ctx onlyAlive) id sym with
    isUsed := (collectReferences ctx onlyAlive).used id }

theorem referenced_frame (ctx : Context) (onlyAlive : Bool) (id : SymbolId) (sym : Symbol) :
    ∃ weak strong used, referenced ctx onlyAlive id sym =
      { sym with isWeakRef := weak, isStrongRef := strong, isUsed := used } := by
  obtain ⟨weak,strong,h⟩ := record_references_frame ctx (collectReferences ctx onlyAlive) id sym
  rw [referenced, h]
  exact ⟨weak,strong,_,rfl⟩

theorem referenced_owned {isecs : List InputSection} {c : Candidate} {sym : Symbol} (id : SymbolId)
    (h : OwnedBy isecs c sym) : OwnedBy isecs c (referenced ctx onlyAlive id sym) := by
  obtain ⟨weak,strong,used,hframe⟩ := referenced_frame ctx onlyAlive id sym
  rw [hframe]
  exact owned_congr h rfl rfl rfl rfl fun _ => rfl

section Having
variable {has : ℕ → SymbolId → Prop} (hlinked : Linked ctx ranking)
variable (hhas : ∀ idx id, Carries ctx idx id ↔ has idx id)
include hlinked hhas

theorem no_claim_relocatable (hr : ctx.args.relocatable = true) (rank : ℕ) (id : SymbolId)
    (idx : ℕ) : ¬ ClaimsHaving ctx has onlyAlive ranking rank id idx := by
  intro h
  obtain ⟨d,hd,-⟩ := (hhas idx id).2 h.first.exports
  rw [hlinked.relocatable hr] at hd
  cases hd

theorem after_unclaimed (run : PassRun ctx onlyAlive ranking before after) {id : SymbolId}
    (h : ∀ idx, ¬ ClaimsHaving ctx has onlyAlive ranking (run.claimed.slots id).best id idx) :
    after id = referenced ctx onlyAlive id (mergedSymbol run id) := by
  conv_lhs => rw [run.result]
  dsimp only
  by_cases hr : ctx.args.relocatable = true
  · rw [if_pos hr]
    rfl
  · rw [if_neg hr, claim_dylib_unclaimed hhas hlinked.count_lt run.exporters _ h]
    rfl

theorem after_claimed (run : PassRun ctx onlyAlive ranking before after) {id : SymbolId} {idx : ℕ}
    (h : ClaimsHaving ctx has onlyAlive ranking (run.claimed.slots id).best id idx) :
    Imported (after id)
      (providingDylib ctx.dylibs ranking.providers idx (ctx.symbols.name id)) := by
  have hr : ¬ ctx.args.relocatable = true :=
    fun hr => no_claim_relocatable hlinked hhas hr _ id idx h
  have himported := claim_dylib_claimed hhas hlinked.count_lt hlinked.ranks_ge
    run.exporters (fun id => (run.claimed.slots id).best)
    (recordReferences ctx (collectReferences ctx onlyAlive) id (mergedSymbol run id)) h
  rw [run.result]
  dsimp only
  rw [if_neg hr]
  exact ⟨himported.file,himported.imported,himported.notCommon⟩

end Having

end After

section Verdict
variable (ctx : Context) (onlyAlive : Bool) (ranking : DylibRanking)

/-- A dylib claims a symbol by the lists of the dylibs. -/
abbrev ListClaims : ℕ → SymbolId → ℕ → Prop :=
  ClaimsHaving ctx (Carries ctx) onlyAlive ranking

/-- What a round makes of the symbol of definition `c`, one with the least
rank: an import of the dylib that claims it by its exports, or if none does, as
a least-ranked definition of its object makes it, of the greatest size and
alignment if that is a live tentative one. -/
structure LeastWins (after : SymbolId → Symbol) (c : Candidate) : Prop where
  imported : ∀ idx, DylibClaims ctx onlyAlive ranking c.rank c.entry.id idx →
    Imported (after c.entry.id)
      (providingDylib ctx.dylibs ranking.providers idx (ctx.symbols.name c.entry.id))
  owned : (∀ idx, ¬ DylibClaims ctx onlyAlive ranking c.rank c.entry.id idx) →
    (∃ d ∈ tasks ctx onlyAlive c.objIdx, d.entry.id = c.entry.id ∧ d.rank = c.rank ∧
      OwnedBy ctx.isecs d (after c.entry.id)) ∧
    (definitionClass c.obj c.entry = some 4 → Greatest ctx c.entry.id (after c.entry.id))

/-- The lists of the dylibs decide about a symbol as their exports do: a dylib
claims it by the lists if one does by the exports, and both bind it alike. -/
structure ListsDecide (rank : ℕ) (id : SymbolId) : Prop where
  claimed : ∀ idx, DylibClaims ctx onlyAlive ranking rank id idx →
    ∃ j, ListClaims ctx onlyAlive ranking rank id j ∧
      providingDylib ctx.dylibs ranking.providers j (ctx.symbols.name id) =
        providingDylib ctx.dylibs ranking.providers idx (ctx.symbols.name id)
  exported : ∀ j, ListClaims ctx onlyAlive ranking rank id j →
    ∃ idx, DylibClaims ctx onlyAlive ranking rank id idx

end Verdict

section Winner
variable {ctx : Context} {onlyAlive : Bool} {ranking : DylibRanking}
variable {before after : SymbolId → Symbol}

theorem first_having_congr {has has' : ℕ → SymbolId → Prop} (h : ∀ idx id, has idx id ↔ has' idx id)
    {ranks : ℕ → ℕ} {order : List ℕ} {id : SymbolId} {idx : ℕ}
    (hfirst : FirstHaving ctx has ranks order id idx) : FirstHaving ctx has' ranks order id idx :=
  ⟨hfirst.mem,(h idx id).1 hfirst.exports,fun j hj hhas => hfirst.first j hj ((h j id).2 hhas)⟩

theorem claims_having_congr {has has' : ℕ → SymbolId → Prop}
    (h : ∀ idx id, has idx id ↔ has' idx id) {rank : ℕ} {id : SymbolId} {idx : ℕ}
    (hclaims : ClaimsHaving ctx has onlyAlive ranking rank id idx) :
    ClaimsHaving ctx has' onlyAlive ranking rank id idx :=
  ⟨first_having_congr h hclaims.first,hclaims.used,hclaims.visible,hclaims.notDtrace,hclaims.less⟩

/-- Lists that hold all the exports there were decide as the exports do. -/
theorem collected_decide (hc : Collected ctx) (rank : ℕ) (id : SymbolId) :
    ListsDecide ctx onlyAlive ranking rank id where
  claimed idx h := ⟨idx,claims_having_congr (fun i id => (hc.carries i id).symm) h,rfl⟩
  exported j h := ⟨j,claims_having_congr hc.carries h⟩

/-- A symbol whose least-ranked definitions are not in dropped sections, by the
lists of the dylibs. -/
theorem least_listed (hlinked : Linked ctx ranking)
    (run : PassRun ctx onlyAlive ranking before after) {c : Candidate}
    (hc : c ∈ tasks ctx onlyAlive c.objIdx)
    (hleast : ∀ j, ∀ d ∈ tasks ctx onlyAlive j, d.entry.id = c.entry.id → c.rank ≤ d.rank)
    (hkept : ∀ j, ∀ d ∈ tasks ctx onlyAlive j, d.entry.id = c.entry.id → d.rank = c.rank →
      Entry.discarded d.entry = false) :
    (∀ idx, ListClaims ctx onlyAlive ranking c.rank c.entry.id idx →
      Imported (after c.entry.id)
        (providingDylib ctx.dylibs ranking.providers idx (ctx.symbols.name c.entry.id))) ∧
    ((∀ idx, ¬ ListClaims ctx onlyAlive ranking c.rank c.entry.id idx) →
      (∃ d ∈ tasks ctx onlyAlive c.objIdx, d.entry.id = c.entry.id ∧ d.rank = c.rank ∧
        OwnedBy ctx.isecs d (after c.entry.id)) ∧
      (definitionClass c.obj c.entry = some 4 → Greatest ctx c.entry.id (after c.entry.id))) := by
  have hp := hlinked.priorities
  have hbest : run.best c.entry.id = c.rank := by
    apply le_antisymm (best_le run.race hc)
    rcases best_eq run.race c.entry.id with h | ⟨j,d,hd,hid,h⟩
    · rw [h]
      exact (rank_lt_max hp hc).le
    · rw [h]
      exact hleast j d hd hid
  obtain ⟨hslot,d,hd,hid,hrank,start,hsym⟩ := claim_run_kept hp run.claims hc hbest hkept
  constructor
  · intro idx hclaim
    rw [← hslot] at hclaim
    exact after_claimed hlinked (fun _ _ => Iff.rfl) run hclaim
  · intro hnone
    rw [← hslot] at hnone
    rw [after_unclaimed hlinked (fun _ _ => Iff.rfl) run hnone]
    obtain ⟨-,-,-,hdrank,-⟩ := mem_tasks hd
    obtain ⟨-,-,cls,hcls,-⟩ := definition_rank_some hdrank
    have hcommon := rank_common hdrank
    obtain ⟨howned,hvalue⟩ := claim_owned ctx.isecs start hcls (hkept _ d hd hid hrank)
    rw [← hsym] at howned hvalue
    constructor
    · refine ⟨d,hd,hid,hrank,referenced_owned _ (merge_owned howned ?_ _)⟩
      intro hbest4
      rw [hslot, ← hrank, hcommon] at hbest4
      exact ((class_type hbest4).2.1.1 rfl).1
    · intro h4
      obtain ⟨-,-,-,hcrank,-⟩ := mem_tasks hc
      have hbest4 : (run.claimed.slots c.entry.id).best >>> 40 = 4 := by
        rw [hslot, rank_common hcrank]
        exact h4
      have hd4 : definitionClass d.obj d.entry = some 4 := by
        rw [← hcommon, hrank, ← hslot]
        exact hbest4
      obtain ⟨hv,ha⟩ := hvalue (Option.some.inj (hcls.symm.trans hd4))
      rw [← hid] at hv ha hbest4 ⊢
      have hgreatest := merge_greatest hd hd4 (fun id => (run.claimed.slots id).best)
        (fun id => (run.claimed.slots id).sym) hbest4 hv ha
      obtain ⟨weak,strong,used,hframe⟩ := referenced_frame ctx onlyAlive d.entry.id
        (mergedSymbol run d.entry.id)
      rw [hframe]
      exact ⟨hgreatest.size_le,hgreatest.p2align_le,hgreatest.size_eq,hgreatest.p2align_eq⟩

end Winner

/-- Whatever the order of the tasks of a round: no two objects write one
symbol; and the least rank wins a symbol whose least-ranked definitions are not
in dropped sections, if and only if the lists of the dylibs decide about it as
their exports do. -/
theorem least_rank_wins {ctx : Context} {onlyAlive : Bool} {ranking : DylibRanking}
    {before after : SymbolId → Symbol} (hlinked : Linked ctx ranking)
    (run : PassRun ctx onlyAlive ranking before after) :
    (∀ i j id, (i,id,Stage.claim) ∈ run.claimed.log → (j,id,Stage.claim) ∈ run.claimed.log →
      i = j) ∧
    ∀ i, ∀ c ∈ tasks ctx onlyAlive i,
      (∀ j, ∀ d ∈ tasks ctx onlyAlive j, d.entry.id = c.entry.id → c.rank ≤ d.rank) →
      (∀ j, ∀ d ∈ tasks ctx onlyAlive j, d.entry.id = c.entry.id → d.rank = c.rank →
        Entry.discarded d.entry = false) →
      (LeastWins ctx onlyAlive ranking after c ↔
        ListsDecide ctx onlyAlive ranking c.rank c.entry.id) := by
  have hp := hlinked.priorities
  constructor
  · intro i j id hi hj
    obtain ⟨c,hc,-,hrank⟩ := claim_run_writer hp run.race run.claims hi
    obtain ⟨d,hd,-,hrank'⟩ := claim_run_writer hp run.race run.claims hj
    exact rank_owner hp hc hd (hrank.symm.trans hrank')
  · intro i c hc hleast hkept
    obtain rfl := (mem_tasks hc).2.1
    obtain ⟨himported,howned⟩ := least_listed hlinked run hc hleast hkept
    constructor
    · intro hwins
      constructor
      · intro idx hclaim
        by_cases hlist : ∃ j, ListClaims ctx onlyAlive ranking c.rank c.entry.id j
        · obtain ⟨j,hj⟩ := hlist
          have hfile := (himported j hj).file.symm.trans (hwins.imported idx hclaim).file
          exact ⟨j,hj,by simpa using hfile⟩
        · obtain ⟨⟨d,-,-,-,hd⟩,-⟩ := howned (not_exists.1 hlist)
          have hnot := (hwins.imported idx hclaim).imported
          rw [hd.notImported] at hnot
          cases hnot
      · intro j hj
        by_contra hnone
        obtain ⟨⟨d,-,-,-,hd⟩,-⟩ := hwins.owned (not_exists.1 hnone)
        have hnot := (himported j hj).imported
        rw [hd.notImported] at hnot
        cases hnot
    · intro hdecide
      constructor
      · intro idx hclaim
        obtain ⟨j,hj,hprovider⟩ := hdecide.claimed idx hclaim
        rw [← hprovider]
        exact himported j hj
      · intro hnone
        apply howned
        intro j hj
        obtain ⟨idx,hclaim⟩ := hdecide.exported j hj
        exact hnone idx hclaim

theorem one_name_lookup {name : Name} {id : SymbolId}
    (h : (if name = [0x5f] then some 0 else none) = some id) :
    ([[0x5f]] : List Name)[id]? = some name := by
  split at h
  · next heq =>
    cases h
    rw [heq]
    rfl
  · cases h

/-- A symbol that a first object defines weak and a second one strong. -/
def weakThenStrong : Context where
  objs := [
    { priority := 1, isReachable := true
      syms := [{ msym := { type := 0x0f, sect := 1, desc := 0x80 }, id := 0, subsec := some 0 }] },
    { priority := 2, isReachable := true
      syms := [{ msym := { type := 0x0f, sect := 1 }, id := 0, subsec := some 1 }] }]
  isecs := [{ file := 0 },{ file := 1 }]
  symbols := {
    names := [[0x5f]]
    lookup := fun name => if name = [0x5f] then some 0 else none
    lookup_name := @one_name_lookup }

theorem least_rank_wins_strong :
    ∃ ranking after, DylibRanking.new weakThenStrong.dylibs 1 = some ranking ∧
      Nonempty (PassRun weakThenStrong true ranking (fun _ => {}) after) ∧
      (after 0).file = some (.obj 1) := by
  obtain ⟨ranking,hranking⟩ : ∃ ranking, DylibRanking.new weakThenStrong.dylibs 1 = some ranking :=
    ⟨_,rfl⟩
  obtain ⟨after,⟨run⟩⟩ := exists_pass weakThenStrong true ranking fun _ => {}
  have hlinked : Linked weakThenStrong ranking := by
    refine ⟨⟨?_,by decide⟩,by decide,fun _ => rfl,⟨0,1,hranking⟩⟩
    intro i j obj obj' hi hj hpriority
    match i, j with
    | 0, 0 | 1, 1 => rfl
    | 0, 1 | 1, 0 => cases hi; cases hj; cases hpriority
    | i+2, _ => cases hi
    | _, j+2 => cases hj
  have hcollected : Collected weakThenStrong := by
    intro d hd
    cases hd
  have htasks : ∀ j, ∀ d ∈ tasks weakThenStrong true j, 2 ≤ d.rank ∧
      (d.rank = 2 → d.objIdx = 1 ∧ d.entry.msym.ty = nSect ∧ Entry.discarded d.entry = false) := by
    intro j
    match j with
    | 0 => decide
    | 1 => decide
    | j+2 =>
      intro d hd
      cases hd
  have hno : ∀ idx, ¬ DylibClaims weakThenStrong true ranking 2 0 idx := by
    rintro idx ⟨⟨-,⟨-,d,hd,-⟩,-⟩,-⟩
    cases hd
  have hwins := ((least_rank_wins hlinked run).2 1
    { obj := weakThenStrong.objs[1], objIdx := 1, entry := weakThenStrong.objs[1].syms[0], rank := 2 }
    List.mem_cons_self (fun j d hd _ => (htasks j d hd).1)
    (fun j d hd _ hrank => ((htasks j d hd).2 hrank).2.2)).2 (collected_decide hcollected 2 0)
  obtain ⟨d,hd,-,hrank,howned⟩ := (hwins.owned hno).1
  obtain ⟨hidx,hty,-⟩ := (htasks 1 d hd).2 hrank
  refine ⟨ranking,after,hranking,⟨run⟩,?_⟩
  have hfile := howned.file
  have hsect : nSect ≠ nUndf := by decide
  rw [if_neg (fun h => hsect (hty.symm.trans h.1)), hidx] at hfile
  exact hfile

def joinedDylib : DylibFile where
  path := []
  installName := [0x61]
  priority := 1
  exports := {[0x5f]}
  symbolsSeen := some 1

/-- An archive's two members, one that refers to a symbol and one that defines
it, and a dylib before them that exports the symbol since a library joined it,
with the list it had before. -/
def staleList : Context where
  objs := [
    { priority := 2, isReachable := false, syms := [{ msym := { type := 0x01 }, id := 0 }] },
    { priority := 3, isReachable := false
      syms := [{ msym := { type := 0x0f, sect := 1 }, id := 0, subsec := some 0 }] }]
  isecs := [{ file := 1 }]
  dylibs := [joinedDylib]
  symbols := {
    names := [[0x5f]]
    lookup := fun name => if name = [0x5f] then some 0 else none
    lookup_name := @one_name_lookup }

/-- The dylib comes before the definition, and the symbol is not its import. -/
theorem stale_list_loses : ∃ ranking after,
    DylibRanking.new staleList.dylibs 2 = some ranking ∧ Linked staleList ranking ∧
    Nonempty (PassRun staleList false ranking (fun _ => {}) after) ∧
    ∃ c ∈ tasks staleList false 1,
      (∀ j, ∀ d ∈ tasks staleList false j, d.entry.id = c.entry.id →
        c.rank ≤ d.rank ∧ Entry.discarded d.entry = false) ∧
      DylibClaims staleList false ranking c.rank c.entry.id 0 ∧
      (after c.entry.id).isImported = false := by
  obtain ⟨ranking,hranking,hcount,hrank⟩ : ∃ ranking,
      DylibRanking.new staleList.dylibs 2 = some ranking ∧ ranking.count = 1 ∧
      ranking.ranks 0 = 2 <<< 40 ||| 1 := ⟨_,rfl,rfl,by decide +kernel⟩
  obtain ⟨after,⟨run⟩⟩ := exists_pass staleList false ranking fun _ => {}
  have hlinked : Linked staleList ranking := by
    refine ⟨⟨?_,by decide⟩,by decide,?_,⟨1,2,hranking⟩⟩
    · intro i j obj obj' hi hj hpriority
      match i, j with
      | 0, 0 | 1, 1 => rfl
      | 0, 1 | 1, 0 => cases hi; cases hj; cases hpriority
      | i+2, _ => cases hi
      | _, j+2 => cases hj
    · intro h
      cases h
  obtain ⟨c,hc⟩ : ∃ c, c = ({ obj := staleList.objs[1], objIdx := 1
                              entry := staleList.objs[1].syms[0], rank := 2 <<< 40 ||| 3 } : Candidate) :=
    ⟨_,rfl⟩
  have hmem : c ∈ tasks staleList false 1 := by
    rw [hc]
    exact List.mem_cons_self
  have htasks : ∀ j, ∀ d ∈ tasks staleList false j,
      2 <<< 40 ||| 3 ≤ d.rank ∧ Entry.discarded d.entry = false := by
    intro j
    match j with
    | 0 => decide
    | 1 => decide
    | j+2 =>
      intro d hd
      cases hd
  have hclaims : DylibClaims staleList false ranking c.rank c.entry.id 0 := by
    rw [hc]
    refine ⟨⟨?_,⟨rfl,_,rfl,(by decide : ([0x5f] : Symbols.Name) ∈ joinedDylib.exports)⟩,?_⟩,
      by decide,Or.inr (by decide),by decide,?_⟩
    · refine mem_order.2 ⟨Nat.le_refl 0,by omega,?_⟩
      rw [hrank]
      decide
    · intro j hj _
      have hlt := (mem_order.1 hj).2.1
      exact Or.inl (by omega)
    · rw [hrank]
      decide
  have hnone : ∀ idx, ¬ ListClaims staleList false ranking c.rank c.entry.id idx := by
    rintro idx ⟨⟨-,⟨d,hd,hcarries⟩,-⟩,-⟩
    have hd' : d = joinedDylib := List.mem_singleton.1 (List.mem_of_getElem? hd)
    subst hd'
    rcases hcarries with ⟨seen,-,hid⟩ | ⟨hseen,-⟩
    · cases hid
    · have hle := hseen 1 rfl
      rw [hc] at hle
      exact absurd hle (by decide)
  have hobj : c.objIdx = 1 := by rw [hc]
  have hrank' : c.rank = 2 <<< 40 ||| 3 := by rw [hc]
  obtain ⟨-,howned⟩ := least_listed hlinked run (c := c) (by rw [hobj]; exact hmem)
    (fun j d hd _ => by rw [hrank']; exact (htasks j d hd).1)
    (fun j d hd _ _ => (htasks j d hd).2)
  obtain ⟨⟨d,-,-,-,hd⟩,-⟩ := howned hnone
  refine ⟨ranking,after,hranking,hlinked,⟨run⟩,c,hmem,?_,hclaims,hd.notImported⟩
  intro j d hd _
  rw [hrank']
  exact htasks j d hd

end MoldMacho.ResolveSymbols
