import MoldMacho.Passes.LaterDylibs
import MoldMacho.Passes.LeastRank

/-!
# Dylibs that come after resolution

The dylibs that auto-link options add last claim only what the final round left
undefined, where a round that ranks them too would weigh their exports against
the rest. The symbols are the global ones, those a race is about.
-/

set_option autoImplicit false

namespace MoldMacho.ResolveSymbols
open MoldMacho.InputSections (InputSection)
open MoldMacho.Macho MoldMacho.Symbols MoldMacho.Definitions MoldMacho.DylibRanks
open MoldMacho.Dylibs (DylibFile)
open MoldMacho.Interleave

/-- A symbol for a resolution round to start over with. -/
def clearSymbol (sym : Symbol) : Symbol :=
  let sym := { sym with isWeakRef := false, isStrongRef := false }
  if sym.file.isSome || sym.isCommon then
    { sym with
      file := none, inputSection := none, value := 0, isWeakDef := false, isPrivateExtern := false
      isImported := false, isCommon := false, commonP2align := 0, noDeadStrip := false
      isReferencedDynamically := false, isAltEntry := false }
  else sym

section Claim
variable (ctx : Context)

def claimNewDylib (providers : ℕ → List ℕ) (order : List ℕ) (exporters : SymbolId → ℕ)
    (id : SymbolId) (sym : Symbol) : Symbol :=
  let key := exporters id
  if key = noExporter ∨ sym.isUsed = false ∨ sym.isDefined then sym
  else importFromDylib ctx.dylibs providers (exporterOf order key) (ctx.symbols.name id) sym

/-- The claims of the dylibs from `first` on, with the symbols before and after
them. -/
structure ClaimNewDylibs (ranking : DylibRanking) (first : ℕ)
    (before after : SymbolId → Symbol) where
  exporters : SymbolId → ℕ
  race : FirstExporters ctx (collectDylibSymbols ctx)
    (dylibSearchOrder ranking.count ranking.ranks first) exporters
  result : after = fun id =>
    claimNewDylib ctx ranking.providers (dylibSearchOrder ranking.count ranking.ranks first)
      exporters id (before id)

end Claim

/-- Who owns a symbol, and whether it is an import or common. -/
def verdict (sym : Symbol) : Option FileId × Bool × Bool := (sym.file,sym.isImported,sym.isCommon)

theorem verdict_imported {sym sym' : Symbol} {owner : ℕ} (h : Imported sym owner)
    (h' : Imported sym' owner) : verdict sym = verdict sym' := by
  rw [verdict, verdict, h.file, h'.file, h.imported, h'.imported, h.notCommon, h'.notCommon]

theorem clear_file (sym : Symbol) : (clearSymbol sym).file = none := by
  cases hfile : sym.file <;> cases hcommon : sym.isCommon <;> simp [clearSymbol, hfile, hcommon]

theorem clear_verdict {sym : Symbol} (hfile : sym.file = none) (hcommon : sym.isCommon = false) :
    verdict (clearSymbol sym) = verdict sym := by
  simp [clearSymbol, verdict, hfile, hcommon]

theorem clear_common (sym : Symbol) : (clearSymbol sym).isCommon = false := by
  cases hfile : sym.file <;> cases hcommon : sym.isCommon <;> simp [clearSymbol, hfile, hcommon]

/-! ## The claims of the objects -/

theorem claim_verdict (isecs : List InputSection) (obj : ObjectFile) (entry : Entry) (objIdx : ℕ)
    (sym sym' : Symbol) :
    verdict (claimDefinition isecs obj entry objIdx sym).1 =
      verdict (claimDefinition isecs obj entry objIdx sym').1 := by
  simp only [claimDefinition]
  split
  · rfl
  · split
    · split <;> rfl
    · split <;> rfl

theorem fold_verdict_same (isecs : List InputSection) (cs : List Candidate) {slot slot' : Slot}
    (hbest : slot.best = slot'.best) (hv : verdict slot.sym = verdict slot'.sym) :
    (cs.foldl (claimOne isecs) slot).best = (cs.foldl (claimOne isecs) slot').best ∧
    verdict (cs.foldl (claimOne isecs) slot).sym =
      verdict (cs.foldl (claimOne isecs) slot').sym := by
  induction cs generalizing slot slot' with
  | nil => exact ⟨hbest,hv⟩
  | cons c cs ih =>
    rw [List.foldl_cons, List.foldl_cons]
    by_cases hc : slot.best = c.rank
    · have hc' : slot'.best = c.rank := hbest.symm.trans hc
      rw [claimOne, claimOne, if_pos hc, if_pos hc', hc, hc']
      exact ih rfl (claim_verdict _ _ _ _ _ _)
    · have hc' : ¬ slot'.best = c.rank := fun h => hc (hbest.trans h)
      rw [claimOne, claimOne, if_neg hc, if_neg hc']
      exact ih hbest hv

/-- What the claims leave of a symbol does not depend on what it was, unless
they leave it alone. -/
theorem fold_verdict (isecs : List InputSection) (cs : List Candidate) (slot slot' : Slot)
    (hbest : slot.best = slot'.best) :
    (cs.foldl (claimOne isecs) slot).best = (cs.foldl (claimOne isecs) slot').best ∧
    (verdict (cs.foldl (claimOne isecs) slot).sym = verdict (cs.foldl (claimOne isecs) slot').sym ∨
      cs.foldl (claimOne isecs) slot = slot ∧ cs.foldl (claimOne isecs) slot' = slot') := by
  induction cs with
  | nil => exact ⟨hbest,Or.inr ⟨rfl,rfl⟩⟩
  | cons c cs ih =>
    rw [List.foldl_cons, List.foldl_cons]
    by_cases hc : slot.best = c.rank
    · have hc' : slot'.best = c.rank := hbest.symm.trans hc
      rw [claimOne, claimOne, if_pos hc, if_pos hc', hc, hc']
      apply And.imp_right Or.inl
      exact fold_verdict_same isecs cs rfl (claim_verdict _ _ _ _ _ _)
    · have hc' : ¬ slot'.best = c.rank := fun h => hc (hbest.trans h)
      rw [claimOne, claimOne, if_neg hc, if_neg hc']
      exact ih

/-- What the claims of the live objects leave of a symbol: its owner, or none if
it is undefined or common. -/
def Settled (slot : Slot) : Prop :=
  slot.best < 2 <<< 40 ∧ (∃ i, slot.sym.file = some (.obj i)) ∨
    4 <<< 40 ≤ slot.best ∧ slot.sym.file = none

section Settle
variable {ctx : Context} {i : ℕ} {c : Candidate}
variable (hp2align : ∀ isec ∈ ctx.isecs, isec.p2align < 64)
include hp2align

theorem weak_term_lt (obj : ObjectFile) (entry : Entry) (cls : ℕ) :
    weakTerm ctx.isecs obj entry cls < 2^8 := by
  rw [weakTerm]
  split
  · split
    · next isec hisec =>
      obtain ⟨sub,-,hsub⟩ := Option.bind_eq_some_iff.1 hisec
      have hat := (InputSections.p2align_at_le isec entry.msym.value).trans_lt
        (hp2align isec (List.mem_of_getElem? hsub))
      have hlow : sub64 63 (isec.p2alignAt entry.msym.value) < 2^8 := by
        rw [sub64]
        omega
      have hbit (b : Bool) {k : ℕ} (hk : k < 8) : b.toNat <<< k < 2^8 := by
        rw [Nat.shiftLeft_eq]
        have hpow : 2^k ≤ 2^7 := Nat.pow_le_pow_right (by decide) (by omega)
        cases b <;> simp only [Bool.toNat_true, Bool.toNat_false] <;> omega
      exact Nat.or_lt_two_pow (Nat.or_lt_two_pow (hbit _ (by decide)) (hbit _ (by decide))) hlow
    · decide
  · decide

/-- A definition of a live object ranks before every dylib's export, or is a
tentative one and ranks after them. -/
theorem live_rank (hc : c ∈ tasks ctx true i) :
    c.rank < 2 <<< 40 ∧ c.entry.msym.ty ≠ nUndf ∨
      4 <<< 40 ≤ c.rank ∧ c.entry.msym.ty = nUndf ∧ c.obj.isReachable = true := by
  obtain ⟨-,-,-,hrank,hlive⟩ := mem_tasks hc
  have hlive := hlive rfl
  obtain ⟨-,-,cls,hcls,hrank⟩ := definition_rank_some hrank
  have hterm := weak_term_lt hp2align c.obj c.entry cls
  have hpriority : c.obj.priority.toNat < 2^40 :=
    c.obj.priority.toNat_lt.trans (by decide)
  have hfour := (class_type hcls).2.1
  by_cases hcls4 : cls = 4
  · right
    rw [hrank, hcls4]
    exact ⟨Nat.left_le_or.trans Nat.left_le_or,hfour.1 hcls4⟩
  · left
    have hcls1 : cls < 2 := by
      simp only [definitionClass, hlive] at hcls
      split at hcls
      · split at hcls <;> cases hcls <;> first | decide | simp_all
      · split at hcls
        · cases hcls
          exact absurd rfl hcls4
        · cases hcls
    have hphase : phase c.obj ctx.autolinkPriority cls = 0 := by
      rw [phase, if_neg]
      omega
    have hmid : ((weakTerm ctx.isecs c.obj c.entry cls ||| 0) <<< 32) % 2^64 < 2^41 := by
      rw [Nat.or_zero, Nat.shiftLeft_eq]
      omega
    have hhigh : cls <<< 40 < 2^41 := by
      rw [Nat.shiftLeft_eq]
      omega
    constructor
    · rw [hrank, hphase]
      exact Nat.or_lt_two_pow (Nat.or_lt_two_pow hhigh hmid) (hpriority.trans (by decide))
    · intro hty
      exact hcls4 (hfour.2 ⟨hty,hlive⟩)

theorem settled_step {slot : Slot} (hc : c ∈ tasks ctx true i) (hbest : slot.best = c.rank) :
    Settled (claimOne ctx.isecs slot c) := by
  have hsa : nSect ≠ nAbs := by decide
  rw [claimOne, if_pos hbest]
  cases hd : Entry.discarded c.entry with
  | true =>
    right
    have hty : c.entry.msym.ty = nSect ∧ c.entry.subsec = none := by
      simpa [Entry.discarded] using hd
    have hmax : 4 <<< 40 ≤ rankMax := by decide
    exact ⟨hmax,by simp [claimDefinition, symbolSubsec, hty, hsa]⟩
  | false =>
    obtain ⟨-,-,-,hrank,-⟩ := mem_tasks hc
    obtain ⟨-,-,cls,hcls,-⟩ := definition_rank_some hrank
    have hfile := (claim_owned ctx.isecs slot.sym hcls hd).1.file
    rcases live_rank hp2align hc with ⟨hlt,hty⟩ | ⟨hge,hty⟩
    · left
      rw [if_neg (fun h => hty h.1)] at hfile
      exact ⟨by simpa [hbest] using hlt,c.objIdx,hfile⟩
    · right
      rw [if_pos hty] at hfile
      exact ⟨by simpa [hbest] using hge,hfile⟩

theorem settled_fold {cs : List Candidate} {slot : Slot} (hcs : ∀ c ∈ cs, c ∈ tasks ctx true i)
    (h : Settled slot ∨ ∃ c ∈ cs, slot.best = c.rank) :
    Settled (cs.foldl (claimOne ctx.isecs) slot) := by
  induction cs generalizing slot with
  | nil =>
    rcases h with h | ⟨c,hc,-⟩
    · exact h
    · cases hc
  | cons c cs ih =>
    rw [List.forall_mem_cons] at hcs
    rw [List.foldl_cons]
    apply ih hcs.2
    by_cases hbest : slot.best = c.rank
    · exact Or.inl (settled_step hp2align hcs.1 hbest)
    · rw [claimOne, if_neg hbest]
      rcases h with h | ⟨d,hd,hrank⟩
      · exact Or.inl h
      · rcases List.mem_cons.1 hd with rfl | hd
        · exact absurd hrank hbest
        · exact Or.inr ⟨d,hd,hrank⟩

end Settle

/-! ## Two rounds over the same objects -/

section Rounds
variable {ctx : Context} {onlyAlive : Bool} {best best' : SymbolId → ℕ}

theorem race_unique (h : RaceDefinitions ctx onlyAlive best)
    (h' : RaceDefinitions ctx onlyAlive best') (id : SymbolId) : best id ≤ best' id := by
  rcases best_eq h' id with hmax | ⟨i,c,hc,rfl,hrank⟩
  · rw [hmax]
    obtain ⟨done,hrun,rfl⟩ := h
    exact race_le hrun id
  · rw [hrank]
    exact best_le h hc

variable (hp : Priorities ctx)
include hp

/-- The claims on a symbol are those of one object, whatever the symbols were. -/
theorem claim_run_fold (hrace : RaceDefinitions ctx onlyAlive best) (id : SymbolId) :
    ∃ (cs : List Candidate) (i : ℕ), (∀ c ∈ cs, c ∈ tasks ctx onlyAlive i) ∧
      (best id = rankMax ∨ ∃ c ∈ cs, best id = c.rank) ∧
      ∀ syms claimed, Run (claimTasks ctx) (claimStart ctx onlyAlive best syms) claimed →
        claimed.slots id = cs.foldl (claimOne ctx.isecs) { best := best id, sym := syms id } := by
  rcases best_eq hrace id with hmax | ⟨i,c,hc,rfl,hrank⟩
  · refine ⟨[],0,by simp,Or.inl hmax,?_⟩
    intro syms claimed hrun
    have hidle (j : ℕ) : Idle (claimTasks ctx) (Fits (best id)) id
        ((claimStart ctx onlyAlive best syms).left j) := by
      intro bt hbt _ slot hslot
      obtain ⟨d,hd,rfl⟩ := List.mem_map.1 hbt
      have hslot' : slot.best = rankMax := by
        rcases hslot with h | h
        · exact h.trans hmax
        · exact h
      have hne : slot.best ≠ d.rank := by
        rw [hslot']
        exact (rank_lt_max hp hd).ne'
      simp only [claimTasks, claimAccess, hne, if_false]
    have hsolo := run_solo (P := Fits (best id)) (s := id)
      (fun d stage slot _ h => fits_access _ d stage slot h) hrun 0 (fun j _ => hidle j)
      (Or.inl rfl)
    rw [start_left_on] at hsolo
    rw [solo_unique hsolo (solo_claims ctx _ _)]
    apply fold_claims_none
    intro d hd
    have hmem := (List.mem_filter.1 hd).1
    have hne : best id ≠ d.rank := by
      rw [hmax]
      exact (rank_lt_max hp hmem).ne'
    exact hne
  · refine ⟨(tasks ctx onlyAlive i).filter fun d => d.entry.id = c.entry.id,i,?_,?_,?_⟩
    · exact fun d hd => (List.mem_filter.1 hd).1
    · exact Or.inr ⟨c,List.mem_filter.2 ⟨hc,decide_eq_true rfl⟩,hrank⟩
    · exact fun syms claimed hrun => claim_run_slot hp hrun hc hrank

/-- Two rounds of claims leave a symbol with one best rank and verdict, unless
they leave it alone. -/
theorem claim_runs_agree (hrace : RaceDefinitions ctx onlyAlive best)
    (hrace' : RaceDefinitions ctx onlyAlive best') {syms syms' : SymbolId → Symbol}
    {claimed claimed' : Config ℕ SymbolId Candidate Stage Slot}
    (hrun : Run (claimTasks ctx) (claimStart ctx onlyAlive best syms) claimed)
    (hrun' : Run (claimTasks ctx) (claimStart ctx onlyAlive best' syms') claimed')
    (id : SymbolId) :
    (claimed.slots id).best = (claimed'.slots id).best ∧
    (verdict (claimed.slots id).sym = verdict (claimed'.slots id).sym ∨
      (claimed.slots id).sym = syms id ∧ (claimed'.slots id).sym = syms' id) := by
  obtain rfl : best = best' := by
    funext id
    exact le_antisymm (race_unique hrace hrace' id) (race_unique hrace' hrace id)
  obtain ⟨cs,-,-,-,hfold⟩ := claim_run_fold hp hrace id
  rw [hfold _ _ hrun, hfold _ _ hrun']
  obtain ⟨hbest,hv⟩ := fold_verdict ctx.isecs cs { best := best id, sym := syms id }
    { best := best id, sym := syms' id } rfl
  refine ⟨hbest,hv.imp_right fun h => ?_⟩
  rw [h.1, h.2]
  exact ⟨rfl,rfl⟩

theorem claim_run_settled (hp2align : ∀ isec ∈ ctx.isecs, isec.p2align < 64)
    (hrace : RaceDefinitions ctx true best) {syms : SymbolId → Symbol}
    {claimed : Config ℕ SymbolId Candidate Stage Slot}
    (hrun : Run (claimTasks ctx) (claimStart ctx true best syms) claimed) {id : SymbolId}
    (hclear : (syms id).file = none) : Settled (claimed.slots id) := by
  obtain ⟨cs,i,hcs,hbest,hfold⟩ := claim_run_fold hp hrace id
  rw [hfold _ _ hrun]
  apply settled_fold hp2align hcs
  rcases hbest with hmax | hrank
  · left
    right
    have hle : 4 <<< 40 ≤ rankMax := by decide
    exact ⟨hle.trans hmax.ge,hclear⟩
  · exact Or.inr hrank

theorem claim_run_best (hrace : RaceDefinitions ctx onlyAlive best) {syms : SymbolId → Symbol}
    {claimed : Config ℕ SymbolId Candidate Stage Slot}
    (hrun : Run (claimTasks ctx) (claimStart ctx onlyAlive best syms) claimed) (id : SymbolId) :
    best id ≤ (claimed.slots id).best := by
  obtain ⟨cs,-,-,-,hfold⟩ := claim_run_fold hp hrace id
  have hmax : best id ≤ rankMax := by
    obtain ⟨done,hraced,rfl⟩ := hrace
    exact race_le hraced id
  have hfits (cs : List Candidate) (slot : Slot) (h : Fits (best id) slot) :
      Fits (best id) (cs.foldl (claimOne ctx.isecs) slot) := by
    induction cs generalizing slot with
    | nil => exact h
    | cons c cs ih =>
      apply ih
      rw [claimOne]
      split
      · cases Entry.discarded c.entry with
        | false => exact h
        | true => exact Or.inr rfl
      · exact h
  rw [hfold _ _ hrun]
  rcases hfits cs { best := best id, sym := syms id } (Or.inl rfl) with h | h
  · exact h.ge
  · rw [h]
    exact hmax

end Rounds

/-! ## The exporters among all dylibs -/

/-- The ranking of the first `num` dylibs of a link, and that of all of them
once ones that have nothing to do with those are added. -/
structure Extended (ctx : Context) (num : ℕ) (old all : DylibRanking) : Prop where
  apart : Apart ctx.dylibs num
  narrow : Narrow ctx.dylibs
  old : ∃ fuel, DylibRanking.new (ctx.dylibs.take num) fuel = some old
  all : ∃ fuel, DylibRanking.new ctx.dylibs fuel = some all

section Order
variable {ctx : Context} {ranks : ℕ → ℕ} {id : SymbolId} {i j k : ℕ}

theorem export_before_trans (h : ExportBefore ctx ranks id i j) (h' : ExportBefore ctx ranks id j k) :
    ExportBefore ctx ranks id i k := by
  simp only [ExportBefore, Before] at *
  rcases h with ⟨hi,hj⟩ | ⟨hw,hlt⟩ <;> rcases h' with ⟨hj',hk⟩ | ⟨hw',hlt'⟩
  · exact Or.inl ⟨hi,hk⟩
  · exact Or.inl ⟨hi,hw'.symm.trans hj⟩
  · exact Or.inl ⟨hw.trans hj',hk⟩
  · exact Or.inr ⟨hw.trans hw',by omega⟩

theorem export_before_total (h : i ≠ j) :
    ExportBefore ctx ranks id i j ∨ ExportBefore ctx ranks id j i := by
  simp only [ExportBefore, Before]
  have htotal : (ranks i < ranks j ∨ ranks i = ranks j ∧ i < j) ∨
      (ranks j < ranks i ∨ ranks j = ranks i ∧ j < i) := by omega
  cases exportsWeak ctx i id <;> cases exportsWeak ctx j id <;> simp [htotal]

end Order

section Exporters
variable {ctx : Context} {num : ℕ} {old all : DylibRanking} {id : SymbolId}
variable (hext : Extended ctx num old all)
include hext

theorem Extended.counts : old.count = min num ctx.dylibs.length ∧ all.count = ctx.dylibs.length := by
  obtain ⟨fuel,hold⟩ := hext.old
  obtain ⟨fuel',hall⟩ := hext.all
  obtain ⟨-,-,rfl⟩ := Option.map_eq_some_iff.1 hold
  obtain ⟨-,-,rfl⟩ := Option.map_eq_some_iff.1 hall
  exact ⟨List.length_take,rfl⟩

theorem Extended.ranks : SameOrder num all.ranks old.ranks := by
  obtain ⟨fuel,hold⟩ := hext.old
  obtain ⟨fuel',hall⟩ := hext.all
  obtain ⟨ranks,hranks,rfl⟩ := Option.map_eq_some_iff.1 hold
  obtain ⟨ranks',hranks',rfl⟩ := Option.map_eq_some_iff.1 hall
  exact dylib_ranks_same hext.narrow hext.apart hranks' hranks

theorem Extended.provides (name : Dylibs.Name) {idx : ℕ} (hidx : idx < num) :
    providingDylib ctx.dylibs old.providers idx name =
      providingDylib ctx.dylibs all.providers idx name := by
  obtain ⟨fuel,hold⟩ := hext.old
  obtain ⟨fuel',hall⟩ := hext.all
  obtain ⟨ranks,-,rfl⟩ := Option.map_eq_some_iff.1 hold
  obtain ⟨ranks',-,rfl⟩ := Option.map_eq_some_iff.1 hall
  exact providing_dylib_earlier hext.apart name hidx

theorem Extended.before {i j : ℕ} (hi : i < num) (hj : j < num) :
    ExportBefore ctx all.ranks id i j ↔ ExportBefore ctx old.ranks id i j := by
  have h := hext.ranks
  have hbefore : Before all.ranks i j ↔ Before old.ranks i j := by
    have hpi := h.phase i hi
    have hpj := h.phase j hj
    have hij := h.lt i hi j hj
    have hji := h.lt j hj i hi
    simp only [Before]
    omega
  rw [ExportBefore, ExportBefore, hbefore]

theorem Extended.mem_order {idx : ℕ} :
    idx ∈ dylibSearchOrder all.count all.ranks 0 ↔
      idx ∈ dylibSearchOrder old.count old.ranks 0 ∨
      idx ∈ dylibSearchOrder all.count all.ranks num := by
  obtain ⟨hold,hall⟩ := hext.counts
  rw [ResolveSymbols.mem_order, ResolveSymbols.mem_order, ResolveSymbols.mem_order, hold, hall]
  by_cases hidx : idx < num
  · have h := hext.ranks.unranked idx hidx
    rw [ne_eq, ne_eq, h]
    omega
  · omega

theorem Extended.old_lt {idx : ℕ} (h : idx ∈ dylibSearchOrder old.count old.ranks 0) : idx < num := by
  have hlt := (ResolveSymbols.mem_order.1 h).2.1
  rw [hext.counts.1] at hlt
  omega

theorem first_all_earlier {o : ℕ}
    (ho : IsFirst ctx old.ranks (dylibSearchOrder old.count old.ranks 0) id o)
    (hnew : ∀ j ∈ dylibSearchOrder all.count all.ranks num, Exports ctx j id →
      ExportBefore ctx all.ranks id o j) :
    IsFirst ctx all.ranks (dylibSearchOrder all.count all.ranks 0) id o where
  mem := hext.mem_order.2 (Or.inl ho.mem)
  exports := ho.exports
  first := by
    intro j hj hexp
    rcases hext.mem_order.1 hj with hj | hj
    · exact (ho.first j hj hexp).imp_right
        (hext.before (hext.old_lt ho.mem) (hext.old_lt hj)).2
    · exact Or.inr (hnew j hj hexp)

theorem first_all_later {e : ℕ}
    (he : IsFirst ctx all.ranks (dylibSearchOrder all.count all.ranks num) id e)
    (hold : ∀ j ∈ dylibSearchOrder old.count old.ranks 0, Exports ctx j id →
      ExportBefore ctx all.ranks id e j) :
    IsFirst ctx all.ranks (dylibSearchOrder all.count all.ranks 0) id e where
  mem := hext.mem_order.2 (Or.inr he.mem)
  exports := he.exports
  first := by
    intro j hj hexp
    rcases hext.mem_order.1 hj with hj | hj
    · exact Or.inr (hold j hj hexp)
    · exact he.first j hj hexp

end Exporters

/-! ## What the rounds and the late claims make of a symbol -/

/-- An export of a dylib may claim a symbol that no object owns. -/
structure Claimable (ctx : Context) (id : SymbolId) : Prop where
  visible : ctx.args.commonsUseDylibs = true ∨ ∀ common ∈ liveCommonSymbols ctx, common.id ≠ id
  notDtrace : isDtraceSymbol (ctx.symbols.name id) = false

section Round
variable {ctx : Context} {ranking : DylibRanking} {before after : SymbolId → Symbol}
variable {id : SymbolId}

theorem claims_none {rank : ℕ}
    (h : ¬ ((collectReferences ctx true).used id = true ∧ Claimable ctx id)) (idx : ℕ) :
    ¬ DylibClaims ctx true ranking rank id idx :=
  fun hclaim => h ⟨hclaim.used,hclaim.visible,hclaim.notDtrace⟩

variable (run : PassRun ctx true ranking before after)
include run

theorem pass_used : (after id).isUsed = (collectReferences ctx true).used id := by
  rw [run.result]

theorem claims_owned (hready : Ready ctx ranking)
    (hslot : (run.claimed.slots id).best < 2 <<< 40) (idx : ℕ) :
    ¬ DylibClaims ctx true ranking (run.claimed.slots id).best id idx := by
  intro h
  have hge := hready.ranks_ge idx
  have hless := h.less
  omega

theorem claims_free (hnarrow : Narrow ctx.dylibs) (hready : Ready ctx ranking)
    (hslot : 4 <<< 40 ≤ (run.claimed.slots id).best) (hclaim : Claimable ctx id)
    (hused : (collectReferences ctx true).used id = true) {idx : ℕ}
    (hfirst : IsFirst ctx ranking.ranks (dylibSearchOrder ranking.count ranking.ranks 0) id idx) :
    DylibClaims ctx true ranking (run.claimed.slots id).best id idx := by
  refine ⟨hfirst,hused,hclaim.visible,hclaim.notDtrace,?_⟩
  obtain ⟨count,fuel,hnew⟩ := hready.ranked
  obtain ⟨ranks,hranks,rfl⟩ := Option.map_eq_some_iff.1 hnew
  have hranked := (mem_order.1 hfirst.mem).2.2
  rcases dylib_ranks_lt (narrow_take hnarrow) hranks idx with hmax | hlt
  · exact absurd hmax hranked
  · dsimp only
    split <;> omega

theorem pass_verdict (hready : Ready ctx ranking)
    (h : ∀ idx, ¬ DylibClaims ctx true ranking (run.claimed.slots id).best id idx) :
    verdict (after id) = verdict (run.claimed.slots id).sym := by
  rw [after_unclaimed hready.toLinked hready.collected.carries run h]
  obtain ⟨weak,strong,used,hframe⟩ := referenced_frame ctx true id (mergedSymbol run id)
  obtain ⟨value,p2align,isPrivate,hmerge⟩ := merge_frame (fun id => (run.claimed.slots id).best) id
    (liveCommonSymbols ctx) fun id => (run.claimed.slots id).sym
  rw [hframe, mergedSymbol, hmerge]
  rfl

end Round

section Late
variable {ctx : Context} {num : ℕ} {ranking : DylibRanking} {before after : SymbolId → Symbol}
variable {id : SymbolId}
variable (hc : Collected ctx) (hcount : ranking.count < weakExport)
variable (late : ClaimNewDylibs ctx ranking num before after)
include hc hcount late

theorem late_unexported
    (h : ∀ idx ∈ dylibSearchOrder ranking.count ranking.ranks num, ¬ Exports ctx idx id) :
    after id = before id := by
  rw [late.result]
  rcases first_exporter hc.carries hcount late.race id with ⟨hnone,-⟩ | ⟨-,idx,hfirst,-⟩
  · simp [claimNewDylib, hnone]
  · exact absurd hfirst.exports (h idx hfirst.mem)

omit hc hcount in
theorem late_kept (h : (before id).isUsed = false ∨ (before id).file.isSome = true) :
    after id = before id := by
  rw [late.result]
  rcases h with h | h <;> simp [claimNewDylib, Symbol.isDefined, h]

theorem late_claimed {idx : ℕ}
    (hfirst : IsFirst ctx ranking.ranks (dylibSearchOrder ranking.count ranking.ranks num) id idx)
    (hused : (before id).isUsed = true) (hfile : (before id).file = none) :
    Imported (after id) (providingDylib ctx.dylibs ranking.providers idx (ctx.symbols.name id)) := by
  rcases first_exporter hc.carries hcount late.race id with ⟨-,hnone⟩ | ⟨hsome,j,hj,hjof,-⟩
  · exact absurd hfirst.exports (hnone idx hfirst.mem)
  · obtain rfl := first_unique hfirst hj
    have hafter : after id = importFromDylib ctx.dylibs ranking.providers idx (ctx.symbols.name id)
        (before id) := by
      rw [late.result]
      simp [claimNewDylib, hsome, hused, Symbol.isDefined, hfile, hjof]
    rw [hafter]
    exact ⟨rfl,rfl,rfl⟩

end Late

end MoldMacho.ResolveSymbols
