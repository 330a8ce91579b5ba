import MoldMacho.Passes.ClaimNewDylibs
import MoldMacho.Passes.MarkLiveObjects

/-!
# What the first round promises

A symbol that an object won in the round over all objects, and that a live
object references, still has a definition that competes in the round over the
live ones: its owner is loaded, or the reference is itself a tentative
definition. It is left without one only if what beats them all was dropped.
-/

set_option autoImplicit false

namespace MoldMacho.ResolveSymbols
open MoldMacho.InputSections (InputSection)
open MoldMacho.Macho MoldMacho.Symbols MoldMacho.Definitions MoldMacho.DylibRanks
open MoldMacho.Dylibs (DylibFile)
open MoldMacho.Interleave

/-- A symbol that is a file's or tentative. -/
def Defined (sym : Symbol) : Prop := sym.file.isSome = true ∨ sym.isCommon = true

/-- A symbol that is an object's or tentative. -/
def WonByObject (sym : Symbol) : Prop := (∃ i, sym.file = some (.obj i)) ∨ sym.isCommon = true

/-- No definition with the least rank of a symbol's is in a dropped section. -/
def LeastKept (ctx : Context) (onlyAlive : Bool) (id : SymbolId) : Prop :=
  ∀ i, ∀ c ∈ tasks ctx onlyAlive i, c.entry.id = id →
    (∀ j, ∀ d ∈ tasks ctx onlyAlive j, d.entry.id = id → c.rank ≤ d.rank) →
    Entry.discarded c.entry = false

/-- The last rounds of a link: over all the objects, the walk from the live
ones, and once the libraries that these name are there, over the live ones. -/
structure LastRounds (ctx : Context) where
  priorities : Priorities ctx
  ranking : DylibRanking
  ranked : ∃ fuel, DylibRanking.new ctx.dylibs fuel = some ranking
  before : SymbolId → Symbol
  resolved : SymbolId → Symbol
  after : SymbolId → Symbol
  first : PassRun ctx false ranking (fun id => clearSymbol (before id)) resolved
  marked : Walk
  loads : Marked ctx resolved marked
  dylibs : List DylibFile
  autolinkPriority : ℕ
  last : PassRun
    { ctx with objs := marked.objs, whyLoad := marked.whyLoad, dylibs, autolinkPriority } true
    ranking (fun id => clearSymbol (resolved id)) after

/-- The link as the last round finds it. -/
def LastRounds.link {ctx : Context} (rounds : LastRounds ctx) : Context :=
  { ctx with
    objs := rounds.marked.objs, whyLoad := rounds.marked.whyLoad, dylibs := rounds.dylibs
    autolinkPriority := rounds.autolinkPriority }

/-! ## Candidates -/

theorem rank_some_iff {isecs : List InputSection} {obj : ObjectFile} {entry : Entry}
    {autolinkPriority : ℕ} :
    (∃ rank, definitionRank isecs obj entry autolinkPriority = some rank) ↔
      entry.msym.isStab = false ∧ entry.msym.isExtern = true ∧
      ((entry.msym.ty = nSect ∨ entry.msym.ty = nAbs) ∨
        entry.msym.ty = nUndf ∧ entry.msym.isCommon = true) := by
  rw [← Option.isSome_iff_exists, definitionRank]
  cases hstab : entry.msym.isStab with
  | true => simp
  | false =>
    cases hext : entry.msym.isExtern with
    | false => simp
    | true =>
      simp only [Bool.not_true, Bool.or_self, Bool.false_eq_true, if_false, Option.isSome_map,
        definitionClass, true_and]
      by_cases hty : entry.msym.ty = nSect ∨ entry.msym.ty = nAbs
      · rw [if_pos hty]
        cases obj.isReachable <;> cases entry.msym.has nWeakDef <;> simp [hty]
      · rw [if_neg hty]
        by_cases hcommon : entry.msym.ty = nUndf ∧ entry.msym.isCommon = true
        · rw [if_pos hcommon]
          cases obj.isReachable <;> simp [hcommon]
        · rw [if_neg hcommon]
          simp [hty, hcommon]

theorem tasks_mem {ctx : Context} {onlyAlive : Bool} {i : ℕ} {obj : ObjectFile} {entry : Entry}
    (hobj : ctx.objs[i]? = some obj) (hlive : onlyAlive = true → obj.isReachable = true)
    (hentry : entry ∈ obj.globals)
    (hrank : ∃ rank, definitionRank ctx.isecs obj entry ctx.autolinkPriority = some rank) :
    ∃ c ∈ tasks ctx onlyAlive i, c.entry = entry := by
  obtain ⟨rank,hrank⟩ := hrank
  refine ⟨{ obj, objIdx := i, entry, rank },?_,rfl⟩
  have hconsidered : (!onlyAlive || obj.isReachable) = true := by
    cases onlyAlive with
    | false => rfl
    | true => simp [hlive rfl]
  rw [tasks, hobj]
  simp only [hconsidered, if_true]
  exact List.mem_filterMap.2 ⟨entry,hentry,by rw [hrank]; rfl⟩

/-! ## Whose a symbol is -/

theorem claim_dylib_owner (ctx : Context) (ranking : DylibRanking) (order : List ℕ)
    (used : SymbolId → Bool) (best first : SymbolId → ℕ) (commons : List CommonSym)
    (id : SymbolId) (sym : Symbol) :
    let sym' := claimDylibExport ctx ranking order used best first commons id sym
    sym' = sym ∨ ∃ owner, sym'.file = some (.dylib owner) ∧ sym'.isCommon = false := by
  simp only [claimDylibExport]
  generalize (if weakExport ≤ first id then 1 <<< 40 else 0) = weak
  split
  · exact Or.inl rfl
  · split
    · exact Or.inl rfl
    · split
      · exact Or.inl rfl
      · split
        · exact Or.inl rfl
        · right
          split <;> exact ⟨_,rfl,rfl⟩

section Owner
variable {ctx : Context} {onlyAlive : Bool} {ranking : DylibRanking}
variable {before after : SymbolId → Symbol} (run : PassRun ctx onlyAlive ranking before after)
include run

/-- Between the objects' claims and the dylibs', a symbol stays whose it is. -/
theorem pass_frame (id : SymbolId) :
    ∃ sym, sym.file = (run.claimed.slots id).sym.file ∧
      sym.isCommon = (run.claimed.slots id).sym.isCommon ∧
      after id =
        { (if ctx.args.relocatable then sym
          else claimDylibExport ctx ranking (dylibSearchOrder ranking.count ranking.ranks 0)
            (collectReferences ctx onlyAlive).used (fun id => (run.claimed.slots id).best)
            run.first (liveCommonSymbols ctx) id sym) with
          isUsed := (collectReferences ctx onlyAlive).used id } := by
  obtain ⟨value,p2align,isPrivate,hmerge⟩ := merge_frame
    (fun id => (run.claimed.slots id).best) id (liveCommonSymbols ctx)
    (fun id => (run.claimed.slots id).sym)
  obtain ⟨weak,strong,hrecord⟩ := record_references_frame ctx (collectReferences ctx onlyAlive) id
    (mergedSymbol run id)
  refine ⟨recordReferences ctx (collectReferences ctx onlyAlive) id (mergedSymbol run id),?_,?_,
    congrFun run.result id⟩
  · rw [hrecord, mergedSymbol, hmerge]
  · rw [hrecord, mergedSymbol, hmerge]

/-- After the objects' claims, only a dylib changes whose a symbol is. -/
theorem pass_owner (id : SymbolId) :
    ((after id).file = (run.claimed.slots id).sym.file ∧
      (after id).isCommon = (run.claimed.slots id).sym.isCommon) ∨
    ∃ owner, (after id).file = some (.dylib owner) ∧ (after id).isCommon = false := by
  obtain ⟨sym,hfile,hcommon,hafter⟩ := pass_frame run id
  rw [hafter, ← hfile, ← hcommon]
  split
  · exact Or.inl ⟨rfl,rfl⟩
  · rcases claim_dylib_owner ctx ranking (dylibSearchOrder ranking.count ranking.ranks 0)
      (collectReferences ctx onlyAlive).used (fun id => (run.claimed.slots id).best) run.first
      (liveCommonSymbols ctx) id sym with h | ⟨owner,hfile,hcommon⟩
    · rw [h]
      exact Or.inl ⟨rfl,rfl⟩
    · exact Or.inr ⟨owner,hfile,hcommon⟩

/-- Without dylibs a symbol stays whose the objects make it. -/
theorem pass_no_dylibs (h : ctx.dylibs = []) (id : SymbolId) :
    (after id).file = (run.claimed.slots id).sym.file ∧
      (after id).isCommon = (run.claimed.slots id).sym.isCommon := by
  obtain ⟨sym,hfile,hcommon,hafter⟩ := pass_frame run id
  have hcollected : collectDylibSymbols ctx = [] := by
    rw [collectDylibSymbols, h]
    rfl
  have hfirst : run.first id = noExporter := by
    obtain ⟨done,hrun,hdone⟩ := run.exporters
    rw [hdone]
    rcases race_eq hrun id with heq | ⟨pos,bt,hbt,-⟩
    · exact heq
    · simp only [initial, hcollected, exporting, List.getElem?_nil, List.map_nil] at hbt
      split at hbt <;> cases hbt
  rw [hafter, ← hfile, ← hcommon, claimDylibExport, if_pos (Or.inl hfirst), ite_self]
  exact ⟨rfl,rfl⟩

end Owner

theorem fold_claims_written (isecs : List InputSection) (cs : List Candidate) (slot : Slot) :
    (cs.foldl (claimOne isecs) slot).sym = slot.sym ∨
    ∃ d ∈ cs, ∃ sym, (cs.foldl (claimOne isecs) slot).sym =
      (claimDefinition isecs d.obj d.entry d.objIdx sym).1 := by
  induction cs generalizing slot with
  | nil => exact Or.inl rfl
  | cons c cs ih =>
    rw [List.foldl_cons]
    rcases ih (claimOne isecs slot c) with h | ⟨d,hd,sym,h⟩
    · rw [h, claimOne]
      split
      · exact Or.inr ⟨c,List.mem_cons_self,slot.sym,rfl⟩
      · exact Or.inl rfl
    · exact Or.inr ⟨d,List.mem_cons_of_mem _ hd,sym,h⟩

/-- A winning definition makes the symbol its object's, unless it is tentative
in a live object, or was dropped. -/
theorem claim_owner (isecs : List InputSection) (obj : ObjectFile) (entry : Entry) (objIdx : ℕ)
    (sym : Symbol) :
    let sym' := (claimDefinition isecs obj entry objIdx sym).1
    sym'.file = some (.obj objIdx) ∨
      sym'.file = none ∧ (sym'.isCommon = true → obj.isReachable = true) := by
  simp only [claimDefinition]
  split
  · exact Or.inl rfl
  · split
    · split
      · exact Or.inr ⟨rfl,fun h => absurd h Bool.false_ne_true⟩
      · exact Or.inl rfl
    · split
      · exact Or.inl rfl
      · next hlive => exact Or.inr ⟨rfl,fun _ => by simpa using hlive⟩

/-- A symbol that an object won has a definition in that object, or a tentative
one in a live object. -/
theorem winner_candidate {ctx : Context} (hp : Priorities ctx) {onlyAlive : Bool}
    {ranking : DylibRanking} {before after : SymbolId → Symbol}
    (run : PassRun ctx onlyAlive ranking before after) {id : SymbolId}
    (hfile : (before id).file = none) (hcommon : (before id).isCommon = false)
    (hwon : WonByObject (after id)) :
    ∃ i, ∃ c ∈ tasks ctx onlyAlive i, c.entry.id = id ∧
      ((after id).file = some (.obj i) ∨ c.obj.isReachable = true) := by
  rcases pass_owner run id with ⟨hf,hc⟩ | ⟨owner,hf,hc⟩
  · rw [WonByObject, hf, hc] at hwon
    rw [hf]
    rcases best_eq run.race id with hmax | ⟨i,c,hmem,rfl,hbest⟩
    · obtain ⟨cs,i,hcs,hb,hfold⟩ := claim_run_fold hp run.race id
      have hnone : ∀ c ∈ cs, run.best id ≠ c.rank := by
        intro c hmem
        rw [hmax]
        exact (rank_lt_max hp (hcs c hmem)).ne'
      rw [hfold _ _ run.claims, fold_claims_none _ _ _ hnone] at hwon
      rcases hwon with ⟨i,h⟩ | h
      · exact absurd (hfile.symm.trans h) nofun
      · exact absurd (hcommon.symm.trans h) Bool.false_ne_true
    · have hslot := claim_run_slot hp run.claims hmem hbest
      rcases fold_claims_written ctx.isecs
        ((tasks ctx onlyAlive i).filter fun d => d.entry.id = c.entry.id)
        { best := run.best c.entry.id, sym := before c.entry.id } with hsym | ⟨d,hd,sym,hsym⟩
      · rw [hslot, hsym] at hwon
        rcases hwon with ⟨i,h⟩ | h
        · exact absurd (hfile.symm.trans h) nofun
        · exact absurd (hcommon.symm.trans h) Bool.false_ne_true
      · rw [← hslot] at hsym
        obtain ⟨hdmem,hdid⟩ := List.mem_filter.1 hd
        obtain ⟨-,rfl,-⟩ := mem_tasks hdmem
        refine ⟨d.objIdx,d,hdmem,of_decide_eq_true hdid,?_⟩
        rw [hsym] at hwon ⊢
        rcases claim_owner ctx.isecs d.obj d.entry d.objIdx sym with h | ⟨hnone,hlive⟩
        · exact Or.inl h
        · right
          rcases hwon with ⟨i,h⟩ | h
          · exact absurd (hnone.symm.trans h) nofun
          · exact hlive h
  · rcases hwon with ⟨i,h⟩ | h
    · cases hf.symm.trans h
    · exact absurd (hc.symm.trans h) Bool.false_ne_true

section Least
variable {ctx : Context} (hp : Priorities ctx) {onlyAlive : Bool} {ranking : DylibRanking}
variable {before after : SymbolId → Symbol} (run : PassRun ctx onlyAlive ranking before after)
variable {i : ℕ} {c : Candidate} (hc : c ∈ tasks ctx onlyAlive i)
include hp run hc

/-- A symbol that some object defines has a definition of the best rank. -/
theorem least_candidate :
    ∃ j, ∃ d ∈ tasks ctx onlyAlive j, d.entry.id = c.entry.id ∧ run.best c.entry.id = d.rank ∧
      ∀ k, ∀ e ∈ tasks ctx onlyAlive k, e.entry.id = c.entry.id → d.rank ≤ e.rank := by
  rcases best_eq run.race c.entry.id with hmax | ⟨j,d,hd,hid,hbest⟩
  · have hle := best_le run.race hc
    rw [hmax] at hle
    exact absurd (rank_lt_max hp hc) (not_lt.2 hle)
  · refine ⟨j,d,hd,hid,hbest,?_⟩
    intro k e he heid
    rw [← hbest, ← heid]
    exact best_le run.race he

/-- With none of them dropped, one of its least-ranked definitions makes it. -/
theorem least_owned (hkept : LeastKept ctx onlyAlive c.entry.id) :
    ∃ j, ∃ d ∈ tasks ctx onlyAlive j, d.entry.id = c.entry.id ∧ d.rank ≤ c.rank ∧
      OwnedBy ctx.isecs d (run.claimed.slots c.entry.id).sym := by
  obtain ⟨j,d,hd,hid,hbest,hleast⟩ := least_candidate hp run hc
  have hdc : d.rank ≤ c.rank := hleast i c hc rfl
  rw [← hid] at hbest hkept hleast ⊢
  have hcut : ∀ k, ∀ e ∈ tasks ctx onlyAlive k, e.entry.id = d.entry.id → e.rank = d.rank →
      Entry.discarded e.entry = false := by
    intro k e he heid hrank
    apply hkept k e he heid
    rw [hrank]
    exact hleast
  obtain ⟨-,e,he,heid,herank,sym,hsym⟩ := claim_run_kept hp run.claims hd hbest hcut
  obtain ⟨-,-,-,hrank,-⟩ := mem_tasks he
  obtain ⟨-,-,cls,hcls,-⟩ := definition_rank_some hrank
  obtain ⟨howned,-⟩ := claim_owned ctx.isecs sym hcls (hcut j e he heid herank)
  rw [← hsym] at howned
  exact ⟨j,e,he,heid,herank.le.trans hdc,howned⟩

/-- A symbol that some object defines is defined after a round, unless its
least-ranked definition was dropped. -/
theorem candidate_defined (hkept : LeastKept ctx onlyAlive c.entry.id) :
    Defined (after c.entry.id) := by
  obtain ⟨j,d,-,-,-,howned⟩ := least_owned hp run hc hkept
  rcases pass_owner run c.entry.id with ⟨hfile,hcommon⟩ | ⟨owner,hfile,-⟩
  · rw [Defined, hfile, hcommon, howned.file, howned.common]
    split
    · next htentative => exact Or.inr (decide_eq_true htentative.1)
    · exact Or.inl rfl
  · rw [Defined, hfile]
    exact Or.inl rfl

end Least

/-! ## Across the rounds -/

theorem unloaded_priority {obj obj' : ObjectFile} (h : unloaded obj = unloaded obj') :
    obj.priority = obj'.priority := by
  have hpriority := congrArg ObjectFile.priority h
  exact hpriority

theorem unloaded_globals {obj obj' : ObjectFile} (h : unloaded obj = unloaded obj') :
    obj.globals = obj'.globals := by
  have hglobals := congrArg ObjectFile.globals h
  exact hglobals

namespace LastRounds
variable {ctx : Context} (rounds : LastRounds ctx)

theorem link_priorities : Priorities rounds.link := by
  have hsame := marked_same rounds.loads
  constructor
  · intro i j obj obj' hi hj hpriority
    obtain ⟨old,hold,heq⟩ := hsame.get hi
    obtain ⟨old',hold',heq'⟩ := hsame.get hj
    apply rounds.priorities.distinct hold hold'
    have hp : obj.priority = old.priority := unloaded_priority heq
    have hp' : obj'.priority = old'.priority := unloaded_priority heq'
    rw [← hp, ← hp', hpriority]
  · intro obj hobj
    obtain ⟨i,hi⟩ := List.getElem?_of_mem hobj
    obtain ⟨old,hold,heq⟩ := hsame.get hi
    have hp : obj.priority = old.priority := unloaded_priority heq
    rw [hp]
    exact rounds.priorities.below old (List.mem_of_getElem? hold)

/-- What a definition of a loaded object is in the last round. -/
theorem candidate_again {i : ℕ} {c : Candidate} (hc : c ∈ tasks ctx false i)
    (hlive : isLive rounds.marked.objs i = true) :
    ∃ d ∈ tasks rounds.link true i, d.entry = c.entry := by
  obtain ⟨hobj,-,hentry,hrank,-⟩ := mem_tasks hc
  obtain ⟨obj,hmarked,hreachable⟩ := is_live_iff.1 hlive
  obtain ⟨old,hold,heq⟩ := (marked_same rounds.loads).get hmarked
  obtain rfl := Option.some.inj (hobj.symm.trans hold)
  have hglobals : obj.globals = c.obj.globals := unloaded_globals heq
  apply tasks_mem hmarked (fun _ => hreachable) (hglobals ▸ hentry)
  exact rank_some_iff.2 (rank_some_iff.1 ⟨c.rank,hrank⟩)

/-- A live object's reference to a symbol that an object won meets a definition
in the last round. -/
theorem reference_candidate {obj : ObjectFile} (hobj : obj ∈ rounds.marked.objs)
    (hlive : obj.isReachable = true) {entry : Entry} (hentry : entry ∈ obj.globals)
    (hundef : entry.msym.isUndef = true) (hwon : WonByObject (rounds.resolved entry.id)) :
    ∃ i, ∃ c ∈ tasks rounds.link true i, c.entry.id = entry.id := by
  obtain ⟨i,hi⟩ := List.getElem?_of_mem hobj
  cases hcommon : entry.msym.isCommon with
  | true =>
    have hkind : (entry.msym.isStab = false ∧ entry.msym.isExtern = true) ∧
        entry.msym.ty = nUndf := by
      simpa [MachSym.isUndef] using hundef
    obtain ⟨c,hc,heq⟩ : ∃ c ∈ tasks rounds.link true i, c.entry = entry :=
      tasks_mem hi (fun _ => hlive) hentry (rank_some_iff.2 ⟨hkind.1.1,hkind.1.2,Or.inr ⟨hkind.2,hcommon⟩⟩)
    exact ⟨i,c,hc,congrArg Entry.id heq⟩
  | false =>
    obtain ⟨j,c,hc,hid,howner⟩ := winner_candidate rounds.priorities rounds.first
      (clear_file _) (clear_common _) hwon
    have hloaded := (marked_least rounds.loads).1
    obtain ⟨hcobj,-⟩ := mem_tasks hc
    have hj : isLive rounds.marked.objs j = true := by
      rcases howner with hfile | hreachable
      · obtain ⟨old,hold,heq⟩ := (marked_same rounds.loads).get hi
        have hglobals : obj.globals = old.globals := unloaded_globals heq
        exact hloaded.owners i (is_live_iff.2 ⟨obj,hi,hlive⟩) old hold entry (hglobals ▸ hentry)
          hundef (by simp [hcommon]) j ⟨hfile,(List.getElem?_eq_some_iff.1 hcobj).1⟩
      · exact hloaded.before j (is_live_iff.2 ⟨c.obj,hcobj,hreachable⟩)
    obtain ⟨d,hd,heq⟩ := rounds.candidate_again hc hj
    exact ⟨j,d,hd,(congrArg Entry.id heq).trans hid⟩

end LastRounds

/-- Loading archive members ends, in any order of the queue, with the least set
of objects in which nothing is left to load; and a symbol that a live object
references and that an object won in the first of the last rounds is defined
after them, unless a definition of the least rank in the last was dropped. -/
theorem archive_loading (ctx : Context) :
    (∀ syms : SymbolId → Symbol,
      Acc (fun w' w => Visits ctx syms w w') (Walk.start ctx syms) ∧
      (∃ fuel w, markLiveObjects ctx syms fuel = some w) ∧
      (∀ fuel w, markLiveObjects ctx syms fuel = some w → Marked ctx syms w) ∧
      ∀ w, Marked ctx syms w →
        IsLeast {live | Loaded ctx syms live} {i | isLive w.objs i = true}) ∧
    ∀ rounds : LastRounds ctx, ∀ obj ∈ rounds.marked.objs, obj.isReachable = true →
      ∀ entry ∈ obj.globals, entry.msym.isUndef = true → WonByObject (rounds.resolved entry.id) →
      LeastKept rounds.link true entry.id → Defined (rounds.after entry.id) := by
  constructor
  · intro syms
    refine ⟨visits_end _ start_same,?_,?_,fun w hw => marked_least hw⟩
    · obtain ⟨w,hw⟩ := mark_loop_some start_same (Nat.lt_succ_self _)
      exact ⟨_,w,hw⟩
    · intro fuel w hw
      obtain ⟨hrun,hended⟩ := mark_loop_visits hw
      exact ⟨hrun,hended⟩
  · intro rounds obj hobj hlive entry hentry hundef hwon hkept
    obtain ⟨i,c,hc,hid⟩ := rounds.reference_candidate hobj hlive hentry hundef hwon
    rw [← hid] at hkept ⊢
    exact candidate_defined rounds.link_priorities rounds.last hc hkept

/-! ## A definition that beats the winner and is dropped -/

/-- An object that references two symbols, one that defines the first weak, and
an archive member that defines the second, and the first in a dropped section. -/
def laterStrong : Context where
  objs := [
    { priority := 1, isReachable := true
      syms := [{ msym := { type := 0x01 }, id := 0 }, { msym := { type := 0x01 }, id := 1 }] },
    { priority := 2, isReachable := true
      syms := [{ msym := { type := 0x0f, sect := 1, desc := 0x80 }, id := 0, subsec := some 0 }] },
    { priority := 3, isReachable := false
      syms := [{ msym := { type := 0x0f, sect := 1 }, id := 1, subsec := some 1 },
        { msym := { type := 0x0f, sect := 2 }, id := 0 }] }]
  isecs := [{ file := 1 },{ file := 2 }]
  symbols := (SymbolTable.empty.intern [0x73]).intern [0x74]

/-- With the archive member loaded. -/
def laterStrongLoaded : Context :=
  { laterStrong with objs := laterStrong.objs.map fun obj => { obj with isReachable := true } }

theorem all_live {objs objs' : List ObjectFile} (hsame : SameObjs objs objs')
    (hlive : ∀ i < objs.length, isLive objs i = true) :
    objs = objs'.map fun obj => { obj with isReachable := true } := by
  apply List.ext_getElem?
  intro i
  rw [List.getElem?_map]
  cases hobj : objs[i]? with
  | none =>
    have hle := List.getElem?_eq_none_iff.1 hobj
    rw [hsame.length] at hle
    rw [List.getElem?_eq_none hle]
    rfl
  | some obj =>
    obtain ⟨obj',hobj',heq⟩ := hsame.get hobj
    obtain ⟨o,ho,hreach⟩ := is_live_iff.1 (hlive i (List.getElem?_eq_some_iff.1 hobj).1)
    obtain rfl := Option.some.inj (ho.symm.trans hobj)
    rw [hobj']
    have hmade := congrArg (fun obj => { obj with isReachable := true }) heq
    simp only [unloaded] at hmade
    rw [Option.map_some, ← hmade, ← hreach]

theorem later_strong_priorities : Priorities laterStrong := by
  refine ⟨?_,by decide⟩
  intro i j obj obj' hi hj hpriority
  match i, j with
  | 0, 0 | 1, 1 | 2, 2 => rfl
  | 0, 1 | 1, 0 | 0, 2 | 2, 0 | 1, 2 | 2, 1 => cases hi; cases hj; cases hpriority
  | i+3, _ => cases hi
  | _, j+3 => cases hj

theorem least_kept_of {ctx : Context} {onlyAlive : Bool} {id : SymbolId} {bound : ℕ}
    (hex : ∃ j, ∃ d ∈ tasks ctx onlyAlive j, d.entry.id = id ∧ d.rank ≤ bound)
    (h : ∀ j, ∀ d ∈ tasks ctx onlyAlive j, d.entry.id = id → d.rank ≤ bound →
      Entry.discarded d.entry = false) : LeastKept ctx onlyAlive id := by
  intro i c hc hid hleast
  obtain ⟨j,d,hd,hdid,hbound⟩ := hex
  exact h i c hc hid ((hleast j d hd hdid).trans hbound)

/-- The definitions of the first round, by symbol. -/
theorem later_strong_tasks (j : ℕ) : ∀ d ∈ tasks laterStrong false j,
    d.entry.msym.ty = nSect ∧
    (d.entry.id = 0 → d.rank ≤ 1370094567426 → d.objIdx = 1 ∧ Entry.discarded d.entry = false) ∧
    (d.entry.id = 1 → d.objIdx = 2 ∧ Entry.discarded d.entry = false) := by
  match j with
  | 0 => decide
  | 1 => decide
  | 2 => decide
  | j+3 =>
    intro d hd
    cases hd

theorem later_strong_first {ranking : DylibRanking} {before after : SymbolId → Symbol}
    (run : PassRun laterStrong false ranking before after) :
    (after 0).file = some (.obj 1) ∧ (after 1).file = some (.obj 2) := by
  have hp := later_strong_priorities
  have hsect : nSect ≠ nUndf := by decide
  have hzero : ∃ c ∈ tasks laterStrong false 1, c.entry.id = 0 ∧ c.rank ≤ 1370094567426 := by
    decide
  have hone : ∃ c ∈ tasks laterStrong false 2, c.entry.id = 1 := by decide
  constructor
  · obtain ⟨c,hc,hid,hrank⟩ := hzero
    have hkept := least_kept_of ⟨1,c,hc,hid,hrank⟩ fun j d hd hdid hle =>
      (((later_strong_tasks j d hd).2.1 hdid) hle).2
    rw [← hid] at hkept
    obtain ⟨j,d,hd,hdid,hle,howned⟩ := least_owned hp run hc hkept
    rw [hid] at hdid howned
    obtain ⟨hty,hfirst,-⟩ := later_strong_tasks j d hd
    rw [(pass_no_dylibs run rfl 0).1, howned.file, (hfirst hdid (hle.trans hrank)).1,
      if_neg fun h => hsect (hty.symm.trans h.1)]
  · obtain ⟨c,hc,hid⟩ := hone
    have hkept := least_kept_of ⟨2,c,hc,hid,le_rfl⟩ fun j d hd hdid _ =>
      ((later_strong_tasks j d hd).2.2 hdid).2
    rw [← hid] at hkept
    obtain ⟨j,d,hd,hdid,-,howned⟩ := least_owned hp run hc hkept
    rw [hid] at hdid howned
    obtain ⟨hty,-,hsecond⟩ := later_strong_tasks j d hd
    rw [(pass_no_dylibs run rfl 1).1, howned.file, (hsecond hdid).1,
      if_neg fun h => hsect (hty.symm.trans h.1)]

/-- The archive member is loaded for the second symbol. -/
theorem later_strong_marked {syms : SymbolId → Symbol} {w : Walk}
    (h : Marked laterStrong syms w) (hsyms : (syms 1).file = some (.obj 2)) :
    w.objs = laterStrongLoaded.objs := by
  have hsame := marked_same h
  apply all_live hsame
  have hloaded := (marked_least h).1
  have hzero : isLive w.objs 0 = true := hloaded.before 0 rfl
  have hone : isLive w.objs 1 = true := hloaded.before 1 rfl
  have htwo : isLive w.objs 2 = true :=
    hloaded.owners 0 hzero _ rfl { msym := { type := 0x01 }, id := 1 } (by decide) rfl nofun 2
      ⟨hsyms,by decide⟩
  intro i hi
  rw [hsame.length] at hi
  match i with
  | 0 => exact hzero
  | 1 => exact hone
  | 2 => exact htwo
  | i+3 => exact absurd hi (by simp [laterStrong])

theorem exists_last_rounds : ∃ rounds : LastRounds laterStrong,
    (rounds.resolved 0).file = some (.obj 1) ∧ (rounds.resolved 1).file = some (.obj 2) ∧
    rounds.marked.objs = laterStrongLoaded.objs ∧ rounds.link.dylibs = [] ∧
    ∀ j, tasks rounds.link true j = tasks laterStrongLoaded true j := by
  obtain ⟨ranking,hranking⟩ : ∃ ranking, DylibRanking.new laterStrong.dylibs 1 = some ranking :=
    ⟨_,rfl⟩
  obtain ⟨resolved,⟨first⟩⟩ := exists_pass laterStrong false ranking fun _ => clearSymbol {}
  obtain ⟨hzero,hone⟩ := later_strong_first first
  obtain ⟨w,hw⟩ : ∃ w, markLiveObjects laterStrong resolved _ = some w :=
    mark_loop_some start_same (Nat.lt_succ_self _)
  obtain ⟨hrun,hended⟩ := mark_loop_visits hw
  have hobjs := later_strong_marked ⟨hrun,hended⟩ hone
  obtain ⟨after,⟨last⟩⟩ := exists_pass
    { laterStrong with objs := w.objs, whyLoad := w.whyLoad, dylibs := [] } true ranking
    fun id => clearSymbol (resolved id)
  refine ⟨{
    priorities := later_strong_priorities, ranking, ranked := ⟨1,hranking⟩, before := fun _ => {}, resolved, after, first
    marked := w, loads := ⟨hrun,hended⟩, dylibs := []
    autolinkPriority := laterStrong.autolinkPriority, last },hzero,hone,hobjs,rfl,?_⟩
  intro j
  rw [tasks, tasks, LastRounds.link]
  dsimp only
  rw [hobjs]
  rfl

theorem later_strong_last_tasks (j : ℕ) : ∀ d ∈ tasks laterStrongLoaded true j,
    (d.entry.id = 0 → d.rank ≤ 3 → d.objIdx = 2) ∧
    (d.entry.id = 0 → d.objIdx = 2 → Entry.discarded d.entry = true) ∧
    (d.entry.id = 1 → Entry.discarded d.entry = false) := by
  match j with
  | 0 => decide
  | 1 => decide
  | 2 => decide
  | j+3 =>
    intro d hd
    cases hd

theorem archive_loading_later : ∃ rounds : LastRounds laterStrong, Defined (rounds.after 1) := by
  obtain ⟨rounds,-,hone,hobjs,-,htasks⟩ := exists_last_rounds
  have hkept : LeastKept rounds.link true 1 := by
    intro i c hc hid _
    rw [htasks] at hc
    exact (later_strong_last_tasks i c hc).2.2 hid
  have hobj : laterStrongLoaded.objs[0] ∈ rounds.marked.objs := by
    rw [hobjs]
    exact List.mem_cons_self
  exact ⟨rounds,(archive_loading laterStrong).2 rounds _ hobj rfl
    { msym := { type := 0x01 }, id := 1 } (by decide) rfl (Or.inl ⟨2,hone⟩) hkept⟩

theorem claim_discarded {isecs : List InputSection} {obj : ObjectFile} {entry : Entry}
    (objIdx : ℕ) (sym : Symbol) (h : Entry.discarded entry = true) :
    (claimDefinition isecs obj entry objIdx sym).1.file = none ∧
      (claimDefinition isecs obj entry objIdx sym).1.isCommon = false := by
  obtain ⟨hty,hsubsec⟩ : entry.msym.ty = nSect ∧ entry.subsec = none := by
    simpa [Entry.discarded] using h
  have habs : nSect ≠ nAbs := by decide
  simp [claimDefinition, symbolSubsec, hty, hsubsec, habs]

/-- The archive member's dropped definition beats the one that won the first
round. -/
theorem dropped_definition_wins : ∃ rounds : LastRounds laterStrong,
    ∃ obj ∈ rounds.marked.objs, obj.isReachable = true ∧
      ∃ entry ∈ obj.globals, entry.msym.isUndef = true ∧
        WonByObject (rounds.resolved entry.id) ∧ ¬ Defined (rounds.after entry.id) := by
  obtain ⟨rounds,hzero,-,hobjs,hdylibs,htasks⟩ := exists_last_rounds
  have hobj : laterStrongLoaded.objs[0] ∈ rounds.marked.objs := by
    rw [hobjs]
    exact List.mem_cons_self
  refine ⟨rounds,_,hobj,rfl,{ msym := { type := 0x01 }, id := 0 },by decide,rfl,Or.inl ⟨1,hzero⟩,?_⟩
  have hp := rounds.link_priorities
  obtain ⟨c,hc,hid,hrank⟩ : ∃ c ∈ tasks laterStrongLoaded true 2,
      c.entry.id = 0 ∧ c.rank ≤ 3 := by decide
  rw [← htasks] at hc
  obtain ⟨j,d,hd,hdid,hbest,hleast⟩ := least_candidate hp rounds.last hc
  have hle : d.rank ≤ 3 := (hleast 2 c hc rfl).trans hrank
  rw [← hdid] at hbest
  have hslot := claim_run_slot hp rounds.last.claims hd hbest
  have hd0 : d.entry.id = 0 := hdid.trans hid
  obtain ⟨-,hj,-⟩ := mem_tasks hd
  have hjd := hd
  rw [htasks] at hjd
  have htwo : j = 2 := hj.symm.trans ((later_strong_last_tasks j d hjd).1 hd0 hle)
  rw [hd0] at hslot
  have hnone : (rounds.last.claimed.slots 0).sym.file = none ∧
      (rounds.last.claimed.slots 0).sym.isCommon = false := by
    rw [hslot]
    rcases fold_claims_written rounds.link.isecs
      ((tasks rounds.link true j).filter fun e => e.entry.id = 0)
      { best := rounds.last.best 0, sym := clearSymbol (rounds.resolved 0) } with
      h | ⟨e,he,sym,h⟩
    · rw [h]
      exact ⟨clear_file _,clear_common _⟩
    · obtain ⟨hmem,heid⟩ := List.mem_filter.1 he
      obtain ⟨-,hidx,-⟩ := mem_tasks hmem
      rw [htasks] at hmem
      rw [h]
      exact claim_discarded _ _ ((later_strong_last_tasks j e hmem).2.1 (of_decide_eq_true heid)
        (hidx.trans htwo))
  obtain ⟨hfile,hcommon⟩ := pass_no_dylibs rounds.last hdylibs 0
  rw [Defined, hfile, hcommon, hnone.1, hnone.2]
  simp

end MoldMacho.ResolveSymbols
