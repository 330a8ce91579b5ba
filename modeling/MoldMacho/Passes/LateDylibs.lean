import MoldMacho.Passes.ClaimNewDylibs

/-!
# Late dylibs against a full round

When the claims of the dylibs that come after the final round agree with what
that round makes of the symbols once it ranks those dylibs too.
-/

set_option autoImplicit false

namespace MoldMacho.ResolveSymbols
open MoldMacho.Macho MoldMacho.Symbols MoldMacho.Definitions MoldMacho.DylibRanks
open MoldMacho.Dylibs (DylibFile)
open MoldMacho.Interleave

/-- When the late claims do to a symbol what a full round would: if a new dylib
exports it and it is referenced, no live tentative definition and no DTrace name
keeps an undefined one from the export, and an earlier dylib that has it exports
it first, or binds it to the same dylib. -/
def LateClaimsAgree (ctx : Context) (num : ℕ) (old all : DylibRanking)
    (resolved : SymbolId → Symbol) (id : SymbolId) : Prop :=
  ∀ e, IsFirst ctx all.ranks (dylibSearchOrder all.count all.ranks num) id e →
    (resolved id).isUsed = true →
    ((resolved id).file = none → Claimable ctx id) ∧
    ∀ owner, (resolved id).file = some (.dylib owner) →
      ∀ o, IsFirst ctx old.ranks (dylibSearchOrder old.count old.ranks 0) id o →
        ExportBefore ctx all.ranks id o e ∨
          providingDylib ctx.dylibs all.providers e (ctx.symbols.name id) =
            providingDylib ctx.dylibs all.providers o (ctx.symbols.name id)

theorem Extended.ready {ctx : Context} {num : ℕ} {old all : DylibRanking}
    (hext : Extended ctx num old all) (hready : Ready ctx old) : Ready ctx all where
  priorities := hready.priorities
  collected := hready.collected
  few := hready.few
  relocatable := hready.relocatable
  ranked := by
    obtain ⟨fuel,hall⟩ := hext.all
    refine ⟨ctx.dylibs.length,fuel,?_⟩
    rw [List.take_length]
    exact hall

theorem exporter_cases {ctx : Context} {onlyAlive : Bool} {ranking : DylibRanking}
    {before after : SymbolId → Symbol} (hready : Ready ctx ranking)
    (run : PassRun ctx onlyAlive ranking before after) (id : SymbolId) :
    (∀ idx ∈ dylibSearchOrder ranking.count ranking.ranks 0, ¬ Exports ctx idx id) ∨
      ∃ idx, IsFirst ctx ranking.ranks (dylibSearchOrder ranking.count ranking.ranks 0) id idx := by
  rcases first_exporter hready.collected.carries hready.count_lt run.exporters id with
    ⟨-,hnone⟩ | ⟨-,idx,hidx,-⟩
  · exact Or.inl hnone
  · exact Or.inr ⟨idx,hidx⟩

/-- The final round of a link, the late claims of the dylibs added to it since,
and the final round again with those ranked too. -/
structure LateLink (ctx : Context) (num : ℕ) (old all : DylibRanking)
    (before resolved late full : SymbolId → Symbol) where
  ready : Ready ctx old
  extended : Extended ctx num old all
  p2align : ∀ isec ∈ ctx.isecs, isec.p2align < 64
  run : PassRun ctx true old (fun id => clearSymbol (before id)) resolved
  claim : ClaimNewDylibs ctx all num resolved late
  again : PassRun ctx true all (fun id => clearSymbol (resolved id)) full

namespace LateLink
variable {ctx : Context} {num : ℕ} {old all : DylibRanking}
variable {before resolved late full : SymbolId → Symbol}
variable (link : LateLink ctx num old all before resolved late full) {id : SymbolId}
include link

theorem best_same : (link.run.claimed.slots id).best = (link.again.claimed.slots id).best :=
  (claim_runs_agree link.ready.priorities link.run.race link.again.race link.run.claims
    link.again.claims id).1

theorem settled : Settled (link.run.claimed.slots id) :=
  claim_run_settled link.ready.priorities link.p2align link.run.race link.run.claims (clear_file _)

theorem settled_again (h : 4 <<< 40 ≤ (link.run.claimed.slots id).best) :
    (link.again.claimed.slots id).sym.file = none := by
  rw [link.best_same] at h
  rcases claim_run_settled link.ready.priorities link.p2align link.again.race link.again.claims
    (clear_file (resolved id)) with ⟨hlow,-⟩ | ⟨-,hfile⟩
  · exact absurd hlow (by omega)
  · exact hfile

/-- Rounds in which no dylib claims a symbol leave it alike. -/
theorem unclaimed_agree
    (h : ∀ idx, ¬ DylibClaims ctx true old (link.run.claimed.slots id).best id idx)
    (h' : ∀ idx, ¬ DylibClaims ctx true all (link.again.claimed.slots id).best id idx) :
    verdict (resolved id) = verdict (full id) := by
  have hresolved := pass_verdict link.run link.ready h
  rw [pass_verdict link.again (link.extended.ready link.ready) h']
  obtain ⟨-,hverdict | ⟨hkept,hkept'⟩⟩ := claim_runs_agree link.ready.priorities link.run.race
    link.again.race link.run.claims link.again.claims id
  · exact hresolved.trans hverdict
  · rw [hkept, verdict, verdict, clear_file, clear_common] at hresolved
    obtain ⟨hfile,hrest⟩ := Prod.ext_iff.1 hresolved
    have hcommon : (resolved id).isCommon = false := (Prod.ext_iff.1 hrest).2
    rw [hkept', clear_verdict hfile hcommon]

/-- A symbol that a live object owns stays its. -/
theorem agree_owned (hlow : (link.run.claimed.slots id).best < 2 <<< 40) {i : ℕ}
    (hfile : (link.run.claimed.slots id).sym.file = some (.obj i)) :
    verdict (late id) = verdict (full id) ∧ LateClaimsAgree ctx num old all resolved id := by
  have hnone := claims_owned link.run link.ready hlow
  have hnone' := claims_owned link.again (link.extended.ready link.ready) (link.best_same ▸ hlow)
  have hverdict := pass_verdict link.run link.ready hnone
  have howner : (resolved id).file = some (.obj i) := (congrArg Prod.fst hverdict).trans hfile
  constructor
  · rw [late_kept link.claim (Or.inr (by rw [howner]; rfl))]
    exact link.unclaimed_agree hnone hnone'
  · intro e _ _
    rw [howner]
    constructor
    · intro h
      cases h
    · intro _ h
      cases h

section Free
variable (hhigh : 4 <<< 40 ≤ (link.run.claimed.slots id).best)
include hhigh

/-- The first of the earlier dylibs that export a symbol claims it in the final
round. -/
theorem resolved_import (hclaim : Claimable ctx id)
    (hused : (collectReferences ctx true).used id = true) {o : ℕ}
    (ho : IsFirst ctx old.ranks (dylibSearchOrder old.count old.ranks 0) id o) :
    Imported (resolved id) (providingDylib ctx.dylibs all.providers o (ctx.symbols.name id)) := by
  rw [← link.extended.provides _ (link.extended.old_lt ho.mem)]
  exact after_claimed link.ready.toLinked link.ready.collected.carries link.run
    (claims_free link.run link.extended.narrow link.ready hhigh hclaim hused ho)

theorem full_import (hclaim : Claimable ctx id)
    (hused : (collectReferences ctx true).used id = true) {idx : ℕ}
    (hidx : IsFirst ctx all.ranks (dylibSearchOrder all.count all.ranks 0) id idx) :
    Imported (full id) (providingDylib ctx.dylibs all.providers idx (ctx.symbols.name id)) := by
  have hready := link.extended.ready link.ready
  exact after_claimed hready.toLinked hready.collected.carries link.again
    (claims_free link.again link.extended.narrow hready (link.best_same ▸ hhigh) hclaim hused hidx)

/-- A symbol that no new dylib exports is claimed as before. -/
theorem agree_unexported
    (hnew : ∀ j ∈ dylibSearchOrder all.count all.ranks num, ¬ Exports ctx j id) :
    verdict (resolved id) = verdict (full id) := by
  by_cases hfree : (collectReferences ctx true).used id = true ∧ Claimable ctx id
  · obtain ⟨hused,hclaim⟩ := hfree
    rcases exporter_cases link.ready link.run id with hold | ⟨o,ho⟩
    · apply link.unclaimed_agree
      · exact fun idx hidx => hold idx hidx.first.mem hidx.first.exports
      · intro idx hidx
        rcases link.extended.mem_order.1 hidx.first.mem with hmem | hmem
        · exact hold idx hmem hidx.first.exports
        · exact hnew idx hmem hidx.first.exports
    · have hfirst := first_all_earlier link.extended ho
        fun j hj hexp => absurd hexp (hnew j hj)
      exact verdict_imported (link.resolved_import hhigh hclaim hused ho)
        (link.full_import hhigh hclaim hused hfirst)
  · exact link.unclaimed_agree (claims_none hfree) (claims_none hfree)

omit hhigh in
theorem resolved_none (hfile : (link.run.claimed.slots id).sym.file = none)
    (h : ∀ idx, ¬ DylibClaims ctx true old (link.run.claimed.slots id).best id idx) :
    (resolved id).file = none :=
  (congrArg Prod.fst (pass_verdict link.run link.ready h)).trans hfile

section Exported
variable {e : ℕ}
variable (he : IsFirst ctx all.ranks (dylibSearchOrder all.count all.ranks num) id e)
variable (hused : (collectReferences ctx true).used id = true)
include he hused

omit hhigh in
theorem late_import (hnone : (resolved id).file = none) :
    Imported (late id) (providingDylib ctx.dylibs all.providers e (ctx.symbols.name id)) :=
  late_claimed link.ready.collected (link.extended.ready link.ready).count_lt link.claim he
    ((pass_used link.run).trans hused) hnone

/-- A symbol that only new dylibs export. -/
theorem agree_new_only (hclaim : Claimable ctx id)
    (hold : ∀ idx ∈ dylibSearchOrder old.count old.ranks 0, ¬ Exports ctx idx id)
    (hfile : (link.run.claimed.slots id).sym.file = none) :
    verdict (late id) = verdict (full id) ∧ LateClaimsAgree ctx num old all resolved id := by
  have hnone := link.resolved_none hfile fun idx hidx =>
    hold idx hidx.first.mem hidx.first.exports
  have hfirst := first_all_later link.extended he fun j hj hexp => absurd hexp (hold j hj)
  constructor
  · exact verdict_imported (link.late_import he hused hnone)
      (link.full_import hhigh hclaim hused hfirst)
  · intro _ _ _
    rw [hnone]
    constructor
    · exact fun _ => hclaim
    · intro _ h
      cases h

/-- A symbol that an earlier dylib has, and a new one exports too. -/
theorem agree_both (hclaim : Claimable ctx id) {o : ℕ}
    (ho : IsFirst ctx old.ranks (dylibSearchOrder old.count old.ranks 0) id o) :
    verdict (late id) = verdict (full id) ↔ LateClaimsAgree ctx num old all resolved id := by
  have himported := link.resolved_import hhigh hclaim hused ho
  have hkept : late id = resolved id :=
    late_kept link.claim (Or.inr (by rw [himported.file]; rfl))
  have hcondition : LateClaimsAgree ctx num old all resolved id ↔
      ExportBefore ctx all.ranks id o e ∨
        providingDylib ctx.dylibs all.providers e (ctx.symbols.name id) =
          providingDylib ctx.dylibs all.providers o (ctx.symbols.name id) := by
    constructor
    · exact fun h => (h e he ((pass_used link.run).trans hused)).2 _ himported.file o ho
    · intro h e' he' _
      obtain rfl := first_unique he he'
      constructor
      · intro hnone
        rw [himported.file] at hnone
        cases hnone
      · intro _ _ o' ho'
        obtain rfl := first_unique ho ho'
        exact h
  rw [hkept, hcondition]
  by_cases hbefore : ExportBefore ctx all.ranks id o e
  · have hfirst := first_all_earlier link.extended ho fun j hj hexp => by
      rcases he.first j hj hexp with rfl | h
      · exact hbefore
      · exact export_before_trans hbefore h
    exact iff_of_true
      (verdict_imported himported (link.full_import hhigh hclaim hused hfirst)) (Or.inl hbefore)
  · have hne : o ≠ e := by
      have hlt := link.extended.old_lt ho.mem
      have hle := (mem_order.1 he.mem).1
      omega
    have hafter := (export_before_total hne).resolve_left hbefore
    have hfirst := first_all_later link.extended he fun j hj hexp => by
      rcases ho.first j hj hexp with rfl | h
      · exact hafter
      · exact export_before_trans hafter
          ((link.extended.before (link.extended.old_lt ho.mem) (link.extended.old_lt hj)).2 h)
    have hfull := link.full_import hhigh hclaim hused hfirst
    simp only [verdict, himported.file, hfull.file, himported.imported, hfull.imported,
      himported.notCommon, hfull.notCommon, hbefore, Prod.mk.injEq, Option.some.injEq,
      FileId.dylib.injEq, and_true, false_or]
    exact eq_comm

omit hhigh in
/-- A new dylib's export that no full round would let claim its symbol does. -/
theorem agree_never (hfile : (link.run.claimed.slots id).sym.file = none)
    (hfile' : (link.again.claimed.slots id).sym.file = none) (hclaim : ¬ Claimable ctx id) :
    ¬ verdict (late id) = verdict (full id) ∧ ¬ LateClaimsAgree ctx num old all resolved id := by
  have hfree : ¬ ((collectReferences ctx true).used id = true ∧ Claimable ctx id) :=
    fun h => hclaim h.2
  have hnone := link.resolved_none hfile (claims_none hfree)
  have hfull := pass_verdict link.again (link.extended.ready link.ready) (claims_none hfree)
  constructor
  · intro hsame
    have howner := congrArg Prod.fst (hsame.trans hfull)
    rw [verdict, (link.late_import he hused hnone).file, verdict, hfile'] at howner
    cases howner
  · exact fun h => hclaim ((h e he ((pass_used link.run).trans hused)).1 hnone)

end Exported

end Free

end LateLink

theorem exists_late_link {ctx : Context} {num : ℕ} {old all : DylibRanking} (hready : Ready ctx old)
    (hext : Extended ctx num old all) (hp2align : ∀ isec ∈ ctx.isecs, isec.p2align < 64)
    (before : SymbolId → Symbol) :
    ∃ resolved late full, Nonempty (LateLink ctx num old all before resolved late full) := by
  obtain ⟨resolved,⟨run⟩⟩ := exists_pass ctx true old fun id => clearSymbol (before id)
  obtain ⟨full,⟨again⟩⟩ := exists_pass ctx true all fun id => clearSymbol (resolved id)
  obtain ⟨first,hfirst⟩ := exists_first_exporters ctx (collectDylibSymbols ctx)
    (dylibSearchOrder all.count all.ranks num)
  exact ⟨resolved,_,full,⟨hready,hext,hp2align,run,⟨first,hfirst,rfl⟩,again⟩⟩

/-- After the final round, the late claims of new dylibs leave a symbol the
owner, import flag and common flag that a final round with all dylibs ranked
would, exactly if they agree on it. -/
theorem late_dylibs_agree {ctx : Context} {num : ℕ} {old all : DylibRanking}
    {before resolved late full : SymbolId → Symbol}
    (link : LateLink ctx num old all before resolved late full) (id : SymbolId) :
    verdict (late id) = verdict (full id) ↔ LateClaimsAgree ctx num old all resolved id := by
  rcases link.settled with ⟨hlow,i,hfile⟩ | ⟨hhigh,hfile⟩
  · obtain ⟨hagree,hcondition⟩ := link.agree_owned hlow hfile
    exact iff_of_true hagree hcondition
  · have hready := link.extended.ready link.ready
    rcases first_exporter hready.collected.carries hready.count_lt link.claim.race id with
      ⟨-,hnew⟩ | ⟨-,e,he,-⟩
    · rw [late_unexported hready.collected hready.count_lt link.claim hnew]
      apply iff_of_true (link.agree_unexported hhigh hnew)
      exact fun e he => absurd he.exports (hnew e he.mem)
    · by_cases hused : (collectReferences ctx true).used id = true
      · by_cases hclaim : Claimable ctx id
        · rcases exporter_cases link.ready link.run id with hold | ⟨o,ho⟩
          · obtain ⟨hagree,hcondition⟩ := link.agree_new_only hhigh he hused hclaim hold hfile
            exact iff_of_true hagree hcondition
          · exact link.agree_both hhigh he hused hclaim ho
        · obtain ⟨hdiffer,hcondition⟩ :=
            link.agree_never he hused hfile (link.settled_again hhigh) hclaim
          exact iff_of_false hdiffer hcondition
      · have hunused : (resolved id).isUsed = false := by
          rw [pass_used link.run]
          simpa using hused
        rw [late_kept link.claim (Or.inl hunused)]
        have hfree : ¬ ((collectReferences ctx true).used id = true ∧ Claimable ctx id) :=
          fun h => hused h.1
        apply iff_of_true (link.unclaimed_agree (claims_none hfree) (claims_none hfree))
        intro _ _ h
        rw [hunused] at h
        cases h

def lateDylib : DylibFile where
  path := []
  installName := [0x61]
  priority := 2
  isAutolinked := true
  exports := {[0x5f]}

/-- An object that refers to a symbol, or defines it tentatively if its value is
a size, and a dylib that its auto-link option adds. -/
def autolinkedExport (value : ℕ) : Context where
  objs := [{ priority := 1, isReachable := true, syms := [{ msym := { type := 0x01, value }, id := 0 }] }]
  dylibs := [lateDylib]
  symbols := {
    names := [[0x5f]]
    lookup := fun name => if name = [0x5f] then some 0 else none
    lookup_name := @one_name_lookup }

theorem autolinked_link (value : ℕ) : ∃ old all resolved late full,
    old.count = 0 ∧
    IsFirst (autolinkedExport value) all.ranks (dylibSearchOrder all.count all.ranks 0) 0 0 ∧
    Nonempty (LateLink (autolinkedExport value) 0 old all (fun _ => {}) resolved late full) := by
  obtain ⟨old,hold,hnone⟩ : ∃ old, DylibRanking.new [] 1 = some old ∧ old.count = 0 := ⟨_,rfl,rfl⟩
  obtain ⟨all,hall,hcount,hrank⟩ : ∃ all, DylibRanking.new [lateDylib] 2 = some all ∧
      all.count = 1 ∧ all.ranks 0 ≠ rankMax := ⟨_,rfl,rfl,by decide +kernel⟩
  have hdylib : ∀ (i : ℕ) (d : DylibFile), (autolinkedExport value).dylibs[i]? = some d →
      d.reexported = [] ∧ d.mergedReexports = [] := by
    intro i d hd
    match i with
    | 0 =>
      cases hd
      exact ⟨rfl,rfl⟩
    | i+1 => cases hd
  have hready : Ready (autolinkedExport value) old := by
    refine ⟨⟨⟨?_,?_⟩,?_,?_,⟨0,1,hold⟩⟩,?_⟩
    · intro i j obj obj' hi hj _
      match i, j with
      | 0, 0 => rfl
      | i+1, _ => cases hi
      | _, j+1 => cases hj
    · intro obj hobj
      rw [List.mem_singleton.1 hobj]
      exact (by decide : (1 : UInt32).toNat < 2^32 - 1)
    · exact (by decide : 1 < weakExport)
    · intro h
      cases h
    · intro d hd seen hseen
      rw [List.mem_singleton.1 hd] at hseen
      cases hseen
  have hext : Extended (autolinkedExport value) 0 old all := by
    refine ⟨⟨?_,?_,?_⟩,⟨?_,?_,?_⟩,⟨1,hold⟩,⟨2,hall⟩⟩
    · intro i d hd _ edge hedge
      rw [(hdylib i d hd).1] at hedge
      cases hedge
    · intro i d hd _ edge hedge
      rw [(hdylib i d hd).1] at hedge
      cases hedge
    · intro i d j e hd _ _ _ hmerged
      rw [(hdylib i d hd).2] at hmerged
      cases hmerged
    · intro d hd
      rw [List.mem_singleton.1 hd]
      decide
    · intro d hd place hplace
      rw [List.mem_singleton.1 hd] at hplace
      cases hplace
    · exact (by decide : 1 < 2^32)
  obtain ⟨resolved,late,full,link⟩ := exists_late_link hready hext
    (fun isec h => by cases h) fun _ => {}
  refine ⟨old,all,resolved,late,full,hnone,⟨?_,?_,?_⟩,link⟩
  · exact mem_order.2 ⟨Nat.le_refl 0,by omega,hrank⟩
  · exact ⟨rfl,_,rfl,(by decide : ([0x5f] : Symbols.Name) ∈ lateDylib.exports)⟩
  · intro j hj _
    have hlt := (mem_order.1 hj).2.1
    exact Or.inl (by omega)

/-- A new dylib claims a reference that nothing defines, as a full round would. -/
theorem late_dylibs_agree_undefined : ∃ old all resolved late full,
    Nonempty (LateLink (autolinkedExport 0) 0 old all (fun _ => {}) resolved late full) ∧
    verdict (late 0) = verdict (full 0) := by
  obtain ⟨old,all,resolved,late,full,hcount,-,⟨link⟩⟩ := autolinked_link 0
  refine ⟨old,all,resolved,late,full,⟨link⟩,(late_dylibs_agree link 0).2 ?_⟩
  intro e he _
  have hclaimable : Claimable (autolinkedExport 0) 0 := ⟨Or.inr (by decide),by decide⟩
  refine ⟨fun _ => hclaimable,?_⟩
  intro owner _ o ho
  have hlt := (mem_order.1 ho.mem).2.1
  omega

/-- A new dylib takes a live tentative definition, which hides its export in a
full round. -/
theorem late_dylib_takes_common : ∃ old all resolved late full,
    Nonempty (LateLink (autolinkedExport 8) 0 old all (fun _ => {}) resolved late full) ∧
    verdict (late 0) ≠ verdict (full 0) := by
  obtain ⟨old,all,resolved,late,full,-,hfirst,⟨link⟩⟩ := autolinked_link 8
  refine ⟨old,all,resolved,late,full,⟨link⟩,?_⟩
  have hhidden : ¬ Claimable (autolinkedExport 8) 0 := by
    rintro ⟨hvisible,-⟩
    revert hvisible
    decide
  have htasks : ∀ i, ∀ c ∈ tasks (autolinkedExport 8) true i, 4 <<< 40 ≤ c.rank := by
    intro i
    match i with
    | 0 => decide
    | i+1 =>
      intro c hc
      cases hc
  have hbest : 4 <<< 40 ≤ link.run.best 0 := by
    rcases best_eq link.run.race 0 with hmax | ⟨i,c,hc,-,hrank⟩
    · rw [hmax]
      decide
    · rw [hrank]
      exact htasks i c hc
  have hhigh := hbest.trans (claim_run_best link.ready.priorities link.run.race link.run.claims 0)
  have hfile : (link.run.claimed.slots 0).sym.file = none := by
    rcases link.settled with ⟨hlow,-⟩ | h
    · exact absurd hlow (Nat.not_lt.2 (le_trans (by decide) hhigh))
    · exact h.2
  exact (link.agree_never hfirst (by decide) hfile (link.settled_again hhigh) hhidden).1

end MoldMacho.ResolveSymbols
