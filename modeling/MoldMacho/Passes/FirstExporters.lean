import MoldMacho.Passes.ResolveSymbols

/-!
# The first dylib that exports a symbol

The race of the dylibs leaves, for each symbol, the place of the dylib that
comes first among those that export it: one that exports it strong before one
that exports it weak, then by rank, then by place in the link.
-/

set_option autoImplicit false

namespace MoldMacho.ResolveSymbols
open MoldMacho.Symbols MoldMacho.Definitions MoldMacho.DylibRanks MoldMacho.StableSort
open MoldMacho.Dylibs (DylibFile)
open MoldMacho.Interleave

/-- What the dylibs have collected of the symbols so far: the ones they export
among those the table had. -/
def Collected (ctx : Context) : Prop :=
  ∀ d ∈ ctx.dylibs, ∀ seen, d.symbolsSeen = some seen → seen ≤ ctx.symbols.names.length ∧
    ∀ id, id ∈ d.symbols ↔
      id < seen ∧ ctx.symbols.isGlobal id = true ∧ ctx.symbols.name id ∈ d.exports

theorem global_lt {symbols : SymbolTable} {id : ℕ} (h : symbols.isGlobal id = true) :
    id < symbols.names.length := by
  have hlookup : symbols.lookup (symbols.name id) = some id := eq_of_beq h
  exact (List.getElem?_eq_some_iff.1 (symbols.lookup_name hlookup)).1

section Exports
variable (ctx : Context)

def Exports (idx : ℕ) (id : SymbolId) : Prop :=
  ctx.symbols.isGlobal id = true ∧ ∃ d, ctx.dylibs[idx]? = some d ∧ ctx.symbols.name id ∈ d.exports

def exportsWeak (idx : ℕ) (id : SymbolId) : Bool :=
  ctx.dylibs[idx]?.any fun d => decide (ctx.symbols.name id ∈ d.weakExports)

/-- A dylib comes before another in the search order. -/
def Before (ranks : ℕ → ℕ) (i j : ℕ) : Prop := ranks i < ranks j ∨ ranks i = ranks j ∧ i < j

/-- A dylib's export of a symbol comes before another's. -/
def ExportBefore (ranks : ℕ → ℕ) (id : SymbolId) (i j : ℕ) : Prop :=
  exportsWeak ctx i id = false ∧ exportsWeak ctx j id = true ∨
    exportsWeak ctx i id = exportsWeak ctx j id ∧ Before ranks i j

/-- A dylib's list has a symbol once it is brought up to date: as it stands, or
because the symbol is one of those not yet looked at and the dylib exports it. -/
def Carries (idx : ℕ) (id : SymbolId) : Prop :=
  ∃ d, ctx.dylibs[idx]? = some d ∧
    ((∃ seen, d.symbolsSeen = some seen ∧ id ∈ d.symbols) ∨
      (∀ seen, d.symbolsSeen = some seen → seen ≤ id) ∧ ctx.symbols.isGlobal id = true ∧
        ctx.symbols.name id ∈ d.exports)

/-- Of the dylibs of `order` that have a symbol, the one whose export of it
comes first. -/
structure FirstHaving (has : ℕ → SymbolId → Prop) (ranks : ℕ → ℕ) (order : List ℕ)
    (id : SymbolId) (idx : ℕ) : Prop where
  mem : idx ∈ order
  exports : has idx id
  first : ∀ j ∈ order, has j id → j = idx ∨ ExportBefore ctx ranks id idx j

/-- The dylib of `order` whose export of a symbol comes first. -/
abbrev IsFirst : (ℕ → ℕ) → List ℕ → SymbolId → ℕ → Prop := FirstHaving ctx (Exports ctx)

end Exports

/-! ## Collecting the symbols -/

section Collect
variable {ctx : Context}

theorem foldl_min_le (l : List ℕ) (n : ℕ) : l.foldl min n ≤ n := by
  induction l generalizing n with
  | nil => exact le_refl _
  | cons a l ih => exact (ih _).trans (min_le_left _ _)

theorem seen_le {seen : ℕ} {d : DylibFile} (hd : d ∈ ctx.dylibs) (hs : d.symbolsSeen = some seen) :
    (ctx.dylibs.filterMap DylibFile.symbolsSeen).foldl min ctx.symbols.names.length ≤ seen := by
  have hmem : seen ∈ ctx.dylibs.filterMap DylibFile.symbolsSeen := List.mem_filterMap.2 ⟨d,hd,hs⟩
  generalize ctx.dylibs.filterMap DylibFile.symbolsSeen = seens at hmem
  generalize ctx.symbols.names.length = n
  induction seens generalizing n with
  | nil => cases hmem
  | cons a seens ih =>
    rcases List.mem_cons.1 hmem with rfl | hmem
    · exact (foldl_min_le seens _).trans (min_le_right _ _)
    · exact ih hmem _

theorem collected_dylib {idx : ℕ} {d : DylibFile}
    (h : (collectDylibSymbols ctx)[idx]? = some d) :
    ∃ d', ctx.dylibs[idx]? = some d' ∧ d.weakExports = d'.weakExports ∧
      ∀ id, id ∈ d.symbols ↔ Carries ctx idx id := by
  simp only [collectDylibSymbols, List.getElem?_map, Option.map_eq_some_iff] at h
  obtain ⟨d',hd',rfl⟩ := h
  refine ⟨d',hd',rfl,fun id => ?_⟩
  have hcarries : Carries ctx idx id ↔ (∃ seen, d'.symbolsSeen = some seen ∧ id ∈ d'.symbols) ∨
      (∀ seen, d'.symbolsSeen = some seen → seen ≤ id) ∧ ctx.symbols.isGlobal id = true ∧
        ctx.symbols.name id ∈ d'.exports := by
    simp [Carries, hd']
  rw [hcarries]
  cases hs : d'.symbolsSeen with
  | none =>
    simp only [List.mem_filter, List.mem_range, Bool.and_eq_true, decide_eq_true_eq, reduceCtorEq,
      false_and, exists_false, false_or, false_imp_iff, implies_true, true_and]
    exact ⟨fun h => h.2,fun h => ⟨global_lt h.1,h⟩⟩
  | some seen =>
    have hmin := seen_le (List.mem_of_getElem? hd') hs
    have hle := foldl_min_le (ctx.dylibs.filterMap DylibFile.symbolsSeen) ctx.symbols.names.length
    simp only [List.mem_append, List.mem_filter, List.mem_range'_1, decide_eq_true_eq,
      Option.some.injEq, exists_eq_left', forall_eq']
    constructor
    · rintro (h | ⟨⟨⟨-,hglobal⟩,hseen⟩,hname⟩)
      · exact Or.inl h
      · exact Or.inr ⟨hseen,hglobal,hname⟩
    · rintro (h | ⟨hseen,hglobal,hname⟩)
      · exact Or.inl h
      · have hlt := global_lt hglobal
        exact Or.inr ⟨⟨⟨⟨by omega,by omega⟩,hglobal⟩,hseen⟩,hname⟩

/-- Lists of all the exports there were carry all the exports there are. -/
theorem Collected.carries (hc : Collected ctx) (idx : ℕ) (id : SymbolId) :
    Carries ctx idx id ↔ Exports ctx idx id := by
  constructor
  · rintro ⟨d,hd,⟨seen,hs,hid⟩ | ⟨-,hglobal,hname⟩⟩
    · have hmem := ((hc d (List.mem_of_getElem? hd) seen hs).2 id).1 hid
      exact ⟨hmem.2.1,d,hd,hmem.2.2⟩
    · exact ⟨hglobal,d,hd,hname⟩
  · rintro ⟨hglobal,d,hd,hname⟩
    refine ⟨d,hd,?_⟩
    by_cases hseen : ∀ seen, d.symbolsSeen = some seen → seen ≤ id
    · exact Or.inr ⟨hseen,hglobal,hname⟩
    · push Not at hseen
      obtain ⟨seen,hs,hlt⟩ := hseen
      have hmem := (hc d (List.mem_of_getElem? hd) seen hs).2 id
      exact Or.inl ⟨seen,hs,hmem.2 ⟨hlt,hglobal,hname⟩⟩

theorem mem_exporting {pos idx : ℕ} {e : Exporting} :
    e ∈ exporting ctx (collectDylibSymbols ctx) pos idx ↔
      Carries ctx idx e.id ∧
      e.key = if exportsWeak ctx idx e.id then pos % 2^32 ||| weakExport else pos % 2^32 := by
  unfold exporting
  split
  case h_1 d hd =>
    obtain ⟨d',hd',hweak,hsyms⟩ := collected_dylib hd
    have hw (id : SymbolId) : exportsWeak ctx idx id = decide (ctx.symbols.name id ∈ d.weakExports) := by
      rw [exportsWeak, hd', hweak]
      rfl
    rw [List.mem_map]
    constructor
    · rintro ⟨id,hid,rfl⟩
      exact ⟨(hsyms id).1 hid,by rw [hw]⟩
    · rintro ⟨hcarries,hkey⟩
      refine ⟨e.id,(hsyms e.id).2 hcarries,?_⟩
      rw [hw] at hkey
      exact congrArg (Exporting.mk e.id) hkey.symm
  case h_2 hnone =>
    have hnone' : ctx.dylibs[idx]? = none := by
      simpa [collectDylibSymbols, List.getElem?_map] using hnone
    constructor
    · intro h
      cases h
    · rintro ⟨⟨d,hd,-⟩,-⟩
      rw [hnone'] at hd
      cases hd

end Collect

/-! ## The search order -/

section Order
variable {count start : ℕ} {ranks : ℕ → ℕ}

theorem mem_order {idx : ℕ} :
    idx ∈ dylibSearchOrder count ranks start ↔ start ≤ idx ∧ idx < count ∧ ranks idx ≠ rankMax := by
  rw [dylibSearchOrder, mem_sort, List.mem_filter, List.mem_range'_1]
  simp only [bne_iff_ne, ne_eq]
  omega

theorem order_sorted : (dylibSearchOrder count ranks start).Pairwise (Before ranks) := by
  have hrange : (List.range' start (count - start)).Pairwise fun i j => i < j :=
    List.pairwise_lt_range'
  have hnodup : (List.range' start (count - start)).Nodup := hrange.imp Nat.ne_of_lt
  exact sort_stable ranks (hrange.filter _) (hnodup.filter _)

theorem order_length : (dylibSearchOrder count ranks start).length ≤ count := by
  rw [dylibSearchOrder, (sort_perm _ _).length_eq]
  refine (List.length_filter_le _ _).trans ?_
  rw [List.length_range']
  exact Nat.sub_le _ _

end Order

/-! ## The race -/

/-- The key of a dylib's place in the search order. -/
def placeKey (pos : ℕ) (weak : Bool) : ℕ := pos + if weak then weakExport else 0

theorem place_key {pos : ℕ} (h : pos < weakExport) (weak : Bool) :
    (if weak then pos % 2^32 ||| weakExport else pos % 2^32) = placeKey pos weak := by
  have hpos : pos % 2^32 = pos := Nat.mod_eq_of_lt (h.trans (by decide))
  rw [hpos, placeKey]
  cases weak with
  | false => rfl
  | true =>
    have hor : 2^31 * 1 + pos = 2^31 * 1 ||| pos := Nat.two_pow_add_eq_or_of_lt h 1
    simp only [if_true, weakExport]
    rw [Nat.or_comm, ← Nat.mul_one (2^31), ← hor]
    omega

theorem place_key_lt {pos pos' : ℕ} {weak weak' : Bool} (h : pos < weakExport)
    (h' : pos' < weakExport) :
    placeKey pos weak ≤ placeKey pos' weak' ↔
      weak = false ∧ weak' = true ∨ weak = weak' ∧ pos ≤ pos' := by
  cases weak <;> cases weak' <;> simp [placeKey] <;> omega

section Order
variable {ctx : Context} {order : List ℕ} {first : SymbolId → ℕ} {has : ℕ → SymbolId → Prop}
variable (hhas : ∀ idx id, Carries ctx idx id ↔ has idx id) (hlen : order.length ≤ weakExport)
variable (hfirst : FirstExporters ctx (collectDylibSymbols ctx) order first)
include hhas hlen hfirst

theorem first_le {pos idx : ℕ} {id : SymbolId} (hpos : order[pos]? = some idx)
    (hexp : has idx id) : first id ≤ placeKey pos (exportsWeak ctx idx id) := by
  obtain ⟨done,hrun,rfl⟩ := hfirst
  have hlt : pos < weakExport := (List.getElem?_eq_some_iff.1 hpos).1.trans_le hlen
  have hmem : (⟨id,placeKey pos (exportsWeak ctx idx id)⟩ : Exporting) ∈
      exporting ctx (collectDylibSymbols ctx) pos idx :=
    mem_exporting.2 ⟨(hhas idx id).2 hexp,(place_key hlt _).symm⟩
  refine race_le_value hrun (show (⟨id,placeKey pos (exportsWeak ctx idx id)⟩,()) ∈
    (initial _ fun _ => noExporter).left pos from ?_)
  simp only [initial, hpos]
  exact List.mem_map_of_mem hmem

theorem first_eq (id : SymbolId) :
    first id = noExporter ∨ ∃ pos idx, order[pos]? = some idx ∧
      has idx id ∧ first id = placeKey pos (exportsWeak ctx idx id) := by
  obtain ⟨done,hrun,rfl⟩ := hfirst
  rcases race_eq hrun id with h | ⟨pos,bt,hbt,hid,hkey⟩
  · exact Or.inl h
  · right
    simp only [initial] at hbt
    split at hbt
    case h_1 idx hpos =>
      obtain ⟨e,he,rfl⟩ := List.mem_map.1 hbt
      obtain ⟨hexp,hk⟩ := mem_exporting.1 he
      have hlt : pos < weakExport := (List.getElem?_eq_some_iff.1 hpos).1.trans_le hlen
      rw [place_key hlt] at hk
      subst hid
      exact ⟨pos,idx,hpos,(hhas idx e.id).1 hexp,hkey.trans hk⟩
    case h_2 => cases hbt

end Order

section First
variable {ctx : Context} {count start : ℕ} {ranks : ℕ → ℕ} {first : SymbolId → ℕ}
variable {has : ℕ → SymbolId → Prop}
variable (hhas : ∀ idx id, Carries ctx idx id ↔ has idx id) (hcount : count < weakExport)
variable (hfirst : FirstExporters ctx (collectDylibSymbols ctx)
  (dylibSearchOrder count ranks start) first)
include hhas hcount hfirst

/-- The race finds the first exporter, and nothing exactly if there is none. -/
theorem first_exporter (id : SymbolId) :
    (first id = noExporter ∧
      ∀ idx ∈ dylibSearchOrder count ranks start, ¬ has idx id) ∨
    first id ≠ noExporter ∧
      ∃ idx, FirstHaving ctx has ranks (dylibSearchOrder count ranks start) id idx ∧
        exporterOf (dylibSearchOrder count ranks start) (first id) = idx ∧
        (weakExport ≤ first id ↔ exportsWeak ctx idx id = true) := by
  have hlt {pos idx : ℕ} (hpos : (dylibSearchOrder count ranks start)[pos]? = some idx) :
      pos < count :=
    (List.getElem?_eq_some_iff.1 hpos).1.trans_le order_length
  have hkeylt {pos idx : ℕ} (hpos : (dylibSearchOrder count ranks start)[pos]? = some idx)
      (weak : Bool) : placeKey pos weak < noExporter := by
    have hpos := hlt hpos
    have hweak : (if weak then weakExport else 0) ≤ weakExport := by split <;> simp
    simp only [placeKey, weakExport, noExporter] at *
    omega
  rcases first_eq hhas (order_length.trans hcount.le) hfirst id with h | ⟨pos,idx,hpos,hexp,hkey⟩
  · refine Or.inl ⟨h,?_⟩
    intro idx hidx hexp
    obtain ⟨pos,hpos⟩ := List.mem_iff_getElem?.1 hidx
    have hle := first_le hhas (order_length.trans hcount.le) hfirst hpos hexp
    rw [h] at hle
    exact absurd hle (not_le.2 (hkeylt hpos _))
  · right
    have hposw : pos < weakExport := (hlt hpos).trans hcount
    refine ⟨hkey ▸ (hkeylt hpos _).ne,idx,⟨List.mem_of_getElem? hpos,hexp,?_⟩,?_,?_⟩
    · intro j hj hexpj
      obtain ⟨posj,hposj⟩ := List.mem_iff_getElem?.1 hj
      have hle := first_le hhas (order_length.trans hcount.le) hfirst hposj hexpj
      rw [hkey, place_key_lt hposw ((hlt hposj).trans hcount)] at hle
      rcases hle with ⟨hw,hwj⟩ | ⟨hw,hle⟩
      · exact Or.inr (Or.inl ⟨hw,hwj⟩)
      · rcases Nat.eq_or_lt_of_le hle with heq | hlt
        · rw [heq, hposj] at hpos
          exact Or.inl (Option.some.inj hpos)
        · refine Or.inr (Or.inr ⟨hw,?_⟩)
          obtain ⟨hi,rfl⟩ := List.getElem?_eq_some_iff.1 hpos
          obtain ⟨hj',rfl⟩ := List.getElem?_eq_some_iff.1 hposj
          exact List.pairwise_iff_getElem.1 order_sorted pos posj hi hj' hlt
    · rw [exporterOf, hkey, placeKey]
      have hmod : (pos + if exportsWeak ctx idx id then weakExport else 0) % weakExport = pos := by
        split
        · rw [Nat.add_mod_right, Nat.mod_eq_of_lt hposw]
        · exact Nat.mod_eq_of_lt hposw
      rw [hmod, List.getD_eq_getElem?_getD, hpos]
      rfl
    · rw [hkey, placeKey]
      cases exportsWeak ctx idx id <;> simp [hposw]

end First

/-! ## The claims of dylibs -/

/-- Of the dylibs that have a symbol whose best definition has a rank, dylib
`idx` claims it: its export comes first and before that rank, the symbol is
referenced, no live tentative definition hides the export, and the symbol is
none of DTrace's. -/
structure ClaimsHaving (ctx : Context) (has : ℕ → SymbolId → Prop) (onlyAlive : Bool)
    (ranking : DylibRanking) (rank : ℕ) (id : SymbolId) (idx : ℕ) : Prop where
  first : FirstHaving ctx has ranking.ranks (dylibSearchOrder ranking.count ranking.ranks 0) id idx
  used : (collectReferences ctx onlyAlive).used id = true
  visible : ctx.args.commonsUseDylibs = true ∨ ∀ common ∈ liveCommonSymbols ctx, common.id ≠ id
  notDtrace : isDtraceSymbol (ctx.symbols.name id) = false
  less : ranking.ranks idx + (if exportsWeak ctx idx id then 1 <<< 40 else 0) < rank

/-- A dylib claims a symbol by its exports. -/
abbrev DylibClaims (ctx : Context) : Bool → DylibRanking → ℕ → SymbolId → ℕ → Prop :=
  ClaimsHaving ctx (Exports ctx)

/-- A symbol bound to a dylib. -/
structure Imported (sym : Symbol) (owner : ℕ) : Prop where
  file : sym.file = some (.dylib owner)
  imported : sym.isImported = true
  notCommon : sym.isCommon = false

theorem first_unique {ctx : Context} {has : ℕ → SymbolId → Prop} {ranks : ℕ → ℕ}
    {order : List ℕ} {id : SymbolId} {i j : ℕ} (hi : FirstHaving ctx has ranks order id i)
    (hj : FirstHaving ctx has ranks order id j) : i = j := by
  rcases hi.first j hj.mem hj.exports with h | h
  · exact h.symm
  · rcases hj.first i hi.mem hi.exports with h' | h'
    · exact h'
    · rcases h with ⟨hwi,hwj⟩ | ⟨hw,hr⟩ <;> rcases h' with ⟨hwj',hwi'⟩ | ⟨hw',hr'⟩
      · rw [hwi] at hwi'
        cases hwi'
      · rw [hwi, hwj] at hw'
        cases hw'
      · rw [hwj', hwi'] at hw
        cases hw
      · rw [Before] at hr hr'
        omega

section DylibClaims
variable {ctx : Context} {onlyAlive : Bool} {ranking : DylibRanking} {first : SymbolId → ℕ}
variable {has : ℕ → SymbolId → Prop}
variable (hhas : ∀ idx id, Carries ctx idx id ↔ has idx id) (hcount : ranking.count < weakExport)
variable (hge : ∀ i, 2 <<< 40 ≤ ranking.ranks i)
variable (hfirst : FirstExporters ctx (collectDylibSymbols ctx)
  (dylibSearchOrder ranking.count ranking.ranks 0) first)
include hhas hcount hge hfirst

theorem claim_dylib_claimed (best : SymbolId → ℕ) {id : SymbolId} {idx : ℕ} (sym : Symbol)
    (h : ClaimsHaving ctx has onlyAlive ranking (best id) id idx) :
    Imported (claimDylibExport ctx ranking (dylibSearchOrder ranking.count ranking.ranks 0)
      (collectReferences ctx onlyAlive).used best first (liveCommonSymbols ctx) id sym)
      (providingDylib ctx.dylibs ranking.providers idx (ctx.symbols.name id)) := by
  obtain ⟨hisFirst,hused,hvisible,hdtrace,hless⟩ := h
  rcases first_exporter hhas hcount hfirst id with ⟨-,hnone⟩ | ⟨hsome,j,hj,hjof,hjweak⟩
  · exact absurd hisFirst.exports (hnone idx hisFirst.mem)
  · obtain rfl := first_unique hisFirst hj
    have hweak : (if weakExport ≤ first id then 1 <<< 40 else 0) =
        if exportsWeak ctx idx id then 1 <<< 40 else 0 := by simp only [hjweak]
    have hclass : ¬ best id >>> 40 < 2 := by
      have := hge idx
      rw [Nat.shiftRight_eq_div_pow]
      rw [Nat.shiftLeft_eq] at this
      omega
    have hhidden : (!ctx.args.commonsUseDylibs &&
        (liveCommonSymbols ctx).any fun c => c.id == id) = false := by
      rcases hvisible with h | h
      · simp [h]
      · simp only [Bool.and_eq_false_iff, List.any_eq_false, beq_iff_eq]
        exact Or.inr h
    have hrank : ¬ best id ≤
        ranking.ranks (exporterOf (dylibSearchOrder ranking.count ranking.ranks 0) (first id)) +
          if weakExport ≤ first id then 1 <<< 40 else 0 := by
      rw [hjof, hweak]
      exact not_le.2 hless
    simp only [claimDylibExport, hsome, hused, hclass, hhidden, hdtrace, hrank, false_or,
      Bool.true_eq_false, Bool.false_eq_true, if_false]
    rw [hjof]
    split <;> exact ⟨rfl,rfl,rfl⟩

omit hge in
theorem claim_dylib_unclaimed (best : SymbolId → ℕ) {id : SymbolId} {sym : Symbol}
    (h : ∀ idx, ¬ ClaimsHaving ctx has onlyAlive ranking (best id) id idx) :
    claimDylibExport ctx ranking (dylibSearchOrder ranking.count ranking.ranks 0)
      (collectReferences ctx onlyAlive).used best first (liveCommonSymbols ctx) id sym = sym := by
  simp only [claimDylibExport]
  split
  · rfl
  · next hexp =>
    push Not at hexp
    split
    · rfl
    · next hclass =>
      push Not at hclass
      split
      · rfl
      · next hdtrace =>
        by_cases hrank : best id ≤
            ranking.ranks (exporterOf (dylibSearchOrder ranking.count ranking.ranks 0) (first id)) +
              if weakExport ≤ first id then 1 <<< 40 else 0
        · rw [if_pos hrank]
        · exfalso
          rcases first_exporter hhas hcount hfirst id with ⟨hnone,-⟩ | ⟨-,j,hj,hjof,hjweak⟩
          · exact hexp.1 hnone
          · apply h j
            refine ⟨hj,by simpa using hexp.2,?_,by simpa using hdtrace,?_⟩
            · by_cases huse : ctx.args.commonsUseDylibs = true
              · exact Or.inl huse
              · right
                have hhidden := hclass.2
                simpa [huse] using hhidden
            · rw [hjof] at hrank
              simpa only [hjweak, not_le] using hrank

end DylibClaims

end MoldMacho.ResolveSymbols
