import MoldMacho.Passes.FirstExporters

/-!
# The symbols of the dylibs

What each dylib's list of symbols holds as names are interned, dylibs join the
link and resolution collects the lists. A library that joins a dylib whose
symbols are collected already brings exports whose symbols the list misses,
if the symbols were there.
-/

set_option autoImplicit false

namespace MoldMacho.ResolveSymbols
open MoldMacho.Symbols MoldMacho.DylibRanks
open MoldMacho.Dylibs (DylibFile)

/-! ## The table grows -/

section Grown
variable {symbols symbols' : SymbolTable}

/-- The old symbols of a table are as they were. -/
structure Grown (symbols symbols' : SymbolTable) : Prop where
  length : symbols.names.length ≤ symbols'.names.length
  name : ∀ id < symbols.names.length, symbols'.name id = symbols.name id
  isGlobal : ∀ id < symbols.names.length, symbols'.isGlobal id = symbols.isGlobal id

theorem Grown.refl (symbols : SymbolTable) : Grown symbols symbols :=
  ⟨le_refl _,fun _ _ => rfl,fun _ _ => rfl⟩

theorem name_append {names more : List Name} {id : ℕ} (h : id < names.length) :
    (names ++ more).getD id [] = names.getD id [] := by
  rw [List.getD_eq_getElem?_getD, List.getD_eq_getElem?_getD, List.getElem?_append_left h]

theorem add_local_grown (symbols : SymbolTable) (name : Name) : Grown symbols (symbols.addLocal name) := by
  have hname : ∀ id < symbols.names.length, (symbols.addLocal name).name id = symbols.name id :=
    fun id h => name_append h
  refine ⟨by simp [SymbolTable.addLocal],hname,fun id h => ?_⟩
  rw [SymbolTable.isGlobal, hname id h]
  rfl

theorem intern_grown (symbols : SymbolTable) (name : Name) : Grown symbols (symbols.intern name) := by
  rw [SymbolTable.intern]
  split
  · exact Grown.refl symbols
  · next hnone =>
    refine ⟨by simp,fun id h => name_append h,fun id h => ?_⟩
    have hname : (symbols.names ++ [name]).getD id [] = symbols.name id := name_append h
    rw [SymbolTable.isGlobal, SymbolTable.isGlobal, SymbolTable.name, hname]
    dsimp only
    split
    · next he =>
      -- A local symbol of the name is no global one before or after.
      have hlookup : symbols.lookup (symbols.name id) = none := by
        rw [he]
        simpa using hnone
      rw [hlookup]
      simp only [beq_eq_false_iff_ne.mpr (Nat.ne_of_gt h), Option.some_beq_some]
      rfl
    · rfl

end Grown

/-! ## Runs -/

inductive Op where
  | intern (name : Name)
  | addLocal (name : Name)
  | addDylib (dylib : DylibFile)
  /-- A resolution round, of which only this matters here. -/
  | collect

/-- A dylib new to the link has collected nothing. -/
def newDylib (dylib : DylibFile) : DylibFile := { dylib with symbols := [], symbolsSeen := none }

def step (ctx : Context) : Op → Context
  | .intern name => { ctx with symbols := ctx.symbols.intern name }
  | .addLocal name => { ctx with symbols := ctx.symbols.addLocal name }
  | .addDylib dylib =>
    { ctx with dylibs := (Dylibs.addDylib { dylibs := ctx.dylibs } (newDylib dylib)).1.dylibs }
  | .collect => { ctx with dylibs := collectDylibSymbols ctx }

def run (ctx : Context) (ops : List Op) : Context := ops.foldl step ctx

/-- Each dylib lists, each once, the global symbols whose names it exports. -/
def Current (symbols : SymbolTable) (dylibs : List DylibFile) : Prop :=
  ∀ d ∈ dylibs, d.symbols.Nodup ∧
    ∀ id, id ∈ d.symbols ↔ symbols.isGlobal id = true ∧ symbols.name id ∈ d.exports

/-- The first of the dylibs of `order` that exports a symbol, a strong export
before every weak one. -/
def FirstOf (ctx : Context) (order : List ℕ) (id : SymbolId) (key : ℕ) : Prop :=
  (key = noExporter ∧ ∀ idx ∈ order, ¬ Exports ctx idx id) ∨
  ∃ pos idx, order[pos]? = some idx ∧ Exports ctx idx id ∧
    key = placeKey pos (exportsWeak ctx idx id) ∧
    ∀ (pos' : ℕ) (idx' : ℕ), order[pos']? = some idx' → Exports ctx idx' id →
      exportsWeak ctx idx id = false ∧ exportsWeak ctx idx' id = true ∨
        exportsWeak ctx idx id = exportsWeak ctx idx' id ∧ pos ≤ pos'

/-- What collecting the symbols of the dylibs leaves is what looking up all
their exports would, and the race that follows finds the first exporters. -/
structure UpToDate (ctx : Context) : Prop where
  current : Current ctx.symbols (collectDylibSymbols ctx)
  first : ∀ (order : List ℕ) (first : SymbolId → ℕ), order.length < weakExport →
    FirstExporters ctx (collectDylibSymbols ctx) order first → ∀ id, FirstOf ctx order id (first id)

/-- A library that joins a dylib whose symbols are collected brings no export
whose symbol was there then, but those the dylib had. -/
def Clear (ctx : Context) : Op → Prop
  | .addDylib dylib => ∀ idx e seen, ctx.dylibs.findIdx? (Dylibs.speaksFor (newDylib dylib)) = some idx →
      ctx.dylibs[idx]? = some e → e.symbolsSeen = some seen → ∀ id < seen,
        ctx.symbols.isGlobal id = true → ctx.symbols.name id ∈ dylib.exports →
          ctx.symbols.name id ∈ e.exports
  | _ => True

def AllClear : Context → List Op → Prop
  | _, [] => True
  | ctx, op::ops => Clear ctx op ∧ AllClear (step ctx op) ops

/-! ## One step -/

section Step
variable {ctx : Context}

structure Listed (ctx : Context) : Prop where
  collected : Collected ctx
  nodup : ∀ d ∈ ctx.dylibs, ∀ seen, d.symbolsSeen = some seen → d.symbols.Nodup

theorem listed_symbols {symbols : SymbolTable} (h : Listed ctx) (hg : Grown ctx.symbols symbols) :
    Listed { ctx with symbols } := by
  refine ⟨fun d hd seen hs => ?_,h.nodup⟩
  obtain ⟨hseen,hsyms⟩ := h.collected d hd seen hs
  refine ⟨hseen.trans hg.length,fun id => ?_⟩
  rw [hsyms]
  constructor
  · rintro ⟨hid,hglobal,hname⟩
    have hlt := hid.trans_le hseen
    exact ⟨hid,by rwa [hg.isGlobal id hlt],by rwa [hg.name id hlt]⟩
  · rintro ⟨hid,hglobal,hname⟩
    have hlt := hid.trans_le hseen
    rw [hg.isGlobal id hlt] at hglobal
    rw [hg.name id hlt] at hname
    exact ⟨hid,hglobal,hname⟩

theorem collect_nodup (h : Listed ctx) : ∀ d ∈ collectDylibSymbols ctx, d.symbols.Nodup := by
  intro d hd
  simp only [collectDylibSymbols, List.mem_map] at hd
  obtain ⟨d',hd',rfl⟩ := hd
  cases hs : d'.symbolsSeen with
  | none => exact List.nodup_range.filter _
  | some seen =>
    refine List.nodup_append'.mpr ⟨h.nodup d' hd' seen hs,?_,?_⟩
    · exact ((List.Nodup.filter _ List.nodup_range').filter _).filter _
    · intro id hold hnew
      have hlt := (((h.collected d' hd' seen hs).2 id).mp hold).1
      have hge := List.of_mem_filter (List.mem_of_mem_filter hnew)
      have hge' : seen ≤ id := by simpa using hge
      exact absurd hlt (Nat.not_lt.mpr hge')

theorem collect_current (h : Listed ctx) : Current ctx.symbols (collectDylibSymbols ctx) := by
  intro d hd
  refine ⟨collect_nodup h d hd,?_⟩
  obtain ⟨idx,hidx⟩ := List.mem_iff_getElem?.mp hd
  obtain ⟨d',hd',-,hsyms⟩ := collected_dylib hidx
  have hexports : d.exports = d'.exports := by
    simp only [collectDylibSymbols, List.getElem?_map, hd', Option.map_some, Option.some.injEq] at hidx
    rw [← hidx]
  intro id
  rw [hsyms, h.collected.carries, hexports]
  simp [Exports, hd']

theorem collect_listed (h : Listed ctx) : Listed (step ctx .collect) := by
  have hcurrent := collect_current h
  refine ⟨fun d hd seen hs => ?_,fun d hd _ _ => (hcurrent d hd).1⟩
  have hseen : seen = ctx.symbols.names.length := by
    simp only [step, collectDylibSymbols, List.mem_map] at hd
    obtain ⟨d',-,rfl⟩ := hd
    exact (Option.some.inj hs).symm
  refine ⟨hseen.le,fun id => ?_⟩
  rw [(hcurrent d hd).2 id, hseen]
  constructor
  · exact fun hid => ⟨global_lt hid.1,hid⟩
  · exact fun hid => hid.2

theorem first_of (h : Listed ctx) {order : List ℕ} {first : SymbolId → ℕ}
    (hlen : order.length < weakExport)
    (hfirst : FirstExporters ctx (collectDylibSymbols ctx) order first) (id : SymbolId) :
    FirstOf ctx order id (first id) := by
  have hkey {pos idx : ℕ} (hpos : order[pos]? = some idx) (weak : Bool) :
      placeKey pos weak < noExporter := by
    have hlt := (List.getElem?_eq_some_iff.1 hpos).1.trans hlen
    have hweak : (if weak then weakExport else 0) ≤ weakExport := by split <;> simp
    have hlen' := (List.getElem?_eq_some_iff.1 hpos).1
    simp only [placeKey, weakExport, noExporter] at *
    omega
  rcases first_eq h.collected.carries hlen.le hfirst id with hnone | ⟨pos,idx,hpos,hexp,hplace⟩
  · refine .inl ⟨hnone,fun idx hidx hexp => ?_⟩
    obtain ⟨pos,hpos⟩ := List.mem_iff_getElem?.mp hidx
    have hle := first_le h.collected.carries hlen.le hfirst hpos hexp
    rw [hnone] at hle
    exact absurd hle (Nat.not_le.mpr (hkey hpos _))
  · refine .inr ⟨pos,idx,hpos,hexp,hplace,fun pos' idx' hpos' hexp' => ?_⟩
    have hle := first_le h.collected.carries hlen.le hfirst hpos' hexp'
    rwa [hplace, place_key_lt ((List.getElem?_eq_some_iff.1 hpos).1.trans hlen)
      ((List.getElem?_eq_some_iff.1 hpos').1.trans hlen)] at hle

theorem listed_up_to_date (h : Listed ctx) : UpToDate ctx :=
  ⟨collect_current h,fun _ _ hlen hfirst id => first_of h hlen hfirst id⟩

/-- What registering a dylib makes of the others. -/
theorem mem_add_dylib {dylibs : List DylibFile} {dylib d : DylibFile}
    (hd : d ∈ (Dylibs.addDylib { dylibs } dylib).1.dylibs) :
    d ∈ dylibs ∨ d = dylib ∨ ∃ idx e, dylibs.findIdx? (Dylibs.speaksFor dylib) = some idx ∧
      dylibs[idx]? = some e ∧ d = Dylibs.joinDylib dylib e := by
  unfold Dylibs.addDylib at hd
  split at hd
  · next idx hidx =>
    obtain ⟨i,hi⟩ := List.mem_iff_getElem?.mp hd
    rw [List.getElem?_modify] at hi
    obtain ⟨e,he,rfl⟩ := Option.map_eq_some_iff.mp hi
    split
    · next heq =>
      subst heq
      exact .inr (.inr ⟨_,e,hidx,he,rfl⟩)
    · exact .inl (List.mem_of_getElem? he)
  · rcases List.mem_append.mp hd with hd | hd
    · exact .inl hd
    · exact .inr (.inl (List.mem_singleton.mp hd))

theorem step_listed (h : Listed ctx) {op : Op} (hop : Clear ctx op) : Listed (step ctx op) := by
  cases op with
  | intern name => exact listed_symbols h (intern_grown _ name)
  | addLocal name => exact listed_symbols h (add_local_grown _ name)
  | collect => exact collect_listed h
  | addDylib dylib =>
    refine ⟨fun d hd seen hs => ?_,fun d hd seen hs => ?_⟩
    · rcases mem_add_dylib hd with hd | rfl | ⟨idx,e,hidx,he,rfl⟩
      · exact h.collected d hd seen hs
      · cases hs
      · obtain ⟨hseen,hsyms⟩ := h.collected e (List.mem_of_getElem? he) seen hs
        refine ⟨hseen,fun id => (hsyms id).trans ?_⟩
        constructor
        · rintro ⟨hid,hglobal,hname⟩
          exact ⟨hid,hglobal,Finset.mem_union_left _ hname⟩
        · rintro ⟨hid,hglobal,hname⟩
          rcases Finset.mem_union.mp hname with hname | hname
          · exact ⟨hid,hglobal,hname⟩
          · exact ⟨hid,hglobal,hop idx e seen hidx he hs id hid hglobal hname⟩
    · rcases mem_add_dylib hd with hd | rfl | ⟨idx,e,hidx,he,rfl⟩
      · exact h.nodup d hd seen hs
      · cases hs
      · exact h.nodup e (List.mem_of_getElem? he) seen hs

/-- A library that joins with an export whose symbol was there leaves a list
that misses the symbol. -/
theorem not_clear_stale (h : Listed ctx) {op : Op} (hop : ¬ Clear ctx op) :
    ¬ Current (step ctx op).symbols (collectDylibSymbols (step ctx op)) := by
  cases op with
  | intern name => exact absurd trivial hop
  | addLocal name => exact absurd trivial hop
  | collect => exact absurd trivial hop
  | addDylib dylib =>
    simp only [Clear, not_forall] at hop
    obtain ⟨idx,e,seen,hidx,he,hs,id,hid,hglobal,hname,hmiss⟩ := hop
    have hjoined : (step ctx (.addDylib dylib)).dylibs[idx]? =
        some (Dylibs.joinDylib (newDylib dylib) e) := by
      simp only [step, Dylibs.addDylib, hidx, List.getElem?_modify, he]
      simp
    intro hcurrent
    have hcollected : ∃ d, (collectDylibSymbols (step ctx (.addDylib dylib)))[idx]? = some d ∧
        d.exports = e.exports ∪ dylib.exports ∧ ∀ i ∈ d.symbols, i ∈ e.symbols ∨ seen ≤ i := by
      refine ⟨_,by simp only [collectDylibSymbols, List.getElem?_map, hjoined, Option.map_some]; rfl,
        rfl,fun i hi => ?_⟩
      have hseen : (Dylibs.joinDylib (newDylib dylib) e).symbolsSeen = some seen := hs
      simp only [hseen] at hi
      rcases List.mem_append.mp hi with hi | hi
      · exact .inl hi
      · have hge := List.of_mem_filter (List.mem_of_mem_filter hi)
        exact .inr (by simpa using hge)
    obtain ⟨d,hd,hexports,hsyms⟩ := hcollected
    have hin : id ∈ d.symbols := by
      refine ((hcurrent d (List.mem_of_getElem? hd)).2 id).mpr ⟨hglobal,?_⟩
      rw [hexports]
      exact Finset.mem_union_right _ hname
    rcases hsyms id hin with hold | hge
    · exact hmiss (((h.collected e (List.mem_of_getElem? he) seen hs).2 id).mp hold).2.2
    · exact absurd hid (Nat.not_lt.mpr hge)

end Step

/-! ## The whole run -/

theorem up_to_date_run {ctx : Context} (h : Listed ctx) (ops : List Op) :
    (∀ before, before <+: ops → UpToDate (run ctx before)) ↔ AllClear ctx ops := by
  induction ops generalizing ctx with
  | nil =>
    refine ⟨fun _ => trivial,fun _ before hbefore => ?_⟩
    rw [List.prefix_nil.mp hbefore]
    exact listed_up_to_date h
  | cons op ops ih =>
    constructor
    · intro hall
      have hclear : Clear ctx op := by
        by_contra hop
        exact not_clear_stale h hop (hall [op] ⟨ops,rfl⟩).current
      refine ⟨hclear,(ih (step_listed h hclear)).mp fun before hbefore => ?_⟩
      exact hall (op::before) (List.prefix_cons_inj op |>.mpr hbefore)
    · rintro ⟨hclear,hrest⟩ before hbefore
      cases before with
      | nil => exact listed_up_to_date h
      | cons first before =>
        obtain ⟨rfl,hrun⟩ := List.cons_prefix_cons.mp hbefore
        exact (ih (step_listed h hclear)).mpr hrest before hrun

theorem start_listed : Listed { symbols := SymbolTable.empty } :=
  ⟨fun _ hd => absurd hd List.not_mem_nil,fun _ hd => absurd hd List.not_mem_nil⟩

/-- Wherever a run of the link stands, collecting the symbols of the dylibs there
gives what looking up all their exports gives, if and only if every library that
joined a dylib whose symbols were collected brought no new export whose symbol
was there by then. -/
theorem dylib_symbols_current (ops : List Op) :
    (∀ before, before <+: ops → UpToDate (run { symbols := SymbolTable.empty } before)) ↔
      AllClear { symbols := SymbolTable.empty } ops :=
  up_to_date_run start_listed ops

/-- A stub of a library in the link comes once its symbols are collected, with
an export whose symbol was there. -/
theorem dylib_symbols_stale :
    let lib : DylibFile := { path := [1], installName := [2] }
    let stub : DylibFile := { path := [3], installName := [2], exports := {[0x66]} }
    let ops : List Op := [.intern [0x66],.addDylib lib,.collect,.addDylib stub]
    ¬ Current (run { symbols := SymbolTable.empty } ops).symbols
      (collectDylibSymbols (run { symbols := SymbolTable.empty } ops)) := by
  intro lib stub ops hcurrent
  have hmem : (collectDylibSymbols (run { symbols := SymbolTable.empty } ops))[0]?.isSome := rfl
  obtain ⟨d,hd⟩ := Option.isSome_iff_exists.mp hmem
  have hsymbols : d.symbols = [] := by
    have : (collectDylibSymbols (run { symbols := SymbolTable.empty } ops))[0]?.map
        DylibFile.symbols = some [] := by decide +kernel
    rw [hd] at this
    exact Option.some.inj this
  have hexports : [0x66] ∈ d.exports := by
    have : (collectDylibSymbols (run { symbols := SymbolTable.empty } ops))[0]?.map
        DylibFile.exports = some {[0x66]} := by decide +kernel
    rw [hd] at this
    rw [Option.some.inj this]
    simp
  have hlisted := ((hcurrent d (List.mem_of_getElem? hd)).2 0).mpr ⟨by decide,hexports⟩
  rw [hsymbols] at hlisted
  cases hlisted

end MoldMacho.ResolveSymbols
