import MoldMacho.Lib.Interleave
import MoldMacho.Passes.DylibRanks

/-!
# A round of symbol resolution

The objects' definitions race for each symbol by rank, and the winners claim
it; common symbols merge; and the exports of dylibs claim what the objects leave
undefined. The tasks of the objects, of the dylibs and of the symbols run in
any order within each step.
-/

set_option autoImplicit false

namespace MoldMacho.ResolveSymbols
open MoldMacho.InputSections (InputSection)
open MoldMacho.Macho MoldMacho.Symbols MoldMacho.Definitions MoldMacho.DylibRanks
open MoldMacho.Dylibs (DylibFile)
open MoldMacho.Interleave

structure Args where
  relocatable : Bool := false
  /-- `-weak_reference_mismatches weak`. -/
  weakMismatchesWeak : Bool := false
  /-- `-commons use_dylibs`. -/
  commonsUseDylibs : Bool := false
  commandLineSymbols : List Name := []
  /-- Whether the image starts at the entry point. -/
  hasEntryPoint : Bool := false
  entry : Name := []
  /-- `-u`. -/
  forcedUndefined : List Name := []

structure Context where
  args : Args := {}
  objs : List ObjectFile := []
  isecs : List InputSection := []
  dylibs : List DylibFile := []
  symbols : SymbolTable
  autolinkPriority : ℕ := 2^32 - 1
  bundleHookImports : List SymbolId := []
  /-- The symbol that an archive member was loaded for. -/
  whyLoad : ℕ → Option Name := fun _ => none

section Pass
variable (ctx : Context) (onlyAlive : Bool)

/-- The objects a round considers, each with its index. -/
def consideredObjs : List (ObjectFile × ℕ) :=
  ctx.objs.zipIdx.filter fun obj => !onlyAlive || obj.1.isReachable

/-! ## References -/

structure References where
  used : SymbolId → Bool
  weak : SymbolId → Bool
  strong : SymbolId → Bool

def collectReferences : References :=
  let undefs := (consideredObjs ctx onlyAlive).flatMap fun obj =>
    obj.1.globals.filter fun entry => entry.msym.isUndef
  let named := ctx.args.commandLineSymbols.filterMap ctx.symbols.lookup
  { used := fun id =>
      undefs.any (fun entry => entry.id == id) || named.contains id ||
        ctx.bundleHookImports.contains id
    weak := fun id => undefs.any fun entry => entry.id == id && entry.msym.has nWeakRef
    strong := fun id =>
      undefs.any (fun entry => entry.id == id && !entry.msym.has nWeakRef) ||
        ctx.bundleHookImports.contains id }

def recordReferences (refs : References) (id : SymbolId) (sym : Symbol) : Symbol :=
  let weakWins := ctx.args.weakMismatchesWeak && !ctx.args.relocatable
  if weakWins && refs.weak id then { sym with isWeakRef := true }
  else if refs.strong id then { sym with isStrongRef := true, isWeakRef := false }
  else if refs.weak id && !sym.isStrongRef then { sym with isWeakRef := true }
  else sym

/-! ## The race -/

/-- A definition of an object that competes for its symbol. -/
structure Candidate where
  obj : ObjectFile
  objIdx : ℕ
  entry : Entry
  rank : ℕ

def candidatesOf (obj : ObjectFile) (objIdx : ℕ) : List Candidate :=
  obj.globals.filterMap fun entry =>
    (definitionRank ctx.isecs obj entry ctx.autolinkPriority).map fun rank =>
      { obj, objIdx, entry, rank }

/-- Each object's own definitions, if the round considers the object. -/
def tasks (objIdx : ℕ) : List Candidate :=
  match ctx.objs[objIdx]? with
  | some obj => if !onlyAlive || obj.isReachable then candidatesOf ctx obj objIdx else []
  | none => []

def raceTasks : Tasks SymbolId Candidate Unit ℕ :=
  race (fun c => c.entry.id) fun c => c.rank

/-- The best ranks a race of the objects may leave. -/
def RaceDefinitions (best : SymbolId → ℕ) : Prop :=
  ∃ done, Run raceTasks
    (initial (fun i => (tasks ctx onlyAlive i).map fun c => (c,())) fun _ => rankMax) done ∧
    best = done.slots

/-! ## The claims -/

/-- How far an object is with a definition: the best rank is still to be
compared, its rank is the best and the symbol still to be written, or its
section was discarded and the best rank is still to be cleared. -/
inductive Stage where
  | compare
  | claim
  | discard
  deriving DecidableEq

structure Slot where
  best : ℕ
  sym : Symbol

def claimAccess (isecs : List InputSection) (c : Candidate) : Stage → Slot → Slot × Option Stage
  | .compare, slot => (slot,if slot.best = c.rank then some .claim else none)
  | .claim, slot =>
    let (sym,kept) := claimDefinition isecs c.obj c.entry c.objIdx slot.sym
    ({ slot with sym },if kept then none else some .discard)
  | .discard, slot => ({ slot with best := rankMax },none)

def claimTasks : Tasks SymbolId Candidate Stage Slot where
  slot c := c.entry.id
  access := claimAccess ctx.isecs

def claimStart (best : SymbolId → ℕ) (syms : SymbolId → Symbol) :
    Config ℕ SymbolId Candidate Stage Slot :=
  initial (fun i => (tasks ctx onlyAlive i).map fun c => (c,Stage.compare))
    fun id => { best := best id, sym := syms id }

/-! ## Common symbols -/

structure CommonSym where
  id : SymbolId
  size : ℕ
  p2align : ℕ
  isPrivate : Bool

/-- The tentative definitions of live objects, in input order. -/
def liveCommonSymbols : List CommonSym :=
  (ctx.objs.filter fun obj => obj.isReachable).flatMap fun obj =>
    (obj.globals.filter fun entry =>
      !entry.msym.isStab && entry.msym.isExtern && entry.msym.ty == nUndf &&
        entry.msym.isCommon).map fun entry =>
      { id := entry.id, size := entry.msym.value, p2align := entry.msym.commonP2align
        isPrivate := entry.msym.type &&& nPext != 0 || obj.hidden }

def mergeCommon (best : SymbolId → ℕ) (syms : SymbolId → Symbol) (common : CommonSym) :
    SymbolId → Symbol :=
  if best common.id >>> 40 ≠ 4 then syms
  else
    let sym := syms common.id
    Function.update syms common.id { sym with
      value := max sym.value common.size
      commonP2align := max sym.commonP2align common.p2align
      isPrivateExtern := sym.isPrivateExtern || common.isPrivate }

def mergeCommonSymbols (commons : List CommonSym) (best : SymbolId → ℕ)
    (syms : SymbolId → Symbol) : SymbolId → Symbol :=
  commons.foldl (mergeCommon best) syms

/-! ## The exports of dylibs -/

def weakExport : ℕ := 2^31
def noExporter : ℕ := 2^32 - 1

/-- Brings each dylib's symbols up to date with the symbol table. -/
def collectDylibSymbols : List DylibFile :=
  let numSyms := ctx.symbols.names.length
  let seen := (ctx.dylibs.filterMap DylibFile.symbolsSeen).foldl min numSyms
  let interned := (List.range' seen (numSyms - seen)).filter ctx.symbols.isGlobal
  ctx.dylibs.map fun dylib =>
    let exported (id : SymbolId) : Bool := decide (ctx.symbols.name id ∈ dylib.exports)
    { dylib with
      symbols :=
        match dylib.symbolsSeen with
        | none => (List.range numSyms).filter fun id => ctx.symbols.isGlobal id && exported id
        | some seen =>
          dylib.symbols ++ (interned.filter fun id => decide (seen ≤ id)).filter exported
      symbolsSeen := some numSyms }

/-- A symbol that a dylib exports, and the dylib's place in the search order,
marked if the export is weak. -/
structure Exporting where
  id : SymbolId
  key : ℕ

def exporting (dylibs : List DylibFile) (pos idx : ℕ) : List Exporting :=
  match dylibs[idx]? with
  | some dylib =>
    dylib.symbols.map fun id =>
      let weak := decide (ctx.symbols.name id ∈ dylib.weakExports)
      { id, key := if weak then pos % 2^32 ||| weakExport else pos % 2^32 }
  | none => []

def exporterTasks : Tasks SymbolId Exporting Unit ℕ :=
  race (fun e => e.id) fun e => e.key

/-- The first exporters a race of the dylibs of `order` may leave. -/
def FirstExporters (dylibs : List DylibFile) (order : List ℕ) (first : SymbolId → ℕ) : Prop :=
  ∃ done, Run exporterTasks
    (initial (fun pos => match order[pos]? with
      | some idx => (exporting ctx dylibs pos idx).map fun e => (e,())
      | none => []) fun _ => noExporter) done ∧
    first = done.slots

/-- The dylibs can always be raced to the end. -/
theorem exists_first_exporters (dylibs : List DylibFile) (order : List ℕ) :
    ∃ first, FirstExporters ctx dylibs order first := by
  obtain ⟨done,hdone⟩ := exists_run (T := exporterTasks) (fun _ => 0)
    (fun _ _ _ _ h => by cases h) order.length
    (initial (fun pos => match order[pos]? with
      | some idx => (exporting ctx dylibs pos idx).map fun e => (e,())
      | none => []) fun _ => noExporter)
    (fun pos h => by simp only [initial, List.getElem?_eq_none h])
  exact ⟨done.slots,done,hdone,rfl⟩

/-- Whether an undefined symbol of this name is a DTrace symbol. -/
def isDtraceSymbol (name : Name) : Bool := (Chunks.bytes "___dtrace_").isPrefixOf name

def importFromDylib (dylibs : List DylibFile) (providers : ℕ → List ℕ) (idx : ℕ) (name : Name)
    (sym : Symbol) : Symbol :=
  { sym with
    file := some (.dylib (providingDylib dylibs providers idx name))
    isImported := true, isExtern := true, inputSection := none, isCommon := false }

/-- The dylib that a place in the search order stands for. -/
def exporterOf (order : List ℕ) (key : ℕ) : ℕ := order.getD (key % weakExport) 0

def claimDylibExport (ranking : DylibRanking) (order : List ℕ) (used : SymbolId → Bool)
    (best first : SymbolId → ℕ) (commons : List CommonSym) (id : SymbolId) (sym : Symbol) :
    Symbol :=
  let key := first id
  let won := best id
  let hidden := !ctx.args.commonsUseDylibs && commons.any fun c => c.id == id
  if key = noExporter ∨ used id = false then sym
  else if won >>> 40 < 2 ∨ hidden then sym
  else if isDtraceSymbol (ctx.symbols.name id) then sym
  else
    let idx := exporterOf order key
    let weak := if weakExport ≤ key then 1 <<< 40 else 0
    if won ≤ ranking.ranks idx + weak then sym
    else
      let sym := if sym.isCommon then { sym with isCommon := false, value := 0, commonP2align := 0 }
        else sym
      let owner := providingDylib ctx.dylibs ranking.providers idx (ctx.symbols.name id)
      let sym := importFromDylib ctx.dylibs ranking.providers idx (ctx.symbols.name id) sym
      if ctx.dylibs[owner]?.any DylibFile.isWeak then { sym with isWeakRef := true } else sym

/-! ## The round -/

/-- A round over the objects: the symbols before and after it, and the slots
and the accesses of the claims. -/
structure PassRun (ranking : DylibRanking) (before after : SymbolId → Symbol) where
  best : SymbolId → ℕ
  claimed : Config ℕ SymbolId Candidate Stage Slot
  first : SymbolId → ℕ
  race : RaceDefinitions ctx onlyAlive best
  claims : Run (claimTasks ctx) (claimStart ctx onlyAlive best before) claimed
  exporters : FirstExporters ctx (collectDylibSymbols ctx)
    (dylibSearchOrder ranking.count ranking.ranks 0) first
  result : after = fun id =>
    let refs := collectReferences ctx onlyAlive
    let commons := liveCommonSymbols ctx
    let best id := (claimed.slots id).best
    let merged := mergeCommonSymbols commons best fun id => (claimed.slots id).sym
    let sym := recordReferences ctx refs id (merged id)
    let sym :=
      if ctx.args.relocatable then sym
      else claimDylibExport ctx ranking (dylibSearchOrder ranking.count ranking.ranks 0) refs.used
        best first commons id sym
    { sym with isUsed := refs.used id }

end Pass

end MoldMacho.ResolveSymbols
