import MoldMacho.InputFiles.Dylibs
import MoldMacho.Passes.DylibOrdinals

/-!
# Dropping dylibs

The dylibs no symbol binds to that the link may drop are dropped, and one that
stands for a library exports moved to gives way to the library itself. The ones
left are renumbered in the symbols that bind to them and get their ordinals; one
to which every reference is weak loads weakly.
-/

set_option autoImplicit false

namespace MoldMacho.DeadStripDylibs
open MoldMacho.Chunks (bytes)
open MoldMacho.Dylibs (DylibFile)
open MoldMacho.Symbols
open MoldMacho.DylibOrdinals (Dylib assignDylibOrdinals namedOrder)

structure Context where
  deadStripDylibs : Bool := false
  /-- Whether the output is a dylib. -/
  isDylib : Bool := false
  dylibs : List DylibFile
  symbols : SymbolTable
  syms : SymbolId → Symbol
  warnings : List (List UInt8) := []

/-- The index of the dylib that stands for a lookup at run time. -/
def noDylib : ℕ := 2^32 - 1

/-- What a dropped dylib is renumbered to. -/
def removed : ℕ := 2^64 - 1

/-- The dylib a symbol is bound to. -/
def dylibOf (sym : Symbol) : Option ℕ :=
  match sym.file with
  | some (.dylib idx) => if idx = noDylib then none else some idx
  | _ => none

/-- Where an export moved to. -/
def movedTarget (d : DylibFile) (name : Name) : Option ℕ :=
  (d.movedExports.reverse.find? fun e => e.1 == name).map Prod.snd

/-- The symbol of a moved export, if it is bound to where that moved to. -/
def boundMoved (symbols : SymbolTable) (syms : SymbolId → Symbol) (d : DylibFile) (name : Name) :
    Option SymbolId :=
  (symbols.lookup name).filter fun id =>
    (syms id).file == (movedTarget d name).map fun target => FileId.dylib (target % 2^32)

section Uses
variable (ctx : Context)

def exportsMovedAway (d : DylibFile) : Bool :=
  d.movedExports.any fun e => (boundMoved ctx.symbols ctx.syms d e.1).isSome

def strippable (d : DylibFile) : Bool := ctx.deadStripDylibs || d.isAutolinked || d.isImplicit

/-- Which dylibs have a load command, and how many symbols are bound to each and
how many weakly. -/
structure Uses where
  used : List Bool
  bound : List ℕ
  weak : List ℕ

def startUses : Uses where
  used := ctx.dylibs.map fun d =>
    d.isNeeded || d.installName == bytes "/usr/lib/libSystem.B.dylib" ||
      !strippable ctx d && (d.isReexported || !exportsMovedAway ctx d)
  bound := ctx.dylibs.map fun _ => 0
  weak := ctx.dylibs.map fun _ => 0

def countSymbol (uses : Uses) (sym : Symbol) : Uses :=
  match dylibOf sym with
  | some idx =>
    let used := uses.used.set idx true
    if sym.isUsed then
      { used
        bound := uses.bound.modify idx (· + 1)
        weak := uses.weak.modify idx (· + sym.isWeakRef.toNat) }
    else { uses with used }
  | none => uses

def countSymbols : Uses :=
  ((List.range ctx.symbols.names.length).map ctx.syms).foldl countSymbol (startUses ctx)

end Uses

/-! ## Twins -/

section Twins
variable (dylibs : List DylibFile) (used : List Bool)

def isMoved (i : ℕ) : Bool := dylibs[i]?.any fun d => d.nameSource == .moved

def isUsed (i : ℕ) : Bool := used.getD i false

/-- The first dylib in use of the install name of another, moved or not. -/
def twin (i : ℕ) (movedToo : Bool) : Option ℕ :=
  (List.range dylibs.length).find? fun j =>
    isUsed used j && isMoved dylibs j == movedToo &&
      dylibs[j]?.map DylibFile.installName == dylibs[i]?.map DylibFile.installName

/-- The dylib that speaks for one that exports moved to. -/
def twinOf (i : ℕ) : Option ℕ :=
  if isUsed used i && isMoved dylibs i then
    (twin dylibs used i false).or ((twin dylibs used i true).filter (· != i))
  else none

def movedDylibTwins : List (Option ℕ) := (List.range dylibs.length).map (twinOf dylibs used)

end Twins

/-- Hands a dylib's bindings over to its twin. -/
def mergeTwin (uses : Uses) (entry : Option ℕ × ℕ) : Uses :=
  match entry.1 with
  | some twin =>
    { used := uses.used.set entry.2 false
      bound := uses.bound.modify twin (· + uses.bound.getD entry.2 0)
      weak := uses.weak.modify twin (· + uses.weak.getD entry.2 0) }
  | none => uses

def mergeTwins (uses : Uses) (twins : List (Option ℕ)) : Uses := twins.zipIdx.foldl mergeTwin uses

/-! ## Weak loads -/

def loadsWeakly (uses : Uses) (i : ℕ) : Bool :=
  decide (0 < uses.bound.getD i 0) && uses.weak.getD i 0 == uses.bound.getD i 0

def markWeak (uses : Uses) (dylibs : List DylibFile) : List DylibFile :=
  dylibs.mapIdx fun i d => if loadsWeakly uses i then { d with isWeak := true } else d

/-- Makes the exports that moved from a weakly loaded dylib weak imports. -/
def weakenMovedImports (ctx : Context) : Context :=
  { ctx with
    syms := fun id =>
      let weakened := ctx.dylibs.any fun d =>
        d.isWeak && d.movedExports.any fun e => boundMoved ctx.symbols ctx.syms d e.1 == some id
      if weakened then { ctx.syms id with isWeakRef := true } else ctx.syms id }

/-! ## Removal -/

/-- The dylibs in use, counted from a number on, and the new index of each. -/
def keepUsed : List (DylibFile × Bool) → ℕ → List DylibFile × List ℕ
  | [], _ => ([],[])
  | (d,true)::rest, count =>
    let (kept,remap) := keepUsed rest (count+1)
    (d::kept,count::remap)
  | (_,false)::rest, count =>
    let (kept,remap) := keepUsed rest count
    (kept,removed::remap)

def remapTwin (remap : List ℕ) (entry : Option ℕ × ℕ) : List ℕ :=
  match entry.1 with
  | some twin => remap.set entry.2 (remap.getD twin removed)
  | none => remap

def remapSymbol (remap : List ℕ) (sym : Symbol) : Symbol :=
  match dylibOf sym with
  | some idx => { sym with file := some (.dylib (remap.getD idx removed % 2^32)) }
  | none => sym

def removeUnusedDylibs (ctx : Context) (used : List Bool) (twins : List (Option ℕ)) : Context :=
  let (kept,remap) := keepUsed (ctx.dylibs.zip used) 0
  let remap := twins.zipIdx.foldl remapTwin remap
  { ctx with
    dylibs := kept.map fun d =>
      { d with movedExports := d.movedExports.map fun e => (e.1,remap.getD e.2 removed) }
    syms := fun id => remapSymbol remap (ctx.syms id) }

/-! ## The pass -/

/-- What the ordinals depend on. -/
def ordinalRecord (d : DylibFile) : Dylib where
  isBundleLoader := d.isBundleLoader
  isLazy := d.isLazy
  namedAt := d.namedAt
  priority := d.priority
  dylibIdx := d.dylibIdx

def ordinalRecords (dylibs : List DylibFile) : List Dylib := dylibs.map ordinalRecord

def numberDylibs (dylibs : List DylibFile) : List DylibFile :=
  List.zipWith (fun d (r : Dylib) => { d with dylibIdx := r.dylibIdx }) dylibs
    (assignDylibOrdinals (ordinalRecords dylibs))

/-- Only a dylib can have an upward dependency. -/
def dropUpward (ctx : Context) (order : List ℕ) : Context :=
  if ctx.isDylib then ctx
  else
    let upward := order.filter fun i => ctx.dylibs[i]?.any fun d => d.isUpward
    { ctx with
      warnings := ctx.warnings ++ upward.map fun i =>
        bytes "ignoring upward dylib option for " ++ (ctx.dylibs[i]?.map DylibFile.installName).getD []
      dylibs := ctx.dylibs.mapIdx fun i d =>
        if upward.contains i then { d with isUpward := false } else d }

def deadStripDylibs (ctx : Context) : Context :=
  let counted := countSymbols ctx
  let twins := movedDylibTwins ctx.dylibs counted.used
  let uses := mergeTwins counted twins
  let weakened := weakenMovedImports { ctx with dylibs := markWeak uses ctx.dylibs }
  let kept := removeUnusedDylibs weakened uses.used twins
  let order := namedOrder (ordinalRecords kept.dylibs)
  dropUpward { kept with dylibs := numberDylibs kept.dylibs } order

end MoldMacho.DeadStripDylibs
