import Mathlib.Logic.Relation
import MoldMacho.InputFiles.Definitions
import MoldMacho.Passes.Replacements

/-!
# Coalescing weak definitions

A subsection that holds a losing copy of a weak definition is replaced by the
one of the winning copy. The losing copies are found with the objects as they
are; the replacements are made one by one, each through those made before.
-/

set_option autoImplicit false

namespace MoldMacho.CoalesceWeakDefs
open MoldMacho.InputSections (InputSection)
open MoldMacho.Definitions MoldMacho.Links MoldMacho.Macho MoldMacho.Replacements MoldMacho.Symbols

structure Context where
  objs : List ObjectFile
  isecs : List InputSection
  /-- The number of symbols. -/
  count : ℕ
  syms : SymbolId → Symbol

/-- Whether an entry is an external weak definition in a section. -/
def isWeakDef (msym : MachSym) : Bool :=
  !msym.isStab && msym.isExtern && msym.ty == nSect && msym.has nWeakDef

/-- The addresses of an object's symbols. -/
def addresses (obj : ObjectFile) : List ℕ :=
  (obj.syms.filter fun entry => !entry.msym.isStab && entry.msym.ty == nSect).map fun entry =>
    entry.msym.value

/-- A losing copy of a weak definition: the symbol, the offset in either copy,
its subsection and the winning copy's. -/
structure Losing where
  id : SymbolId
  off : ℕ
  loser : ℕ
  winner : ℕ
  deriving DecidableEq

section Pass
variable (ctx : Context)

def losingCopy (obj : ObjectFile) (objIdx : ℕ) (entry : Entry) : Option Losing :=
  let sym := ctx.syms entry.id
  match sym.file, sym.inputSection, symbolSubsec ctx.isecs entry with
  | some (.obj owner), some winner, some (loser,off) =>
    let start := (ctx.isecs[loser]?.map InputSection.inputAddr).getD 0
    let stop := start + (ctx.isecs[loser]?.map InputSection.size).getD 0
    if isWeakDef entry.msym && owner != objIdx && off == sym.value &&
        ((addresses obj).filter fun v => decide (start ≤ v ∧ v < stop)).all (· == entry.msym.value)
    then some { id := entry.id, off, loser, winner }
    else none
  | _, _, _ => none

def weakDefLosers (obj : ObjectFile) (objIdx : ℕ) : List Losing :=
  if obj.isReachable then obj.globals.filterMap (losingCopy ctx obj objIdx) else []

def losers : List Losing := ctx.objs.zipIdx.flatMap fun (obj,i) => weakDefLosers ctx obj i

/-- Replaces what a losing copy's subsection is by now. -/
def coalesceWeakDef (fuel : ℕ) (isecs : List InputSection) (copy : Losing) :
    Option (List InputSection) :=
  (resolve isecs fuel copy.winner).bind fun winner =>
    (resolve isecs fuel copy.loser).map fun loser =>
      if loser ≠ winner ∧ replacementOf isecs loser = none then replace isecs loser winner else isecs

/-- Makes the replacements of some losing copies; none if a lookup of one does
not end. -/
def coalesce (fuel : ℕ) (copies : List Losing) : Option (List InputSection) :=
  copies.foldlM (coalesceWeakDef fuel) ctx.isecs

def coalesceWeakDefs (fuel : ℕ) : Option Context :=
  (coalesce ctx fuel (losers ctx)).bind fun isecs =>
    (redirectSymbolsToReplacements isecs fuel ctx.count ctx.syms).map fun syms =>
      { ctx with isecs, syms }

/-- A link as the passes before leave it: indices are those of subsections,
replacements end, and symbols point at none that is replaced. -/
structure Resolved : Prop where
  forest : Forest (replacementOf ctx.isecs)
  links : ∀ i j, replacementOf ctx.isecs i = some j → j < ctx.isecs.length
  entries : ∀ obj ∈ ctx.objs, ∀ entry ∈ obj.syms, ∀ s, entry.subsec = some s →
    s < ctx.isecs.length
  places : ∀ id s, (ctx.syms id).inputSection = some s →
    s < ctx.isecs.length ∧ replacementOf ctx.isecs s = none

/-! ## What the pass is to keep -/

/-- A place where a symbol is defined, by an object or as resolved. -/
def DefinedAt (id : SymbolId) (s off : ℕ) : Prop :=
  (∃ obj ∈ ctx.objs, ∃ entry ∈ obj.syms, entry.id = id ∧
    symbolSubsec ctx.isecs entry = some (s,off)) ∨
  (ctx.syms id).inputSection = some s ∧ (ctx.syms id).value = off

/-- Symbols that some object defines at one place, and those aliases lead to. -/
def Alias : SymbolId → SymbolId → Prop :=
  Relation.EqvGen fun id other => ∃ obj ∈ ctx.objs, ∃ a ∈ obj.syms, ∃ b ∈ obj.syms,
    a.id = id ∧ b.id = other ∧ (symbolSubsec ctx.isecs a).isSome = true ∧
      symbolSubsec ctx.isecs a = symbolSubsec ctx.isecs b

/-- Whether a place is that of a weak definition that lost to another object's. -/
def losingAt (s off : ℕ) : Bool :=
  ctx.objs.zipIdx.any fun (obj,i) => obj.syms.any fun entry =>
    isWeakDef entry.msym && symbolSubsec ctx.isecs entry == some (s,off) &&
      match (ctx.syms entry.id).file with
      | some (.obj owner) => owner != i
      | _ => false

/-- Every symbol of a replaced subsection is one of where it points now. -/
def Placed (isecs : List InputSection) : Prop :=
  ∀ id s r, (ctx.syms id).inputSection = some s → Ends (replacementOf isecs) s r →
    ∃ other, Alias ctx id other ∧ DefinedAt ctx other r (ctx.syms id).value

/-- No strong definition but of a losing copy's address is in a replaced
subsection. -/
def StrongKept (isecs : List InputSection) : Prop :=
  ∀ id s, (ctx.syms id).inputSection = some s → (ctx.syms id).isWeakDef = false →
    replacementOf isecs s ≠ none → losingAt ctx s (ctx.syms id).value = true

/-- What a losing copy makes a replaced subsection of holds no symbol but at the
copy's offset, the weak symbol and its aliases. -/
def AliasOk (isecs : List InputSection) (copy : Losing) : Prop :=
  ∀ l w, Ends (replacementOf isecs) copy.loser l → Ends (replacementOf isecs) copy.winner w →
    l ≠ w → ∀ id s, (ctx.syms id).inputSection = some s → Ends (replacementOf isecs) s l →
      (ctx.syms id).value = copy.off ∧ Alias ctx copy.id id

/-- It holds no strong definition but of a losing copy's address. -/
def StrongOk (isecs : List InputSection) (copy : Losing) : Prop :=
  ∀ l w, Ends (replacementOf isecs) copy.loser l → Ends (replacementOf isecs) copy.winner w →
    l ≠ w → ∀ id s, (ctx.syms id).inputSection = some s → Ends (replacementOf isecs) s l →
      (ctx.syms id).isWeakDef = false → losingAt ctx s (ctx.syms id).value = true

/-- Whether every step of the pass finds the subsections so. -/
def Steps (ok : List InputSection → Losing → Prop) (copies : List Losing) : Prop :=
  ∀ before copy rest, copies = before ++ copy::rest →
    ∀ fuel isecs, coalesce ctx fuel before = some isecs → ok isecs copy

end Pass

end MoldMacho.CoalesceWeakDefs
