import MoldMacho.Lib.Decimal
import MoldMacho.LazyLoads.Slots

/-!
# The helpers of lazy loads

A call of a lazy dylib's symbol goes to the symbol's call helper, and a load or a
compare of its slot to a helper for the symbol and the register, or to one of its
own. They are made at the first uses.
-/

set_option autoImplicit false

namespace MoldMacho.LazyLoads

open Symbols Chunks KeyIndex Rows Decimal

structure LazyHelper where
  sym : SymbolId
  kind : LazyUse
  name : Name
  flag : ℕ
  slot : ℕ
  offset : ℕ
  deriving DecidableEq

structure Helpers where
  helpers : List LazyHelper := []
  index : SymbolId × LazyUse → Option ℕ := fun _ => none
  sites : ℕ × ℕ → Option ℕ := fun _ => none
  size : ℕ := 0

/-- The helper that a use needs; the load from a slot needs none. -/
def useKind (E : Target) (ctx : Context) (u : LazyUseSite) : Option LazyUse :=
  match u.how with
  | .call => some .call
  | .cmp => some .cmp
  | .load => (E.lazyLoadSite (ctx.contents u.isec) u.offset).map fun (reg,own) =>
    .load reg (if own then some (u.isec,u.offset) else none)
  | .slot | .unsupported => none

/-- Whether a use needs a helper. -/
def LazyRef.helped : LazyRef → Bool
  | .call | .load | .cmp => true
  | .slot | .unsupported => false

def loadHelperName (E : Target) (ctx : Context) (sym middle : Name) (reg : ℕ)
    (site : Option (ℕ × ℕ)) : Name :=
  let name := sym ++ middle ++ bytes "loadHelper_" ++ E.lazyRegisterName reg
  match site with
  | some (isec,offset) => name ++ bytes "$for$" ++ ctx.isecNames isec ++ bytes "+" ++ decimal offset
  | none => name

def helperName (E : Target) (ctx : Context) (sym : Name) : LazyUse → Name
  | .call => sym ++ bytes "$lazyLoadStub"
  | .cmp => sym ++ bytes "$lazyGOT$cmpHelper"
  | .load reg site => loadHelperName E ctx sym (bytes "$lazyGOT$") reg site

/-- The helper of a use, at the end of the others; none where the source panics. -/
def newHelper (E : Target) (ctx : Context) (s : Slots) (u : LazyUseSite) (kind : LazyUse)
    (offset : ℕ) : Option LazyHelper :=
  match ctx.files u.sym with
  | some (.dylib d) => (s.index (lazySlot E u.sym u.how)).map fun slot =>
    { sym := u.sym, kind := kind, name := helperName E ctx (ctx.names u.sym) kind
      flag := s.flags d, slot := slot, offset := offset }
  | _ => none

/-- A load or a compare goes to the helper by its place. -/
def Helpers.place (t : Helpers) (u : LazyUseSite) (i : ℕ) : Helpers :=
  if u.how = .call then t
  else { t with sites := fun p => if p = (u.isec,u.offset) then some i else t.sites p }

def Helpers.push (E : Target) (t : Helpers) (h : LazyHelper) : Helpers :=
  { t with
    helpers := t.helpers ++ [h]
    index := fun k => if k = (h.sym,h.kind) then some t.helpers.length else t.index k
    size := t.size+E.lazyHelperSize h.kind }

def helperStep (E : Target) (ctx : Context) (s : Slots) (t : Helpers) (u : LazyUseSite) :
    Option Helpers :=
  if u.how.helped = false then some t
  else
    match useKind E ctx u with
    | none => none
    | some kind =>
      match t.index (u.sym,kind) with
      | some i => some (t.place u i)
      | none => (newHelper E ctx s u kind t.size).map fun h => (t.push E h).place u t.helpers.length

def createLazyHelpers (E : Target) (ctx : Context) (s : Slots) (uses : List LazyUseSite) :
    Option Helpers := uses.foldlM (helperStep E ctx s) {}

def LazyHelper.key (h : LazyHelper) : Option (SymbolId × LazyUse) := some (h.sym,h.kind)

/-- The symbol whose calls go to a helper. -/
def LazyHelper.callSym (h : LazyHelper) : Option SymbolId :=
  if h.kind = .call then some h.sym else none

/-- The call helper of each symbol, as its symbol records it. -/
def Helpers.lazyStubIdx (t : Helpers) : SymbolId → Option ℕ := fill LazyHelper.callSym t.helpers

variable {E : Target} {ctx : Context} {s : Slots}

/-- A helper has what a use needs. -/
def LazyHelper.Serves (E : Target) (ctx : Context) (s : Slots) (h : LazyHelper) (u : LazyUseSite) :
    Prop :=
  h.sym = u.sym ∧ useKind E ctx u = some h.kind ∧
    h.name = helperName E ctx (ctx.names u.sym) h.kind ∧
    s.index (lazySlot E u.sym u.how) = some h.slot ∧
    ∃ d, ctx.files u.sym = some (.dylib d) ∧ h.flag = s.flags d

/-- What the helpers are once some of the uses have theirs. -/
structure Helpers.Of (E : Target) (ctx : Context) (s : Slots) (uses done : List LazyUseSite)
    (t : Helpers) : Prop where
  finds : Finds t.index LazyHelper.key t.helpers
  tiles : Tiles LazyHelper.offset (fun h => E.lazyHelperSize h.kind) 0 t.helpers t.size
  wanted : ∀ h ∈ t.helpers, ∃ u ∈ uses, h.Serves E ctx s u
  made : ∀ u ∈ done, ∀ kind, useKind E ctx u = some kind → ∃ i, t.index (u.sym,kind) = some i
  site_use : ∀ p i, t.sites p = some i → ∃ u ∈ done, (u.isec,u.offset) = p ∧ u.how ≠ .call ∧
    ∃ kind, useKind E ctx u = some kind ∧ t.index (u.sym,kind) = some i
  has_site : ∀ u ∈ done, u.how ≠ .call → ∀ kind, useKind E ctx u = some kind →
    ∃ i, t.sites (u.isec,u.offset) = some i

variable {uses done : List LazyUseSite} {t : Helpers} {u : LazyUseSite} {kind : LazyUse}

end MoldMacho.LazyLoads
