import Mathlib.Order.Lattice.Nat
import Mathlib.Algebra.Order.Monoid.Unbundled.WithTop
import MoldMacho.Chunks.Header
import MoldMacho.Lib.StableSort
import MoldMacho.Macho
import MoldMacho.Passes.Replacements
import MoldMacho.Util.Text

/-!
# Order files

The members of the output sections are ordered: those that an order file names
first, in the order of its lines, and cold code last. A line names a symbol, of
any object or of one.
-/

set_option autoImplicit false

namespace MoldMacho.OrderFiles
open MoldMacho.Chunks MoldMacho.Macho MoldMacho.StableSort MoldMacho.Symbols MoldMacho.Text
open MoldMacho.InputSections (InputSection)

/-- The architectures linked for. -/
inductive Target where
  | arm64
  | x8664
  deriving DecidableEq

def Target.name : Target → Name
  | arm64 => bytes "arm64"
  | x8664 => bytes "x86_64"

/-! ## The lists -/

theorem name_lawful : LawfulBEq Name := inferInstance

attribute [local instance] name_lawful

structure OrderEntry where
  name : Name
  file : Option Name
  deriving DecidableEq

def archs : List Name :=
  [bytes "arm64",bytes "arm64e",bytes "x86_64",bytes "i386",bytes "armv7",bytes "ppc"]

/-- A line without its comment and the white space around it. -/
def bareLine (line : List UInt8) : List UInt8 := trimSpace (line.takeWhile (· != 0x23))

def fileAndName (line : List UInt8) : OrderEntry :=
  match splitOnce line 0x3a with
  | some (file,name) => { name := trimSpace name, file := some (trimSpace file) }
  | none => { name := line, file := none }

/-- What a line says, if anything for this architecture. -/
def readLine (target : Target) (line : List UInt8) : Option OrderEntry :=
  let line := bareLine line
  if line = [] then none
  else
    match splitOnce line 0x3a with
    | some (first,rest) =>
      if trimSpace first ∈ archs then
        if trimSpace first ≠ target.name then none else some (fileAndName (trimSpace rest))
      else some (fileAndName line)
    | none => some (fileAndName line)

/-- The lists' lines; a file that cannot be read has none. -/
def readOrderFiles (target : Target) (texts : List (Option (List UInt8))) : List OrderEntry :=
  texts.flatMap fun text => (text.elim [] lines).filterMap (readLine target)

/-! ## The link -/

def nColdFunc : UInt16 := 0x0400

/-- A bitcode file given to the link-time optimizer. -/
structure LtoInput where
  obj : ℕ
  defined : List Name := []
  won : List Name := []

structure ObjectFile where
  /-- The last part of its path, if it has one. -/
  leaf : Option Name := none
  isReachable : Bool := true
  isLtoObj : Bool := false
  machSyms : List MachSym := []
  symbols : List SymbolId := []

structure NamedSymbol extends Symbol where
  name : Name

structure OutputSection where
  members : List ℕ := []

structure Context where
  target : Target
  orderFiles : List (Option (List UInt8)) := []
  ltoFilenamesInOrderFile : Bool := true
  ltoObjs : List ℕ := []
  ltoInputs : List LtoInput := []
  objs : List ObjectFile := []
  syms : List NamedSymbol := []
  isecs : List InputSection := []
  outputSections : List OutputSection := []

/-- The bitcode file that each symbol comes from, where that is one. -/
def origins (inputs : List LtoInput) (name : Name) : Option (Option ℕ) :=
  match (inputs.reverse.find? fun input => input.won.contains name) with
  | some input => some (some input.obj)
  | none =>
    match inputs.filter fun input => input.defined.contains name with
    | [] => none
    | input::others =>
      some (if others.all fun other => other.obj == input.obj then some input.obj else none)

/-- The object that a symbol of an object counts as of. -/
def objOf (ctx : Context) (obj : ℕ) (name : Name) : ℕ :=
  let origin :=
    if ctx.ltoObjs ≠ [] ∧ ctx.ltoFilenamesInOrderFile then origins ctx.ltoInputs name else none
  if (ctx.objs[obj]?.elim false ObjectFile.isLtoObj) then (origin.bind id).getD obj else obj

def leafOf (ctx : Context) (obj : ℕ) : Name := (ctx.objs[obj]?.bind ObjectFile.leaf).getD []

/-- Whether a line names a symbol of a file. -/
def OrderEntry.names (entry : OrderEntry) (leaf name : Name) : Bool :=
  entry.name == name && entry.file.all (leaf == ·)

def isLive (ctx : Context) (isec : ℕ) : Bool := (ctx.isecs[isec]?).elim false InputSection.isAlive

/-- The live subsection of a symbol, with the leaf name of the file it counts as of. -/
def placeOf (ctx : Context) (sym : NamedSymbol) : Option (ℕ × Name) :=
  match sym.file, sym.inputSection with
  | some (.obj obj), some isec =>
    let isec := Replacements.resolveTo ctx.isecs isec
    if isLive ctx isec then some (isec,leafOf ctx (objOf ctx obj sym.name)) else none
  | _, _ => none

abbrev Rank := WithTop ℕ

/-- Gives a symbol's subsection the ranks of the lines that name it. -/
def rankSymbol (ctx : Context) (entries : List OrderEntry) (ranks : ℕ → Rank) (sym : NamedSymbol) :
    ℕ → Rank :=
  match placeOf ctx sym with
  | none => ranks
  | some (isec,leaf) =>
    (entries.zipIdx.filter fun e => e.1.names leaf sym.name).foldl
      (fun ranks e => Function.update ranks isec (min (ranks isec) e.2)) ranks

/-- The ranks of the subsections; those that no line names are last. -/
def orderFileRanks (ctx : Context) : Option (ℕ → Rank) :=
  if ctx.orderFiles = [] then none
  else
    let entries := readOrderFiles ctx.target ctx.orderFiles
    some (ctx.syms.foldl (rankSymbol ctx entries) fun _ => ⊤)

/-- The subsections of the symbols marked cold. -/
def coldSections (ctx : Context) : List ℕ :=
  (ctx.objs.filter ObjectFile.isReachable).flatMap fun obj =>
    (obj.machSyms.zip obj.symbols).filterMap fun (msym,sym) =>
      if msym.isStab || msym.ty != nSect || !msym.has nColdFunc then none
      else ctx.syms[sym]?.bind fun sym => sym.inputSection

def isCold (ctx : Context) (isec : ℕ) : Bool := (coldSections ctx).contains isec

def OutputSection.sortBy {κ : Type} [LinearOrder κ] (key : ℕ → κ) (osec : OutputSection) :
    OutputSection :=
  { osec with members := StableSort.sortBy key osec.members }

/-- The output sections with the members that an order file names first. -/
def orderSections (ctx : Context) : List OutputSection :=
  match orderFileRanks ctx with
  | some ranks => ctx.outputSections.map (OutputSection.sortBy ranks)
  | none => ctx.outputSections

def sortSectionMembers (ctx : Context) : Context :=
  { ctx with
    outputSections :=
      if (coldSections ctx).isEmpty then orderSections ctx
      else (orderSections ctx).map (OutputSection.sortBy (isCold ctx)) }

end MoldMacho.OrderFiles
