import MoldMacho.Macho
import MoldMacho.Passes.OutputSectionNames
import MoldMacho.Passes.Replacements

/-!
# Symbol moves

Lists of symbols whose subsections move to another segment: data written at run
time, code and constants, and the data a dylib dirties. The symbols that name
subsections are visited in order, each with the subsection that it names.
-/

set_option autoImplicit false

namespace MoldMacho.SymbolMoves
open MoldMacho.Chunks MoldMacho.Macho MoldMacho.Symbols
open MoldMacho.OutputSectionNames hiding sAttrPureInstructions
open MoldMacho.InputSections (InputSection)

/-! ## The link -/

/-- A list and the segment its symbols move to. A name is found in it with 1 if
listed, with 0 if a pattern matches it, and else with -1. -/
structure SymbolMove where
  segment : Name
  find : Name → ℤ

structure ObjectFile where
  /-- The last part of its path, if it has one. -/
  leaf : Option Name := none
  isReachable : Bool := true
  sectHdrs : List MachSection := []
  machSyms : List MachSym := []
  symbols : List SymbolId := []
  firstGlobal : ℕ := 0

structure Context where
  relocatable : Bool := false
  moveToRw : List SymbolMove := []
  moveToRo : List SymbolMove := []
  dirtyData : List SymbolMove := []
  /-- Each base and the name it is given. -/
  aliases : List (Name × Name) := []
  objs : List ObjectFile := []
  internalObj : Option ℕ := none
  symtab : SymbolTable := SymbolTable.empty
  syms : SymbolId → Symbol := fun _ => {}
  isecs : List InputSection := []
  /-- Whether the linker places a subsection itself. -/
  isPlaced : ℕ → Bool := fun _ => false
  /-- The records that category merging rebuilt, and the method lists rewritten in
  the relative form. -/
  dataBlobs : List ℕ := []
  methodLists : List ℕ := []

namespace Context
variable (ctx : Context)

def isInternal (obj : ℕ) : Bool := ctx.internalObj == some obj

def obj (i : ℕ) : ObjectFile := ctx.objs.getD i {}

def isec (i : ℕ) : InputSection := ctx.isecs.getD i { file := 0 }

def hdr (i : ℕ) : MachSection :=
  let isec := ctx.isec i
  (ctx.obj isec.file).sectHdrs.getD isec.shndx { rawSectname := [], rawSegname := [] }

def resolve (i : ℕ) : ℕ := Replacements.resolveTo ctx.isecs i

end Context

/-! ## What symbols name -/

inductive Content where
  | code
  | data
  | other
  deriving DecidableEq

structure Subsec where
  isec : Option ℕ
  segment : Name
  content : Content
  tlvTemplate : Bool
  deriving DecidableEq

/-- An object, or for an alias the base that it stands for. -/
inductive SymbolFile where
  | obj (i : ℕ)
  | aliases (base : SymbolId)
  deriving DecidableEq

def cutName (name : Name) : Name := name.take 16

/-- A section's flags, or the standard ones of its name where those decide what it is. -/
def canonicalSectionFlags (name : SectionName) (flags : UInt32) : UInt32 :=
  let ty := flags &&& sectionType
  let isLiteral := [sCstringLiterals,s4byteLiterals,s8byteLiterals,s16byteLiterals].contains ty
  if named "__TEXT" ["__constructor"] name then sModInitFuncPointers
  else if named "__DATA" ["__got"] name then if isLiteral then flags &&& ~~~sectionType else flags
  else if !(bytes "__objc_").isPrefixOf name.2 then flags
  else
    match standardSectionFlags name with
    | none => flags
    | some table =>
      if name.2 = bytes "__objc_selrefs" then
        if isLiteral then flags &&& ~~~sectionType else flags
      else if ty == table &&& sectionType ||
          ty == sLiteralPointers && isClassOrProtocolRefName name.2 then flags
      else table

def contentOf (name : SectionName) (flags : UInt32) : Content :=
  if flags &&& sAttrPureInstructions ≠ 0 then .code
  else if [sZerofill,sGbZerofill,sThreadLocalRegular,sThreadLocalZerofill,
      sThreadLocalVariables].contains (flags &&& sectionType) then .data
  else if [s4byteLiterals,s8byteLiterals,s16byteLiterals,sCstringLiterals].contains
      (flags &&& sectionType) then .code
  else if named "__TEXT" ["__gcc_except_tab"] name then .code
  else if named "__DATA" ["__data","__cfstring","__auth_ptr","__objc_data","__objc_const",
      "__objc_ivar","__objc_superrefs","__objc_protolist","__objc_protorefs"] name then .data
  else .other

/-- The largest declaration of each common symbol, the first of equals, with its object. -/
def declare (decls : List (SymbolId × ℕ × ℕ)) (sym : SymbolId) (value obj : ℕ) :
    List (SymbolId × ℕ × ℕ) :=
  match decls with
  | [] => [(sym,value,obj)]
  | decl::decls =>
    if decl.1 = sym then (if decl.2.1 < value then (sym,value,obj) else decl) :: decls
    else decl :: declare decls sym value obj

/-- The object whose tentative definition each common symbol's subsection stands for. -/
def commonOwners (ctx : Context) : List (ℕ × ℕ) :=
  let decls := (ctx.objs.zipIdx.filter (·.1.isReachable)).foldl (fun decls (obj,i) =>
    ((obj.machSyms.zip obj.symbols).drop obj.firstGlobal).foldl (fun decls (msym,sym) =>
      if !msym.isStab && msym.ty == nUndf && msym.isCommon then declare decls sym msym.value i
      else decls) decls) []
  decls.filterMap fun (sym,_,obj) =>
    (ctx.syms sym).inputSection.bind fun isec =>
      if ctx.isInternal (ctx.isec isec).file then some (isec,obj) else none

/-- The rewritten records: whether each is a method list. -/
def rewrittenRecord (ctx : Context) (isec : ℕ) : Option Bool :=
  if isec ∈ ctx.methodLists then some true
  else if isec ∈ ctx.dataBlobs then some false
  else none

def shouldWriteToLocalSymtab (name : Name) : Bool :=
  !name.isEmpty && !(bytes "l").isPrefixOf name && !(bytes "L").isPrefixOf name

/-- What subsection `isec`'s own header says of it, when `kept` stands for it. -/
def subsecOf (ctx : Context) (isec kept : ℕ) : Subsec :=
  let hdr := ctx.hdr isec
  let name := (hdr.segname,hdr.sectname)
  let flags := canonicalSectionFlags name hdr.flags
  let rewritten := rewrittenRecord ctx kept
  { isec := if rewritten.isSome || !ctx.isPlaced kept then some kept else none
    segment := hdr.segname
    content := if rewritten = some true then .code else contentOf name flags
    tlvTemplate := [sThreadLocalRegular,sThreadLocalZerofill].contains (flags &&& sectionType) }

def subsecNamed (ctx : Context) (commons : List (ℕ × ℕ)) (obj : ℕ) (msym : MachSym)
    (id : SymbolId) : Option Subsec :=
  let sym := ctx.syms id
  if msym.isCommon then
    (sym.inputSection.filter fun isec => commons.lookup isec == some obj).map fun isec =>
      { isec := some isec, segment := bytes "__DATA", content := .data, tlvTemplate := false }
  else if msym.isStab || !(msym.ty == nSect || msym.ty == nAbs) || sym.file != some (.obj obj) ||
      !msym.isExtern && !shouldWriteToLocalSymtab (ctx.symtab.name id) then none
  else
    match sym.inputSection with
    | none => some { isec := none, segment := [], content := .data, tlvTemplate := false }
    | some isec =>
      let kept := ctx.resolve isec
      if (ctx.isec kept).isAlive then some (subsecOf ctx isec kept) else none

/-- The aliases of definitions in objects, each with its base. -/
def objectAliases (ctx : Context) : List (SymbolId × SymbolId) :=
  ctx.aliases.filterMap fun (base,name) => do
    let base ← ctx.symtab.lookup base
    let name ← ctx.symtab.lookup name
    let b := ctx.syms base
    let a := ctx.syms name
    if (match b.file with | some (.obj _) => true | _ => false) &&
        (a.file,a.inputSection,a.value) == (b.file,b.inputSection,b.value) then some (base,name)
    else none

structure Visit where
  file : SymbolFile
  id : SymbolId
  subsec : Subsec

def objVisits (ctx : Context) : List Visit :=
  let commons := commonOwners ctx
  (ctx.objs.zipIdx.filter fun (obj,i) => obj.isReachable && !ctx.isInternal i).flatMap
    fun (obj,i) => (obj.machSyms.zip obj.symbols).filterMap fun (msym,id) =>
      (subsecNamed ctx commons i msym id).map fun subsec => ⟨.obj i,id,subsec⟩

def aliasVisits (ctx : Context) : List Visit :=
  let commons := commonOwners ctx
  (objectAliases ctx).filterMap fun (base,name) =>
    match (ctx.syms base).file with
    | some (.obj obj) => do
      let file ← ctx.objs[obj]?
      let i ← file.symbols.findIdx? (· == base)
      let msym ← file.machSyms[i]?
      let subsec ← subsecNamed ctx commons obj msym base
      some ⟨.aliases base,name,subsec⟩
    | _ => none

/-- The symbols that name subsections, in the order they are visited. -/
def visits (ctx : Context) : List Visit := objVisits ctx ++ aliasVisits ctx

/-! ## The moves -/

/-- How a list finds a name, or the name of the object's leaf. -/
def foundName (list : SymbolMove) (leaf : Option Name) (name : Name) : ℤ :=
  match list.find name, leaf with
  | -1, some leaf => list.find (leaf ++ bytes ":" ++ name)
  | found, _ => found

/-- How a list finds a symbol. -/
def foundSymbol (ctx : Context) (v : Visit) (list : SymbolMove) : ℤ :=
  let name := ctx.symtab.name v.id
  match v.file with
  | .obj obj => foundName list (ctx.obj obj).leaf name
  | .aliases base => max (foundName list none name) (foundName list none (ctx.symtab.name base))

/-- The first list that finds a symbol, and whether it names it. -/
def findIn (ctx : Context) (v : Visit) (lists : List SymbolMove) : Option (SymbolMove × Bool) :=
  lists.findSome? fun list =>
    let found := foundSymbol ctx v list
    if 0 ≤ found then some (list,found == 1) else none

structure Warning where
  file : SymbolFile
  id : SymbolId
  segment : Name
  content : Content
  deriving DecidableEq

/-- What an option's first list for a symbol makes of its subsection, which the
option leaves in place if it holds `stays`. -/
def moveBy (ctx : Context) (option : MoveOption) (stays : Content) (v : Visit)
    (lists : List SymbolMove) : Option Move × List Warning :=
  match findIn ctx v lists with
  | none => (none,[])
  | some (list,named) =>
    if cutName list.segment = v.subsec.segment then (none,[])
    else if v.subsec.content ≠ stays then (some ⟨option,cutName list.segment⟩,[])
    else (none,if named then [⟨v.file,v.id,list.segment,v.subsec.content⟩] else [])

def choose (ctx : Context) (v : Visit) : Option Move × List Warning :=
  let rw := moveBy ctx .rw .code v ctx.moveToRw
  let ro := moveBy ctx .ro .data v ctx.moveToRo
  let dirty :=
    if (findIn ctx v ctx.dirtyData).isSome && !v.subsec.tlvTemplate then
      some ⟨.dirty,bytes "__DATA_DIRTY"⟩
    else none
  ((rw.1.or ro.1).or dirty,rw.2 ++ ro.2)

/-- The moves by subsection, of which a subsection keeps the first, and the warnings. -/
def visit (ctx : Context) (moves : List (ℕ × Move) × List Warning) (v : Visit) :
    List (ℕ × Move) × List Warning :=
  let (chosen,warnings) := choose ctx v
  match chosen, v.subsec.isec with
  | some m, some isec =>
    (if (moves.1.lookup isec).isSome then moves.1 else moves.1 ++ [(isec,m)],moves.2 ++ warnings)
  | _, _ => (moves.1,moves.2 ++ warnings)

def findMoves (ctx : Context) : List (ℕ × Move) × List Warning :=
  if ctx.relocatable || ctx.moveToRw.isEmpty && ctx.moveToRo.isEmpty && ctx.dirtyData.isEmpty then
    ([],[])
  else (visits ctx).foldl (visit ctx) ([],[])

end MoldMacho.SymbolMoves
