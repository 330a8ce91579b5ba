import Mathlib.Data.Finset.Lattice.Basic
import Mathlib.Data.Finset.Image
import MoldMacho.Chunks.Header

/-!
# Loading dylibs and the libraries they re-export

A stub or a binary is read for the link, its re-exported libraries are loaded
before it, and it joins the dylibs of the link. A private library merges into
the dylib that re-exports it, a public one is a dylib of its own. What a file
holds and where an install name leads are the caller's.
-/

set_option autoImplicit false

namespace MoldMacho.Dylibs
open MoldMacho.Chunks

abbrev Name := List UInt8
abbrev Path := List UInt8

/-- The exports of a library, and the weak and the thread-local ones again. -/
structure ExportKinds where
  exports : Finset Name
  weakExports : Finset Name
  tlvExports : Finset Name
  weak_sub : weakExports ⊆ exports
  tlv_sub : tlvExports ⊆ exports

structure MovedExport where
  name : Name
  installName : Name
  currentVersion : ℕ
  compatibilityVersion : ℕ

structure LdDirectives where
  renamed : Bool := false
  moved : List MovedExport := []

/-- The directives among a library's export names, as read for the target. -/
structure LdSymbols where
  added : List Name := []
  hidden : List Name := []
  installName : Option Name := none
  previous : Option (Name × Option ℕ) := none
  compatibilityVersion : Option ℕ := none
  moved : List (Name × Name × Option ℕ) := []

def isDirective (name : Name) : Bool := (bytes "$ld$").isPrefixOf name

namespace LdSymbols

def keeps (ld : LdSymbols) (name : Name) : Bool := !isDirective name && !ld.hidden.contains name

def renamedInstallName (ld : LdSymbols) : Option Name :=
  (ld.previous.map Prod.fst).or ld.installName

def renamedVersion (ld : LdSymbols) : Option ℕ := ld.previous.bind Prod.snd

def finish (ld : LdSymbols) (currentVersion compatibilityVersion : ℕ) : LdDirectives where
  renamed := ld.renamedInstallName.isSome
  moved := ld.moved.map fun (name,installName,version) =>
    { name, installName, currentVersion := version.getD currentVersion,
      compatibilityVersion := version.getD compatibilityVersion }

end LdSymbols

structure DylibIdentity where
  installName : Name
  clients : List Name := []

/-! ## Stubs -/

structure TbdFile where
  installName : Name
  allowableClients : List Name := []
  currentVersion : ℕ := 0x10000
  compatibilityVersion : ℕ := 0x10000
  exports : List Name := []
  weakExports : List Name := []
  tlvExports : List Name := []
  ldSymbols : List Name := []
  reexports : List Name := []

def interpretLdSymbols (read : List Name → LdSymbols) (tbd : TbdFile) : TbdFile × LdDirectives :=
  let ld := read tbd.ldSymbols
  let drops := !tbd.ldSymbols.isEmpty || tbd.weakExports.any isDirective
  let exports := if drops then tbd.exports.filter ld.keeps else tbd.exports
  let weakExports := if drops then tbd.weakExports.filter ld.keeps else tbd.weakExports
  let currentVersion := ld.renamedVersion.getD tbd.currentVersion
  let compatibilityVersion :=
    ld.renamedVersion.getD (ld.compatibilityVersion.getD tbd.compatibilityVersion)
  ({ tbd with
      ldSymbols := [], exports := exports ++ ld.added, weakExports,
      installName := ld.renamedInstallName.getD tbd.installName,
      currentVersion, compatibilityVersion },
   ld.finish currentVersion compatibilityVersion)

structure StubLibrary extends ExportKinds where
  identity : DylibIdentity
  tbd : TbdFile
  directives : LdDirectives

def StubLibrary.read (readLd : List Name → LdSymbols) (file : TbdFile) : StubLibrary :=
  let (tbd,directives) := interpretLdSymbols readLd file
  { identity := { installName := file.installName, clients := file.allowableClients }
    tbd, directives
    exports := tbd.exports.toFinset ∪ tbd.weakExports.toFinset ∪ tbd.tlvExports.toFinset
    weakExports := tbd.weakExports.toFinset
    tlvExports := tbd.tlvExports.toFinset
    weak_sub := Finset.subset_union_right.trans Finset.subset_union_left
    tlv_sub := Finset.subset_union_right }

/-! ## Binaries -/

/-- What a dylib's load commands, symbol table and export trie say. -/
structure DylibImage where
  installName : Name
  clients : List Name := []
  currentVersion : ℕ := 0x10000
  compatibilityVersion : ℕ := 0x10000
  reexports : List Name := []
  rpaths : List Path := []
  /-- Each defined external's and trie entry's name, whether it is weak, and
  whether it is thread-local. -/
  entries : List (Name × Bool × Bool) := []

structure DylibBinary where
  installName : Name
  currentVersion : ℕ
  compatibilityVersion : ℕ
  exports : List Name
  weakExports : List Name
  tlvExports : List Name
  ldSymbols : List Name
  reexports : List Name
  rpaths : List Path
  weak_sub : weakExports ⊆ exports
  tlv_sub : tlvExports ⊆ exports

theorem to_finset_sub {few all : List Name} (h : few ⊆ all) : few.toFinset ⊆ all.toFinset := by
  intro name hname
  exact List.mem_toFinset.2 (h (List.mem_toFinset.1 hname))

theorem map_filter_sub (p : Name × Bool × Bool → Bool) (entries : List (Name × Bool × Bool)) :
    (entries.filter p).map Prod.fst ⊆ entries.map Prod.fst := by
  intro name hname
  obtain ⟨entry,hentry,rfl⟩ := List.mem_map.1 hname
  exact List.mem_map_of_mem (List.mem_of_mem_filter hentry)

def readDylibBinary (image : DylibImage) : DylibBinary :=
  let kept := image.entries.filter fun entry => !isDirective entry.1
  { installName := image.installName
    currentVersion := image.currentVersion
    compatibilityVersion := image.compatibilityVersion
    exports := kept.map Prod.fst
    weakExports := (kept.filter fun entry => entry.2.1).map Prod.fst
    tlvExports := (kept.filter fun entry => entry.2.2).map Prod.fst
    ldSymbols := (((image.entries.map Prod.fst).filter isDirective).mergeSort).dedup
    reexports := image.reexports
    rpaths := image.rpaths
    weak_sub := map_filter_sub _ _
    tlv_sub := map_filter_sub _ _ }

theorem filter_sub_append (keeps : Name → Bool) (added : List Name) {few all : List Name}
    (h : few ⊆ all) : few.filter keeps ⊆ all.filter keeps ++ added := by
  intro name hname
  rw [List.mem_filter] at hname
  exact List.mem_append_left _ (List.mem_filter.2 ⟨h hname.1,hname.2⟩)

def interpretBinaryLdSymbols (read : List Name → LdSymbols) (dylib : DylibBinary) :
    DylibBinary × LdDirectives :=
  let ld := read dylib.ldSymbols
  let currentVersion := ld.renamedVersion.getD dylib.currentVersion
  let compatibilityVersion := ld.renamedVersion.getD dylib.compatibilityVersion
  ({ dylib with
      exports := dylib.exports.filter ld.keeps ++ ld.added
      weakExports := dylib.weakExports.filter ld.keeps
      tlvExports := dylib.tlvExports.filter ld.keeps
      installName := ld.renamedInstallName.getD dylib.installName
      currentVersion, compatibilityVersion
      weak_sub := filter_sub_append _ _ dylib.weak_sub
      tlv_sub := filter_sub_append _ _ dylib.tlv_sub },
   ld.finish currentVersion compatibilityVersion)

def DylibBinary.kinds (dylib : DylibBinary) : ExportKinds where
  exports := dylib.exports.toFinset
  weakExports := dylib.weakExports.toFinset
  tlvExports := dylib.tlvExports.toFinset
  weak_sub := to_finset_sub dylib.weak_sub
  tlv_sub := to_finset_sub dylib.tlv_sub

/-! ## The dylibs of the link -/

/-- Whose install name a dylib has. -/
inductive NameSource where
  | own
  | directive
  | moved
  deriving DecidableEq

def NameSource.rank : NameSource → ℕ
  | .own => 0
  | .directive => 1
  | .moved => 2

structure ReexportEdge where
  dylib : ℕ
  hops : ℕ
  via : Name

/-- The way a library's exports come to a dylib: as a library's of its own or
from a stub, merged from a binary, or from the symbol table or the export trie
of the `-bundle_loader` executable. -/
inductive Route where
  | library
  | mergedBinary
  | loaderSymbols
  | loaderTrie
  deriving DecidableEq

/-- A library whose exports a dylib has gathered, the way they came, and whether
by a file later than the one of the install name. -/
structure Contribution extends ExportKinds where
  route : Route := .library
  later : Bool := false

structure DylibFile where
  path : Path
  installName : Name
  currentVersion : ℕ := 0x10000
  compatibilityVersion : ℕ := 0x10000
  dylibIdx : ℤ := 0
  isBundleLoader : Bool := false
  priority : ℕ := 0
  isWeak : Bool := false
  isReexported : Bool := false
  isNeeded : Bool := false
  isUpward : Bool := false
  isLazy : Bool := false
  namedAt : Option ℕ := none
  isAutolinked : Bool := false
  isImplicit : Bool := false
  exports : Finset Name := ∅
  /-- The symbols of the link it exports, and the size of the symbol table
  they were collected from. -/
  symbols : List ℕ := []
  symbolsSeen : Option ℕ := none
  weakExports : Finset Name := ∅
  hasWeakDefs : Bool := false
  tlvExports : Finset Name := ∅
  mergedReexports : List Name := []
  reexported : List ReexportEdge := []
  /-- The last entry of a name is the map's. -/
  movedExports : List (Name × ℕ) := []
  nameSource : NameSource := .own
  /-- The history of the exports. The linker keeps none, and nothing reads it. -/
  contributions : List Contribution := []

structure Context where
  dylibs : List DylibFile := []
  priorityCounter : ℕ := 0
  /-- The paths of the files that are neither stubs nor dylibs. -/
  indirectFiles : List Path := []

def nextDylibOrdinal (ctx : Context) : ℤ :=
  (ctx.dylibs.filter fun d => !d.isBundleLoader).length + 1

/-- Whether `dylib` is a library that `d` already speaks for. -/
def speaksFor (dylib d : DylibFile) : Bool :=
  let isMoved (d : DylibFile) := d.nameSource == .moved
  d.installName == dylib.installName && isMoved d == isMoved dylib &&
    (!isMoved d || (d.currentVersion == dylib.currentVersion &&
      d.compatibilityVersion == dylib.compatibilityVersion))

def joinDylib (dylib existing : DylibFile) : DylibFile :=
  let renames := decide (dylib.nameSource.rank < existing.nameSource.rank)
  { existing with
    currentVersion := if renames then dylib.currentVersion else existing.currentVersion
    compatibilityVersion :=
      if renames then dylib.compatibilityVersion else existing.compatibilityVersion
    nameSource := if renames then dylib.nameSource else existing.nameSource
    exports := existing.exports ∪ dylib.exports
    mergedReexports := existing.mergedReexports ++ dylib.mergedReexports
    reexported := existing.reexported ++ dylib.reexported
    movedExports := existing.movedExports ++ dylib.movedExports
    contributions := existing.contributions ++
      dylib.contributions.map fun c => { c with later := true } }

def addDylib (ctx : Context) (dylib : DylibFile) : Context × ℕ :=
  match ctx.dylibs.findIdx? (speaksFor dylib) with
  | some idx => ({ ctx with dylibs := ctx.dylibs.modify idx (joinDylib dylib) }, idx)
  | none => ({ ctx with dylibs := ctx.dylibs ++ [dylib] }, ctx.dylibs.length)

structure Moving where
  ctx : Context
  targets : List (Name × ℕ) := []
  movedExports : List (Name × ℕ) := []

def addMovedDylib (path : Path) (state : Moving) (moved : MovedExport) : Moving :=
  match state.targets.find? (fun target => target.1 == moved.installName) with
  | some (_,idx) => { state with movedExports := state.movedExports ++ [(moved.name,idx)] }
  | none =>
    let priority := state.ctx.priorityCounter + 1
    let (ctx,idx) := addDylib { state.ctx with priorityCounter := priority }
      { path, installName := moved.installName
        currentVersion := moved.currentVersion
        compatibilityVersion := moved.compatibilityVersion
        dylibIdx := nextDylibOrdinal state.ctx
        priority, isImplicit := true, nameSource := .moved }
    { ctx, targets := state.targets ++ [(moved.installName,idx)]
      movedExports := state.movedExports ++ [(moved.name,idx)] }

def addMovedDylibs (ctx : Context) (path : Path) (moved : List MovedExport)
    (exports : Finset Name) : Context × List (Name × ℕ) :=
  let state := (moved.filter fun m => decide (m.name ∈ exports)).foldl (addMovedDylib path) { ctx }
  (state.ctx,state.movedExports)

/-! ## Re-exported libraries -/

/-- A re-exported library: its install name, the file that names it and the
rpaths it resolves from, how far from the dylib it is and what re-exports it. -/
structure ReexportRef where
  name : Name
  loader : Path
  loaderRpaths : List Path
  hops : ℕ
  via : Name

def ReexportRef.of (names : List Name) (installName : Name) (loader : Path) (rpaths : List Path)
    (hops : ℕ) : List ReexportRef :=
  names.map fun name => { name, loader, loaderRpaths := rpaths, hops := hops + 1, via := installName }

inductive Content where
  /-- A stub's library and the ones it inlines; none without the target. -/
  | tapi (stub : Option (TbdFile × List TbdFile))
  | dylib (image : DylibImage)
  /-- A universal file's slice, if it has one for the target. -/
  | fat (slice : Option (Path × DylibImage))
  | other

structure MappedFile where
  name : Path
  content : Content

/-- What the loading asks of the arguments and of the file system. -/
structure Link where
  noImplicitDylibs : Bool := false
  resolveDylibRef : ReexportRef → Bool → Option MappedFile := fun _ _ => none
  readLd : List Name → LdSymbols := fun _ => {}

inductive Stop where
  | outOfFuel
  | noInstallName (path : Path)

def stripPrefix (start name : List UInt8) : Option (List UInt8) :=
  if start.isPrefixOf name then some (name.drop start.length) else none

/-- `/usr/lib/lib*` outside a directory, or a framework's own binary. -/
def isPublicLocation (installName : Name) : Bool :=
  match stripPrefix (bytes "/usr/lib/") installName with
  | some rest => !rest.contains 0x2f
  | none =>
    match stripPrefix (bytes "/System/Library/Frameworks/") installName with
    | none => false
    | some rest =>
      rest.contains 0x2e && (0x2f :: rest.takeWhile (· != 0x2e)).isSuffixOf installName

def DylibIdentity.isPublic (identity : DylibIdentity) (link : Link) : Bool :=
  !link.noImplicitDylibs && isPublicLocation identity.installName && identity.clients.isEmpty

structure ReexportWalk where
  dylib : DylibFile
  queue : List ReexportRef
  pool : List StubLibrary
  moved : List MovedExport

namespace ReexportWalk

def addEdge (walk : ReexportWalk) (dylib : ℕ) (r : ReexportRef) : ReexportWalk :=
  let edge : ReexportEdge := { dylib, hops := r.hops, via := r.via }
  { walk with dylib := { walk.dylib with reexported := walk.dylib.reexported ++ [edge] } }

def pushMerged (walk : ReexportWalk) (name : Name) : ReexportWalk :=
  { walk with dylib := { walk.dylib with mergedReexports := walk.dylib.mergedReexports ++ [name] } }

/-- Merges a private library the link has. -/
def mergeLoaded (walk : ReexportWalk) (loaded : DylibFile) : ReexportWalk :=
  { walk with dylib := { walk.dylib with
      exports := walk.dylib.exports ∪ loaded.exports
      tlvExports := walk.dylib.tlvExports ∪ loaded.tlvExports
      weakExports := walk.dylib.weakExports ∪ loaded.weakExports
      contributions := walk.dylib.contributions ++ loaded.contributions } }

def mergeTbd (walk : ReexportWalk) (lib : StubLibrary) (documents : List StubLibrary)
    (loader : Path) (loaderRpaths : List Path) (hops : ℕ) : ReexportWalk :=
  { dylib := { walk.dylib with
      exports := walk.dylib.exports ∪ lib.exports
      weakExports := walk.dylib.weakExports ∪ lib.weakExports
      tlvExports := walk.dylib.tlvExports ∪ lib.tlvExports
      contributions := walk.dylib.contributions ++ [{ lib with }] }
    moved := walk.moved ++ lib.directives.moved
    pool := walk.pool ++ documents
    queue := walk.queue ++
      ReexportRef.of lib.tbd.reexports lib.tbd.installName loader loaderRpaths hops }

def mergeBinary (walk : ReexportWalk) (dylib : DylibBinary) (name : Name) (loader : Path)
    (hops : ℕ) : ReexportWalk :=
  { walk with
    dylib := { walk.dylib with
      exports := walk.dylib.exports ∪ dylib.exports.toFinset
      tlvExports := walk.dylib.tlvExports ∪ dylib.tlvExports.toFinset
      contributions := walk.dylib.contributions ++ [{ dylib.kinds with route := .mergedBinary }] }
    queue := walk.queue ++ ReexportRef.of dylib.reexports name loader dylib.rpaths hops }

end ReexportWalk

/-- Adds a library to the link once the libraries it re-exports have loaded. -/
abbrev AddLibrary :=
  Context → DylibFile → List ReexportRef → List StubLibrary → LdDirectives →
    Except Stop (Context × ℕ)

section Load
variable (link : Link) (add : AddLibrary)

def registerTbd (ctx : Context) (path : Path) (lib : StubLibrary) (documents : List StubLibrary) :
    Except Stop (Context × ℕ) :=
  add ctx
    { path, installName := lib.tbd.installName
      currentVersion := lib.tbd.currentVersion
      compatibilityVersion := lib.tbd.compatibilityVersion
      exports := lib.exports
      hasWeakDefs := decide (lib.weakExports ≠ ∅)
      weakExports := lib.weakExports
      tlvExports := lib.tlvExports
      contributions := [{ lib with }] }
    (ReexportRef.of lib.tbd.reexports lib.tbd.installName path [] 0) documents lib.directives

def parseDylibBinary (ctx : Context) (path : Path) (image : DylibImage) :
    Except Stop (Context × ℕ) :=
  if image.installName = [] then .error (.noInstallName path)
  else
    let (binary,directives) := interpretBinaryLdSymbols link.readLd (readDylibBinary image)
    add ctx
      { path, installName := binary.installName
        currentVersion := binary.currentVersion
        compatibilityVersion := binary.compatibilityVersion
        exports := binary.exports.toFinset
        hasWeakDefs := decide (binary.weakExports.toFinset ≠ ∅)
        weakExports := binary.weakExports.toFinset
        tlvExports := binary.tlvExports.toFinset
        contributions := [{ binary.kinds with }] }
      (ReexportRef.of binary.reexports binary.installName path binary.rpaths 0) [] directives

/-- Notes the edge to a public library that the link has loaded for it alone. -/
def addImplicit (walk : ReexportWalk) (r : ReexportRef) :
    Context × ℕ → Context × ReexportWalk
  | (ctx,idx) =>
    ({ ctx with dylibs := ctx.dylibs.modify idx fun d => { d with isImplicit := true } },
     walk.addEdge idx r)

def loadInlined (ctx : Context) (walk : ReexportWalk) (doc : StubLibrary) (r : ReexportRef) :
    Except Stop (Context × ReexportWalk) :=
  if doc.identity.isPublic link then
    (registerTbd add ctx walk.dylib.path doc walk.pool).map (addImplicit walk r)
  else .ok (ctx,(walk.mergeTbd doc [] r.loader r.loaderRpaths r.hops).pushMerged r.name)

def loadTapi (ctx : Context) (walk : ReexportWalk) (path : Path) (main : StubLibrary)
    (documents : List StubLibrary) (r : ReexportRef) : Except Stop (Context × ReexportWalk) :=
  if main.identity.isPublic link then
    (registerTbd add ctx path main documents).map (addImplicit walk r)
  else
    .ok (ctx,(walk.pushMerged main.identity.installName).mergeTbd main documents path [] r.hops)

/-- Loads a binary re-exported as `r`: the file `dep`, or the slice `path` of
it. -/
def loadBinary (ctx : Context) (walk : ReexportWalk) (dep path : Path) (image : DylibImage)
    (r : ReexportRef) : Except Stop (Context × ReexportWalk) :=
  let found : DylibIdentity := { installName := image.installName, clients := image.clients }
  if found.isPublic link then
    (parseDylibBinary link add ctx path image).map (addImplicit walk r)
  else
    let (dylib,directives) := interpretBinaryLdSymbols link.readLd (readDylibBinary image)
    let walk := { walk with moved := walk.moved ++ directives.moved }
    .ok (ctx,(walk.mergeBinary dylib found.installName dep r.hops).pushMerged found.installName)

def loadFile (ctx : Context) (walk : ReexportWalk) (dep : MappedFile) (r : ReexportRef) :
    Except Stop (Context × ReexportWalk) :=
  match dep.content with
  | .other => .ok ({ ctx with indirectFiles := ctx.indirectFiles ++ [dep.name] },walk)
  | .tapi none => .ok (ctx,walk)
  | .tapi (some (main,documents)) =>
    loadTapi link add ctx walk dep.name (.read link.readLd main)
      (documents.map (.read link.readLd)) r
  | .fat none => .ok (ctx,walk)
  | .dylib image => loadBinary link add ctx walk dep.name dep.name image r
  | .fat (some (path,image)) => loadBinary link add ctx walk dep.name path image r

/-- Loads a re-exported library: one the link has, else the file the name
resolves to, else the document inlined for it. -/
def load (ctx : Context) (walk : ReexportWalk) (r : ReexportRef) :
    Except Stop (Context × ReexportWalk) :=
  let isPublic := !link.noImplicitDylibs && isPublicLocation r.name
  match ctx.dylibs.zipIdx.find? (fun d => d.1.installName == r.name) with
  | some (loaded,idx) =>
    if isPublic then .ok (ctx,walk.addEdge idx r)
    else .ok (ctx,(walk.mergeLoaded loaded).pushMerged r.name)
  | none =>
    let inlined := walk.pool.find? fun d => d.identity.installName == r.name
    let onDisk := if inlined.isSome && !isPublic then none
      else link.resolveDylibRef r inlined.isSome
    match onDisk, inlined with
    | some dep, _ => loadFile link add ctx walk dep r
    | none, some doc => loadInlined link add ctx walk doc r
    | none, none => .ok (ctx,walk)

def loadReexports : ℕ → Context → ReexportWalk → List Name → Except Stop (Context × ReexportWalk)
  | 0, _, _, _ => .error .outOfFuel
  | fuel+1, ctx, walk, visited =>
    match walk.queue.getLast? with
    | none => .ok (ctx,walk)
    | some r =>
      let walk := { walk with queue := walk.queue.dropLast }
      if visited.contains r.name then loadReexports fuel ctx walk visited
      else
        match load link add ctx walk r with
        | .error stop => .error stop
        | .ok (ctx,walk) => loadReexports fuel ctx walk (r.name :: visited)

end Load

def addLibrary (link : Link) : ℕ → AddLibrary
  | 0, _, _, _, _, _ => .error .outOfFuel
  | fuel+1, ctx, dylib, reexports, documents, directives =>
    let priority := ctx.priorityCounter + 1
    let walk : ReexportWalk :=
      { dylib := { dylib with priority }, queue := reexports, pool := documents, moved := [] }
    match loadReexports link (addLibrary link fuel) fuel { ctx with priorityCounter := priority }
        walk [] with
    | .error stop => .error stop
    | .ok (ctx,walk) =>
      let (ctx,movedExports) :=
        addMovedDylibs ctx walk.dylib.path (walk.moved ++ directives.moved) walk.dylib.exports
      .ok (addDylib ctx { walk.dylib with
        movedExports
        nameSource := if directives.renamed then .directive else walk.dylib.nameSource
        dylibIdx := nextDylibOrdinal ctx })

/-! ## The inputs -/

/-- What puts a dylib in the link: an input file, the `-bundle_loader`
executable with the entries of its symbol table and of its trie (each one's
name, whether it is weak, and whether it is thread-local), or a library that a
merged mergeable dylib links, with what is imported from it and whether weakly. -/
inductive Input where
  | file (mf : MappedFile)
  | bundleLoader (path : Path) (externals trie : List (Name × Bool × Bool))
  | mergedDependency (path : Path) (installName : Name) (currentVersion compatibilityVersion : ℕ)
      (imports : List (Name × Bool))

/-- All the names of a list of names with a mark, and the marked ones. -/
def namesOf (entries : List (Name × Bool)) : Finset Name := (entries.map Prod.fst).toFinset
def marked (entries : List (Name × Bool)) : Finset Name := namesOf (entries.filter Prod.snd)

theorem marked_sub (entries : List (Name × Bool)) : marked entries ⊆ namesOf entries := by
  apply to_finset_sub
  exact (List.filter_sublist.map Prod.fst).subset

/-- What a table of an image's says it exports. -/
def tableKinds (entries : List (Name × Bool × Bool)) : ExportKinds where
  exports := (entries.map Prod.fst).toFinset
  weakExports := ((entries.filter fun entry => entry.2.1).map Prod.fst).toFinset
  tlvExports := ((entries.filter fun entry => entry.2.2).map Prod.fst).toFinset
  weak_sub := to_finset_sub (map_filter_sub _ _)
  tlv_sub := to_finset_sub (map_filter_sub _ _)

/-- The executable's exports. Which ones are weak is not taken over, nor, of
those in the trie, which ones are thread-local. -/
def parseBundleLoader (ctx : Context) (path : Path) (externals trie : List (Name × Bool × Bool)) :
    Context × ℕ :=
  let priority := ctx.priorityCounter + 1
  addDylib { ctx with priorityCounter := priority }
    { path, installName := path, dylibIdx := -1, isBundleLoader := true, priority
      exports := (externals.map Prod.fst).toFinset ∪ (trie.map Prod.fst).toFinset
      tlvExports := ((externals.filter fun entry => entry.2.2).map Prod.fst).toFinset
      contributions := [
        { tableKinds externals with route := .loaderSymbols },
        { tableKinds trie with route := .loaderTrie }] }

def addMergedDependency (ctx : Context) (path : Path) (installName : Name)
    (currentVersion compatibilityVersion : ℕ) (imports : List (Name × Bool)) : Context × ℕ :=
  let priority := ctx.priorityCounter + 1
  addDylib { ctx with priorityCounter := priority }
    { path, installName, currentVersion, compatibilityVersion
      dylibIdx := nextDylibOrdinal ctx, priority
      exports := namesOf imports
      hasWeakDefs := decide (marked imports ≠ ∅)
      weakExports := marked imports
      contributions := [{
        exports := namesOf imports, weakExports := marked imports, tlvExports := ∅
        weak_sub := marked_sub imports
        tlv_sub := Finset.empty_subset _ }] }

section Inputs
variable (link : Link) (fuel : ℕ)

def addInput (ctx : Context) : Input → Except Stop Context
  | .bundleLoader path externals trie => .ok (parseBundleLoader ctx path externals trie).1
  | .mergedDependency path installName current compatibility imports =>
    .ok (addMergedDependency ctx path installName current compatibility imports).1
  | .file mf =>
    match mf.content with
    | .tapi (some (main,documents)) =>
      (registerTbd (addLibrary link fuel) ctx mf.name (.read link.readLd main)
        (documents.map (.read link.readLd))).map Prod.fst
    | .dylib image => (parseDylibBinary link (addLibrary link fuel) ctx mf.name image).map Prod.fst
    | .fat (some (path,image)) =>
      (parseDylibBinary link (addLibrary link fuel) ctx path image).map Prod.fst
    | .tapi none | .fat none | .other => .ok ctx

def addInputs (ctx : Context) : List Input → Except Stop Context
  | [] => .ok ctx
  | input::rest =>
    match addInput link fuel ctx input with
    | .error stop => .error stop
    | .ok ctx => addInputs ctx rest

end Inputs

end MoldMacho.Dylibs
