import MoldMacho.Lib.StableSort
import MoldMacho.Passes.OutputSectionNames
import Mathlib.Logic.Function.Basic
import Mathlib.Logic.Relation

/-!
# Assigning the input sections

The arena of subsections is cut into blocks, and workers gather each block's
subsections by output section. A worker keeps a cache over its blocks; a table
shared by all numbers the output sections as they are found. A run is any
interleaving of the workers' steps: taking a block, going through one of its
subsections, with at most one lookup in the locked table, and leaving a
finished one. The output sections are then made from the blocks' groups.
-/

set_option autoImplicit false

namespace MoldMacho.AssignInputSections
open MoldMacho.Chunks MoldMacho.OutputSectionNames MoldMacho.StableSort

structure InputSection where
  file : ℕ
  shndx : ℕ
  p2align : ℕ := 0
  /-- The output section it is laid out in, once assigned. -/
  outputSection : Option ℕ := none
  isAlive : Bool := true
  isPlaced : Bool := false
  replacement : Option ℕ := none
  deriving DecidableEq

namespace InputSection

def isEmitted (isec : InputSection) : Bool := isec.isAlive && isec.replacement.isNone
def kill (isec : InputSection) : InputSection := { isec with isAlive := false }

def setOutputSection (id : ℕ) (isec : InputSection) : InputSection :=
  { isec with outputSection := some id }

end InputSection

structure OutputSection where
  name : SectionName
  flags : UInt32
  p2align : ℕ := 0
  members : List ℕ := []
  moved : Option MoveOption := none
  hasTlvData : Bool := false
  deriving DecidableEq

structure Context where
  args : Args
  /-- The headers of each object's sections. -/
  sectHdrs : ℕ → ℕ → MachSection
  isecs : List InputSection
  outputSections : List OutputSection := []
  /-- The output sections among the chunks. -/
  chunks : List ℕ := []
  warnings : List (List UInt8) := []

def Context.hdr (ctx : Context) (isec : InputSection) : MachSection :=
  ctx.sectHdrs isec.file isec.shndx

/-! ## The shared table and the workers' caches -/

/-- The raw names, the flags and the move that decide an output section. -/
abbrev OutputSectionKey := List UInt8 × List UInt8 × UInt32 × Option (MoveOption × List UInt8)

def outputSectionKey (hdr : MachSection) (mv : Option Move) : OutputSectionKey :=
  (hdr.rawSegname,hdr.rawSectname,hdr.flags,mv.map fun m => (m.option,m.segment))

/-- The output sections as the workers find them, numbered by their places in
`byName`. -/
structure OutputSectionTable where
  byKey : List (OutputSectionKey × Option (ℕ × Destination)) := []
  byName : List SectionName := []
  /-- Whether each has zero-fill (bit 0) and file-backed (bit 1) members. -/
  fillKinds : List ℕ := []
  hasTlvData : List Bool := []

def fillKind (hdr : MachSection) : ℕ := if hdr.isZerofill then 1 else 2

def isTlvData (hdr : MachSection) : Bool :=
  [sThreadLocalRegular,sThreadLocalZerofill].contains hdr.sectionType

namespace OutputSectionTable

def insertName (table : OutputSectionTable) (name : SectionName) : OutputSectionTable :=
  if name ∈ table.byName then table
  else { table with
    byName := table.byName ++ [name]
    fillKinds := table.fillKinds ++ [0]
    hasTlvData := table.hasTlvData ++ [false] }

def get (args : Args) (map : SectionMap) (hdr : MachSection) (mv : Option Move)
    (key : OutputSectionKey) (table : OutputSectionTable) :
    Option (ℕ × Destination) × OutputSectionTable :=
  match table.byKey.lookup key with
  | some found => (found,table)
  | none =>
    match destination args map hdr mv with
    | none => (none,{ table with byKey := table.byKey ++ [(key,none)] })
    | some dest =>
      let table := table.insertName dest.name
      let n := table.byName.idxOf dest.name
      (some (n,dest),{ table with
        byKey := table.byKey ++ [(key,some (n,dest))]
        fillKinds := table.fillKinds.modify n (· ||| fillKind hdr)
        hasTlvData := table.hasTlvData.modify n (· || isTlvData hdr) })

end OutputSectionTable

/-- A block's members of an output section. -/
structure OutputSectionFileMembers where
  members : List ℕ := []
  p2align : ℕ := 0
  dest : Destination
  deriving DecidableEq

def OutputSectionFileMembers.push (i : ℕ) (isec : InputSection)
    (group : OutputSectionFileMembers) : OutputSectionFileMembers :=
  { group with
    members := group.members ++ [i]
    p2align := max group.p2align isec.p2align }

abbrev Groups := List (ℕ × OutputSectionFileMembers)

/-- What the keys a worker met lead to, and, for each output section, the
block whose members the worker last gathered and its group there. -/
structure WorkerCache where
  sections : List (OutputSectionKey × Option (ℕ × Destination)) := []
  groups : ℕ → Option (ℕ × ℕ) := fun _ => none

namespace WorkerCache

def newGroup (cache : WorkerCache) (groups : Groups) (block n : ℕ) (dest : Destination) :
    ℕ × WorkerCache × Groups :=
  (groups.length,
    { cache with groups := Function.update cache.groups n (some (block,groups.length)) },
    groups ++ [(n,{ dest := dest })])

def group (cache : WorkerCache) (groups : Groups) (block n : ℕ) (dest : Destination) :
    ℕ × WorkerCache × Groups :=
  match cache.groups n with
  | some (b,g) => if b = block then (g,cache,groups) else cache.newGroup groups block n dest
  | none => cache.newGroup groups block n dest

end WorkerCache

/-! ## Gathering a block -/

/-- The subsections of an arena that each job takes. -/
def block : ℕ := 4096

def items (ctx : Context) : List (ℕ × InputSection) := ctx.isecs.zipIdx.map Prod.swap

def blockItems (ctx : Context) (b : ℕ) : List (ℕ × InputSection) :=
  ((items ctx).drop (b*block)).take block

def blockCount (ctx : Context) : ℕ := (ctx.isecs.length+block-1)/block

/-- A worker's block: the subsections to go through, those gone through, the
groups, and the last input section's group. -/
structure Job where
  block : ℕ
  left : List (ℕ × InputSection)
  isecs : List InputSection := []
  groups : Groups := []
  last : Option ((ℕ × ℕ) × Option ℕ) := none

section Gather
variable (ctx : Context) (moves : ℕ → Option Move)

/-- What a key leads to: from the worker's cache or, the first time, from the
table. -/
def lookup (hdr : MachSection) (mv : Option Move) (cache : WorkerCache)
    (table : OutputSectionTable) :
    Option (ℕ × Destination) × WorkerCache × OutputSectionTable :=
  let key := outputSectionKey hdr mv
  match cache.sections.lookup key with
  | some found => (found,cache,table)
  | none =>
    let (found,table) := table.get ctx.args (SectionMap.new ctx.args) hdr mv key
    (found,{ cache with sections := cache.sections ++ [(key,found)] },table)

/-- The last input section's group, if the subsection is of that section and
no symbol move takes it. -/
def lastGroup (job : Job) (sec : ℕ × ℕ) (mv : Option Move) : Option (Option ℕ) :=
  match job.last with
  | some (lastSec,group) => if lastSec = sec ∧ mv = none then some group else none
  | none => none

/-- The group of a subsection; `none` if the link consumes it. -/
def findGroup (i : ℕ) (isec : InputSection) (job : Job) (cache : WorkerCache)
    (table : OutputSectionTable) : Option ℕ × Job × WorkerCache × OutputSectionTable :=
  let sec := (isec.file,isec.shndx)
  let mv := moves i
  match lastGroup job sec mv with
  | some group => (group,job,cache,table)
  | none =>
    match lookup ctx (ctx.hdr isec) mv cache table with
    | (none,cache,table) =>
      let last := if mv = none then some (sec,none) else job.last
      (none,{ job with last },cache,table)
    | (some (n,dest),cache,table) =>
      let (group,cache,groups) := cache.group job.groups job.block n dest
      let last := if mv = none then some (sec,some group) else job.last
      (some group,{ job with groups, last },cache,table)

/-- Goes through one subsection. -/
def visit (x : ℕ × InputSection) (job : Job) (cache : WorkerCache) (table : OutputSectionTable) :
    Job × WorkerCache × OutputSectionTable :=
  if !x.2.isEmitted || x.2.isPlaced then
    ({ job with isecs := job.isecs ++ [x.2] },cache,table)
  else
    match findGroup ctx moves x.1 x.2 job cache table with
    | (none,job,cache,table) => ({ job with isecs := job.isecs ++ [x.2.kill] },cache,table)
    | (some group,job,cache,table) =>
      ({ job with
          isecs := job.isecs ++ [x.2]
          groups := job.groups.modify group fun g => (g.1,g.2.push x.1 x.2) },cache,table)

end Gather

/-! ## Runs -/

/-- The blocks no worker took yet, the workers' jobs and caches, the table, and
the subsections and groups of the blocks that are finished. -/
structure Config (ι : Type) where
  pending : List ℕ
  jobs : ι → Option Job := fun _ => none
  caches : ι → WorkerCache := fun _ => {}
  table : OutputSectionTable := {}
  results : ℕ → List InputSection × Groups := fun _ => ([],[])

section Run
variable {ι : Type} [DecidableEq ι] (ctx : Context) (moves : ℕ → Option Move)

def initial : Config ι where
  pending := List.range (blockCount ctx)

def take (c : Config ι) (i : ι) (b : ℕ) : Config ι :=
  { c with
    pending := c.pending.erase b
    jobs := Function.update c.jobs i (some { block := b, left := blockItems ctx b }) }

def proceed (c : Config ι) (i : ι) (job : Job) (x : ℕ × InputSection)
    (left : List (ℕ × InputSection)) : Config ι :=
  let (job,cache,table) := visit ctx moves x { job with left } (c.caches i) c.table
  { c with
    jobs := Function.update c.jobs i (some job)
    caches := Function.update c.caches i cache
    table }

def finish (c : Config ι) (i : ι) (job : Job) : Config ι :=
  { c with
    jobs := Function.update c.jobs i none
    results := Function.update c.results job.block (job.isecs,job.groups) }

inductive Step : Config ι → Config ι → Prop where
  | take {c : Config ι} {i : ι} {b : ℕ} (hi : c.jobs i = none) (hb : b ∈ c.pending) :
      Step c (take ctx c i b)
  | proceed {c : Config ι} {i : ι} {job : Job} {x : ℕ × InputSection}
      {left : List (ℕ × InputSection)} (hi : c.jobs i = some job) (hleft : job.left = x::left) :
      Step c (proceed ctx moves c i job x left)
  | finish {c : Config ι} {i : ι} {job : Job} (hi : c.jobs i = some job) (hleft : job.left = []) :
      Step c (finish c i job)

/-- A run of the workers until every block is finished. -/
structure Run (done : Config ι) : Prop where
  steps : Relation.ReflTransGen (Step ctx moves) (initial ctx) done
  taken : done.pending = []
  ended : ∀ i, done.jobs i = none

end Run

/-! ## Making the output sections -/

section Make
variable (text : SectionName)

def addOutputSection (ctx : Context) (osec : OutputSection) : ℕ × Context :=
  (ctx.outputSections.length,{ ctx with
    outputSections := ctx.outputSections ++ [osec]
    chunks := ctx.chunks ++ [ctx.outputSections.length] })

/-- Adds the output section `dest` names for its first member. -/
def addOutputSectionFor (ctx : Context) (hdr : MachSection) (dest : Destination)
    (hasTlvData : Bool) : ℕ × Context :=
  addOutputSection ctx
    { name := dest.name
      flags := firstMemberFlags ctx.args hdr text dest.name dest.flagsName
      moved := dest.moved
      hasTlvData }

/-- The groups of output section `n`, block by block. -/
def transpose (results : List (List InputSection × Groups)) (n : ℕ) :
    List OutputSectionFileMembers :=
  results.flatMap fun result => (result.2.filter fun g => g.1 == n).map Prod.snd

def firstMember (groups : List OutputSectionFileMembers) : ℕ :=
  (groups.head?.bind fun g => g.members.head?).getD 0

/-- Makes the output section of number `n` from its first member, and notes
its id. -/
def makeSection (grouped : ℕ → List OutputSectionFileMembers) (table : OutputSectionTable)
    (made : Context × (ℕ → ℕ)) (n : ℕ) : Context × (ℕ → ℕ) :=
  match (grouped n).head?, made.1.isecs[firstMember (grouped n)]? with
  | some first, some isec =>
    let (id,ctx) := addOutputSectionFor text made.1 (made.1.hdr isec) first.dest
      (table.hasTlvData.getD n false)
    (ctx,Function.update made.2 n id)
  -- every output section found has a member; the code indexes it
  | _, _ => made

/-- Gives an output section its members and their alignment. -/
def fill (groups : List OutputSectionFileMembers) (osec : OutputSection) : OutputSection :=
  { osec with
    members := groups.flatMap fun g => g.members
    p2align := max osec.p2align ((groups.map fun g => g.p2align).foldl max 0) }

def pointMembers (ids : ℕ → ℕ) (result : List InputSection × Groups) : List InputSection :=
  result.2.foldl (fun isecs g =>
    g.2.members.foldl (fun isecs i =>
      isecs.modify (i % block) (InputSection.setOutputSection (ids g.1))) isecs) result.1

def settledType (type : UInt32) : UInt32 :=
  if type == sZerofill || type == sGbZerofill then sRegular
  else if type == sThreadLocalZerofill then sThreadLocalRegular
  else type

/-- The flags of a section of zero-fill and file-backed members: file-backed. -/
def settledFlags (flags : UInt32) : UInt32 :=
  flags &&& ~~~sectionType ||| settledType (flags &&& sectionType)

def conflictWarning (name : SectionName) : List UInt8 :=
  bytes "section " ++ name.1 ++ bytes "," ++ name.2 ++
    bytes (" has both zero-fill and file-backed input sections; " ++
      "it is laid out in the file")

def resolveZerofillConflicts (kinds : ℕ → ℕ) (ctx : Context) : Context :=
  { ctx with
    outputSections := ctx.outputSections.mapIdx fun id osec =>
      if kinds id = 3 then { osec with flags := settledFlags osec.flags } else osec
    warnings := ctx.warnings ++ (ctx.outputSections.zipIdx.filter fun osec => kinds osec.2 = 3).map
      fun osec => conflictWarning osec.1.name }

/-- What a number's place among those made stands for. -/
def kindsById (table : OutputSectionTable) (ids : ℕ → ℕ) (id : ℕ) : ℕ :=
  ((List.range table.fillKinds.length).find? fun n => ids n = id).elim 0
    fun n => table.fillKinds.getD n 0

/-- Makes the output sections from the workers' results. -/
def assignInputSections (ctx : Context) (results : List (List InputSection × Groups))
    (table : OutputSectionTable) : Context :=
  let numbers := List.range table.fillKinds.length
  let grouped := transpose results
  let order := sortBy (fun n => firstMember (grouped n)) numbers
  let (ctx,ids) := order.foldl (makeSection text grouped table)
    ({ ctx with isecs := results.flatMap Prod.fst },fun _ => 0)
  let outputSections := numbers.foldl
    (fun osecs n => osecs.modify (ids n) (fill (grouped n))) ctx.outputSections
  let ctx := { ctx with outputSections, isecs := results.flatMap (pointMembers ids) }
  if ctx.args.relocatable then ctx
  else resolveZerofillConflicts (kindsById table ids) ctx

end Make

/-- The blocks' results of a run, in the order of the blocks. -/
def resultsOf {ι : Type} (ctx : Context) (done : Config ι) : List (List InputSection × Groups) :=
  (List.range (blockCount ctx)).map done.results

end MoldMacho.AssignInputSections
