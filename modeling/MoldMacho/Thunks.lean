import Mathlib.Data.List.Dedup
import MoldMacho.InputSections
import MoldMacho.Symbol

/-!
# Range-extension thunks

The layout of a code section with thunks among its members, so that each branch
reaches its target or a thunk for it. A thunk goes in for each batch of members,
as far from the batch's start as stays within its reach.
-/

set_option autoImplicit false

namespace MoldMacho.Thunks
open MoldMacho.Align MoldMacho.InputSections
open MoldMacho.Symbols (FileId SymbolId)

/-- A thunk goes in for each 10 MiB of code. -/
def batchSize : ℕ := 10 * 2^20

/-- A thunk is assumed to be smaller than this. -/
def maxThunkSize : ℕ := 2^20

def thunkAlign : ℕ := 16

/-- An offset that has not been assigned yet. -/
def unplaced : ℕ := 2^32 - 1

structure Thunk where
  offset : ℕ
  syms : List SymbolId
  deriving DecidableEq

structure Target where
  branchRange : ℕ
  thunkSize : ℕ

def arm64 : Target where
  branchRange := 2^28
  thunkSize := 12

/-- The farthest a branch reaches, either way. -/
def Target.distance (target : Target) : ℕ := target.branchRange / 2

def Thunk.size (target : Target) (thunk : Thunk) : ℕ := thunk.syms.length * target.thunkSize

/-- A relocation of a subsection, with the symbol it refers to, if it does to
one. -/
structure Reloc where
  offset : ℕ
  isFuncCall : Bool
  addend : ℤ := 0
  sym : Option SymbolId := none

structure Symbol where
  file : Option FileId := none
  inputSection : Option ℕ := none
  value : ℕ := 0
  hasStub : Bool := false
  hasObjcStub : Bool := false
  isInterposable : Bool := false

structure Context where
  isecs : ℕ → InputSection
  rels : ℕ → List Reloc
  symbols : SymbolId → Symbol
  /-- The subsection that stands for one. -/
  resolve : ℕ → ℕ
  /-- The output section a subsection is in, if it is in one. -/
  outputSection : ℕ → Option ℕ

inductive Side where
  | before
  | after
  | outside
  deriving DecidableEq

/-- What a branch from the section being laid out can reach. -/
structure Reach where
  osec : ℕ
  sides : ℕ → Side
  stubs : Side
  objcStubs : Side
  /-- Bounds on the room the code takes before the section and after it. -/
  before : Option ℕ
  after : Option ℕ
  backward : Bool := false
  forward : Bool := false

def Reach.needs (reach : Reach) : Side → Bool
  | .before => !reach.backward
  | .after => !reach.forward
  | .outside => true

section Layout
variable (target : Target) (ctx : Context)

/-- Whether a branch at `p` may not reach a symbol. -/
def requiresThunk (offsets : ℕ → ℕ) (reach : Reach) (p : ℕ) (id : SymbolId) : Bool :=
  let sym := ctx.symbols id
  if sym.hasStub && sym.isInterposable then reach.needs reach.stubs
  else
    match sym.file with
    | some (.dylib _) => reach.needs (if sym.hasStub then reach.stubs else .outside)
    | some (.obj _) =>
      match sym.inputSection with
      | some isec =>
        let isec := ctx.resolve isec
        match ctx.outputSection isec with
        | some osec =>
          if osec = reach.osec then
            if offsets isec = unplaced then reach.needs .after
            else
              let d : ℤ := (offsets isec + sym.value : ℕ) - p
              !(-(target.distance : ℤ) ≤ d && d < target.distance)
          else reach.needs (reach.sides osec)
        | none => reach.needs .outside
      | none => reach.needs (if sym.hasObjcStub then reach.objcStubs else .outside)
    | none => false

/-- The symbols that the branches of a batch may not reach. -/
def neededSyms (offsets : ℕ → ℕ) (reach : Reach) (batch : List ℕ) : List SymbolId :=
  batch.flatMap fun id => (ctx.rels id).filterMap fun rel =>
    if !rel.isFuncCall || rel.addend ≠ 0 then none
    else rel.sym.filter fun sym =>
      requiresThunk target ctx offsets reach (offsets id + rel.offset) sym

/-- Those with no entry within reach yet, each once and in order. -/
def scanBatch (offsets : ℕ → ℕ) (reach : Reach) (marks : List SymbolId) (batch : List ℕ) :
    List SymbolId :=
  (((neededSyms target ctx offsets reach batch).filter fun sym => !marks.contains sym).dedup).mergeSort

/-- The layout of a section so far: `b` is the start of the batch, `d` the first
member not yet placed, `a` the first one within reach of the batch's end, and
`t` the first thunk there. -/
structure State where
  a : ℕ := 0
  b : ℕ := 0
  d : ℕ := 0
  t : ℕ := 0
  offset : ℕ := 0
  offsets : ℕ → ℕ
  thunks : List Thunk := []
  marks : List SymbolId := []

variable (members : List ℕ)

/-- The offset of a member by its place. -/
def offsetAt (offsets : ℕ → ℕ) (i : ℕ) : ℕ := (members[i]?.map offsets).getD 0

/-- Places members as far as a thunk after them stays within reach of `b`. -/
def moveD : List ℕ → State → State
  | [], s => s
  | m::rest, s =>
    let start := (ctx.isecs m).alignOffset s.offset
    let stop := start + (ctx.isecs m).size
    if s.b ≠ s.d ∧
        alignTo stop thunkAlign + maxThunkSize > offsetAt members s.offsets s.b + target.distance then s
    else
      moveD rest { s with
        offsets := Function.update s.offsets m (start % 2^32), offset := stop, d := s.d+1 }

/-- The end of the batch from `b`: the members that end within its size, one at
least and none from `d` on. -/
def batchEnd (offsets : ℕ → ℕ) (b d : ℕ) : ℕ :=
  let limit := offsetAt members offsets b + batchSize
  b + 1 + (((members.take d).drop (b+1)).takeWhile fun m =>
    offsets m + (ctx.isecs m).size < limit).length

def batchesLeft (offsets : ℕ → ℕ) : ℕ → ℕ → ℕ
  | 0, _ => 0
  | fuel+1, i =>
    if i < members.length then
      batchesLeft offsets fuel (batchEnd ctx members offsets i members.length) + 1
    else 0

/-- Lets the symbols of the thunks out of reach of the batch take new
entries. -/
def unmark (s : State) : State :=
  let gone := (s.thunks.drop s.t).takeWhile fun thunk => thunk.offset < offsetAt members s.offsets s.a
  { s with
    t := s.t + gone.length
    marks := s.marks.filter fun sym => !gone.any fun thunk => thunk.syms.contains sym }

/-- Places the thunk of a batch, if it needs one. -/
def placeThunk (s : State) (syms : List SymbolId) : State :=
  if syms.isEmpty then s
  else
    let offset := alignTo s.offset thunkAlign
    { s with
      thunks := s.thunks ++ [⟨offset,syms⟩]
      offset := offset + syms.length * target.thunkSize
      marks := s.marks ++ syms }

/-- Lays out the next batch. -/
def layBatch (reach : Reach) (s : State) : State :=
  let s := moveD target ctx members (members.drop s.d) s
  let c := batchEnd ctx members s.offsets s.b s.d
  let cOffset := if c = s.d then s.offset else offsetAt members s.offsets c
  let passed := ((members.take s.b).drop s.a).takeWhile fun m =>
    s.offsets m < cOffset - target.distance
  let s := unmark members { s with a := s.a + passed.length }
  let backward := reach.before.any fun before => before + cOffset ≤ target.distance
  let forward := s.d == members.length && reach.after.any fun after =>
    s.offset + batchesLeft ctx members s.offsets members.length s.b * (maxThunkSize + thunkAlign) +
      after - offsetAt members s.offsets s.b ≤ target.distance
  let syms := scanBatch target ctx s.offsets { reach with backward, forward } s.marks
    ((members.take c).drop s.b)
  { placeThunk target s syms with b := c }

def layBatches (reach : Reach) : ℕ → State → State
  | 0, s => s
  | fuel+1, s =>
    if s.b < members.length then layBatches reach fuel (layBatch target ctx members reach s) else s

/-- Lays out the section: each batch takes a member at least. -/
def createThunks (reach : Reach) (offsets : ℕ → ℕ) : State :=
  layBatches target ctx members reach members.length
    { offsets := fun m => if m ∈ members then unplaced else offsets m }

end Layout

end MoldMacho.Thunks
