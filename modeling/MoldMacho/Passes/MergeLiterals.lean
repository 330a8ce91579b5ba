import MoldMacho.Passes.OutputSectionNames
import MoldMacho.Passes.Replacements

/-!
# Merging literals

Live literals of the same bytes in sections of the same name and type merge: the
most aligned copy stands for the others, the first of equals. The literals are
binned by a hash of their bytes, and each bin is gone through on its own.
-/

set_option autoImplicit false

namespace MoldMacho.MergeLiterals
open MoldMacho.Chunks (bytes)
open MoldMacho.InputSections (InputSection)
open MoldMacho.OutputSectionNames MoldMacho.Replacements MoldMacho.Symbols

structure Context where
  /-- The headers of each object's sections. -/
  sectHdrs : ℕ → ℕ → MachSection
  isecs : List InputSection
  symbols : SymbolTable
  syms : SymbolId → Symbol

def Context.hdr (ctx : Context) (isec : InputSection) : MachSection :=
  ctx.sectHdrs isec.file isec.shndx

/-! ## The literals that merge -/

def isClassOrProtocolRef (hdr : MachSection) : Bool :=
  named "__DATA" ["__objc_superrefs","__objc_protorefs"] (hdr.segname,hdr.sectname)

/-- Whether a symbol of this name keeps a literal of such a section apart. -/
def labels (hdr : MachSection) (name : Name) : Bool :=
  !name.isEmpty &&
    if hdr.sectionType ∈ [sCstringLiterals,s4byteLiterals,s8byteLiterals,s16byteLiterals] then
      !(bytes "l").isPrefixOf name && !(bytes "L").isPrefixOf name
    else if hdr.sectionType = sLiteralPointers then false
    else isClassOrProtocolRef hdr

def isMergeableLiteral (hdr : MachSection) (isec : InputSection) : Bool :=
  let name := (hdr.segname,hdr.sectname)
  isec.nrels == 0 &&
    if hdr.sectionType = sCstringLiterals then true
    else if hdr.sectionType = s4byteLiterals then named "__TEXT" ["__literal4"] name
    else if hdr.sectionType = s8byteLiterals then named "__TEXT" ["__literal8"] name
    else if hdr.sectionType = s16byteLiterals then named "__TEXT" ["__literal16"] name
    else if hdr.sectionType = sRegular then named "__TEXT" ["__ustring"] name
    else false

/-- A literal to merge: the hash of its bytes, its section's header and its
subsection. -/
structure Literal where
  hash : ℕ
  hdr : MachSection
  i : ℕ

section Pass
variable (ctx : Context) (hash : List UInt8 → ℕ)

/-- Marks the literals that symbols keep apart. -/
def markLabeledLiterals : List InputSection :=
  ctx.isecs.mapIdx fun i isec =>
    let labeled := (List.range ctx.symbols.names.length).any fun id =>
      (ctx.syms id).inputSection == some i && labels (ctx.hdr isec) (ctx.symbols.name id)
    { isec with isLabeled := isec.isLabeled || labeled }

def literals (isecs : List InputSection) : List Literal :=
  isecs.zipIdx.filterMap fun (isec,i) =>
    let hdr := ctx.hdr isec
    if isec.isEmitted && !isec.isLabeled && isMergeableLiteral hdr isec then
      some { hash := hash isec.contents, hdr, i }
    else none

end Pass

/-! ## Merging a bin -/

section Merge
variable (isecs : List InputSection)

def contents (i : ℕ) : List UInt8 := (isecs[i]?.map InputSection.contents).getD []

def p2align (i : ℕ) : ℕ := (isecs[i]?.map fun isec => isec.p2alignAt isec.inputAddr).getD 0

def same (lit other : Literal) : Bool :=
  other.hash == lit.hash && other.hdr.rawSegname == lit.hdr.rawSegname &&
    other.hdr.rawSectname == lit.hdr.rawSectname && other.hdr.sectionType == lit.hdr.sectionType &&
    contents isecs other.i == contents isecs lit.i

/-- The first copy of each group with the group's index, the groups' winners so
far, and the copies that lost, each with its group. -/
structure Shard where
  table : List (Literal × ℕ) := []
  best : List ℕ := []
  losers : List (ℕ × ℕ) := []

def mergeLiteral (shard : Shard) (lit : Literal) : Shard :=
  match shard.table.find? fun e => same isecs lit e.1 with
  | some (_,group) =>
    let winner := shard.best.getD group 0
    if p2align isecs winner < p2align isecs lit.i then
      { shard with
        best := shard.best.set group lit.i
        losers := shard.losers ++ [(winner,group)] }
    else { shard with losers := shard.losers ++ [(lit.i,group)] }
  | none =>
    { shard with
      table := shard.table ++ [(lit,shard.best.length)]
      best := shard.best ++ [lit.i] }

/-- The copies of a bin that lost, each with the winner. -/
def mergeShard (lits : List Literal) : List (ℕ × ℕ) :=
  let shard := lits.foldl (mergeLiteral isecs) {}
  shard.losers.map fun loser => (loser.1,shard.best.getD loser.2 0)

end Merge

/-! ## The pass -/

section Pass
variable (ctx : Context) (hash : List UInt8 → ℕ)

def numShards : ℕ := 64

def folds (isecs : List InputSection) : List (ℕ × ℕ) :=
  (List.range numShards).flatMap fun shard =>
    mergeShard isecs ((literals ctx hash isecs).filter fun lit => lit.hash % numShards == shard)

def mergedSections : List InputSection :=
  let isecs := markLabeledLiterals ctx
  (folds ctx hash isecs).foldl (fun isecs fold => replace isecs fold.1 fold.2) isecs

/-- Merges the literals and points the symbols at the copies that are left. -/
def mergeLiterals (fuel : ℕ) : Option Context :=
  let isecs := mergedSections ctx hash
  (redirectSymbolsToReplacements isecs fuel ctx.symbols.names.length ctx.syms).map fun syms =>
    { ctx with isecs, syms }

end Pass

end MoldMacho.MergeLiterals
