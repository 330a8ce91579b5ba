import Mathlib.Data.Prod.Lex
import Mathlib.Data.List.Lex
import Mathlib.Logic.Function.Basic
import MoldMacho.InputFiles.Definitions
import MoldMacho.InputFiles.Dylibs
import MoldMacho.Lib.StableSort

/-!
# The ranks of the dylibs

The rank each dylib of the link claims symbols with: the ones the command line
names, then the public libraries they re-export, nearest first, then the ones
auto-link options name and theirs. And the dylib an export binds to.
-/

set_option autoImplicit false

namespace MoldMacho.DylibRanks
open MoldMacho.Dylibs MoldMacho.Definitions MoldMacho.StableSort

def phaseBits (phase : ℕ) : ℕ := 2 <<< 40 ||| phase <<< 32

/-- How near a re-exported library is, and the library that re-exports it. -/
abbrev Key := ℕ × Name

def keyLt (k old : Key) : Bool := decide (k.1 < old.1) || (k.1 == old.1 && decide (k.2 < old.2))

section Ranks
variable (dylibs : List DylibFile)

def namedRank (i : ℕ) : ℕ :=
  match dylibs[i]? with
  | some d =>
    if d.isImplicit then rankMax
    else phaseBits (if d.isAutolinked then 2 else 0) ||| d.namedAt.getD d.priority
  | none => rankMax

structure Near where
  key : ℕ → Option Key
  queue : List (ℕ × ℕ)

/-- Takes a nearer way to the library an edge leads to, if it is one. -/
def relax (ranks : ℕ → ℕ) (depth : ℕ) (near : Near) (edge : ReexportEdge) : Near :=
  let k := (depth + edge.hops,edge.via)
  match dylibs[edge.dylib]? with
  | some d =>
    if d.isImplicit && ranks edge.dylib == rankMax && (near.key edge.dylib).all (keyLt k) then
      { key := Function.update near.key edge.dylib (some k)
        queue := near.queue ++ [(edge.dylib,k.1)] }
    else near
  | none => near

def nearest (ranks : ℕ → ℕ) : ℕ → Near → Option (ℕ → Option Key)
  | 0, _ => none
  | fuel+1, near =>
    match near.queue.getLast? with
    | none => some near.key
    | some (i,depth) =>
      let edges := (dylibs[i]?.map DylibFile.reexported).getD []
      nearest ranks fuel
        (edges.foldl (relax dylibs ranks depth) { near with queue := near.queue.dropLast })

def namedQueue (autolinked : Bool) : List (ℕ × ℕ) :=
  ((List.range dylibs.length).filter fun i =>
    dylibs[i]?.any fun d => !d.isImplicit && d.isAutolinked == autolinked).map fun i => (i,0)

def installName (i : ℕ) : Name := (dylibs[i]?.map DylibFile.installName).getD []

/-- What the libraries reached are sorted by: how near, the library that
re-exports them, and their own name. -/
def reachedKey (key : ℕ → Option Key) (i : ℕ) : ℕ ×ₗ List ℕ ×ₗ List ℕ :=
  let k := (key i).getD (0,[])
  toLex (k.1,toLex (k.2.map UInt8.toNat,(installName dylibs i).map UInt8.toNat))

/-- The libraries reached, nearest first. -/
def reached (key : ℕ → Option Key) : List ℕ :=
  sortBy (reachedKey dylibs key) ((List.range dylibs.length).filter fun i => (key i).isSome)

/-- Ranks the public libraries that the named ones re-export. -/
def rankReexported (fuel : ℕ) (autolinked : Bool) (ranks : ℕ → ℕ) : Option (ℕ → ℕ) :=
  (nearest dylibs ranks fuel { key := fun _ => none, queue := namedQueue dylibs autolinked }).map
    fun key =>
      let order := reached dylibs key
      fun i =>
        if i ∈ order then phaseBits (if autolinked then 3 else 1) ||| order.idxOf i else ranks i

def rankRest (ranks : ℕ → ℕ) (i : ℕ) : ℕ :=
  match dylibs[i]? with
  | some d =>
    if ranks i = rankMax ∧ d.nameSource ≠ .moved then phaseBits 4 ||| d.priority else ranks i
  | none => ranks i

def dylibRanks (fuel : ℕ) : Option (ℕ → ℕ) := do
  let ranks ← rankReexported dylibs fuel false (namedRank dylibs)
  let ranks ← rankReexported dylibs fuel true ranks
  some (rankRest dylibs ranks)


/-! ## Providers -/

/-- The dylib of an install name, the last one of the link. -/
def byName (name : Name) : Option ℕ :=
  (dylibs.zipIdx.reverse.find? fun d =>
    !(d.1.isAutolinked && (Chunks.bytes "@rpath/").isPrefixOf d.1.installName) &&
      d.1.installName == name).map Prod.snd

def mergedProviders (i : ℕ) : List ℕ :=
  ((dylibs[i]?.map DylibFile.mergedReexports).getD []).filterMap (byName dylibs)

def exportsName (i : ℕ) (name : Name) : Bool := dylibs[i]?.any fun d => decide (name ∈ d.exports)

/-- The last of the libraries that hand a symbol on, at most as many steps away
as there are dylibs. -/
def provider (providers : ℕ → List ℕ) (name : Name) : ℕ → ℕ → ℕ
  | 0, idx => idx
  | steps+1, idx =>
    match (providers idx).find? fun p => exportsName dylibs p name with
    | some p => provider providers name steps p
    | none => idx

/-- The dylib a symbol found in the exports of dylib `idx` binds to. -/
def providingDylib (providers : ℕ → List ℕ) (idx : ℕ) (name : Name) : ℕ :=
  let idx := provider dylibs providers name dylibs.length idx
  let moved := (dylibs[idx]?.map DylibFile.movedExports).getD []
  ((moved.reverse.find? fun e => e.1 == name).map Prod.snd).getD idx

end Ranks

/-- The dylibs from `first` on that have a rank, in rank order. -/
def dylibSearchOrder (count : ℕ) (ranks : ℕ → ℕ) (first : ℕ) : List ℕ :=
  sortBy ranks ((List.range' first (count - first)).filter fun i => ranks i != rankMax)

/-- How resolution ranks the first dylibs of the link. -/
structure DylibRanking where
  count : ℕ
  ranks : ℕ → ℕ
  providers : ℕ → List ℕ

def DylibRanking.new (dylibs : List DylibFile) (fuel : ℕ) : Option DylibRanking :=
  (dylibRanks dylibs fuel).map fun ranks =>
    { count := dylibs.length, ranks, providers := mergedProviders dylibs }

/-! ## No dylib ranks with a live file's definition -/

theorem phase_bits_ge (phase a : ℕ) : 2 <<< 40 ≤ phaseBits phase ||| a :=
  Nat.left_le_or.trans Nat.left_le_or

section Bound
variable {dylibs : List DylibFile} {ranks : ℕ → ℕ} {fuel : ℕ}

theorem named_rank_ge (i : ℕ) : 2 <<< 40 ≤ namedRank dylibs i := by
  unfold namedRank
  split
  · split
    · decide
    · exact phase_bits_ge _ _
  · decide

theorem rank_reexported_ge {autolinked : Bool} {next : ℕ → ℕ}
    (h : rankReexported dylibs fuel autolinked ranks = some next) (hge : ∀ i, 2 <<< 40 ≤ ranks i)
    (i : ℕ) : 2 <<< 40 ≤ next i := by
  obtain ⟨key,-,rfl⟩ := Option.map_eq_some_iff.1 h
  dsimp only
  split
  · exact phase_bits_ge _ _
  · exact hge i

theorem rank_rest_ge (hge : ∀ i, 2 <<< 40 ≤ ranks i) (i : ℕ) : 2 <<< 40 ≤ rankRest dylibs ranks i := by
  unfold rankRest
  split
  · split
    · exact phase_bits_ge _ _
    · exact hge i
  · exact hge i

theorem dylib_ranks_ge (h : dylibRanks dylibs fuel = some ranks) (i : ℕ) : 2 <<< 40 ≤ ranks i := by
  simp only [dylibRanks, Option.bind_eq_bind, Option.bind_eq_some_iff] at h
  obtain ⟨first,hfirst,second,hsecond,hranks⟩ := h
  cases hranks
  exact rank_rest_ge (rank_reexported_ge hsecond (rank_reexported_ge hfirst named_rank_ge)) i

end Bound

end MoldMacho.DylibRanks
