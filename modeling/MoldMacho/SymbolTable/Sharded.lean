import Mathlib.Algebra.GroupWithZero.Nat
import Mathlib.Data.Fintype.Basic
import Mathlib.Logic.Function.Basic
import MoldMacho.Lib.Lists
import MoldMacho.Symbol

/-!
# The sharded symbol table

The names of the symbols and the maps from a global name to its symbol, one
a shard of the names' hashes; names interned one by one, and a batch of them
at once. What a symbol holds besides its name does not matter here.
-/

set_option autoImplicit false

namespace MoldMacho.ShardedTable
open Symbols

/-- A key hashes by its precomputed hash and compares by the name. -/
structure Key where
  hash : ℕ
  key : Name
  deriving DecidableEq

abbrev ShardMap := Key → Option ℕ

def numShards : ℕ := 64

def shardOf (hash : ℕ) : Fin numShards := ⟨hash % numShards,Nat.mod_lt _ (by decide)⟩

structure SymbolTable where
  shards : Fin numShards → ShardMap
  syms : List Name

namespace SymbolTable

def empty : SymbolTable := { shards := fun _ _ => none, syms := [] }

section Interning
variable (hashKey : Name → ℕ)

def lookup (t : SymbolTable) (name : Name) : Option SymbolId :=
  t.shards (shardOf (hashKey name)) ⟨hashKey name,name⟩

/-- The symbol for a global name, created if needed. -/
def intern (t : SymbolTable) (name : Name) : SymbolTable × SymbolId :=
  let hash := hashKey name
  let shard := t.shards (shardOf hash)
  match shard ⟨hash,name⟩ with
  | some id => (t,id)
  | none =>
    ({ shards := Function.update t.shards (shardOf hash)
        (Function.update shard ⟨hash,name⟩ (some t.syms.length))
       syms := t.syms ++ [name] },t.syms.length)

/-- An anonymous slot for a file-local symbol. -/
def addLocal (t : SymbolTable) (name : Name) : SymbolTable × SymbolId :=
  ({ t with syms := t.syms ++ [name] },t.syms.length)

end Interning

section Gather

inductive Resolved where
  | old (id : SymbolId)
  | new (k : ℕ)

/-- A shard's resolutions, and the names it saw for the first time with their
hashes. -/
structure ShardResult where
  news : List (Name × ℕ) := []
  newmap : ShardMap := fun _ => none
  out : List (ℕ × Resolved) := []

/-- A shard resolves a name of the batch. -/
def resolve (shard : ShardMap) (result : ShardResult) (entry : (Name × ℕ) × ℕ) : ShardResult :=
  let (name,hash) := entry.1
  match shard ⟨hash,name⟩ with
  | some id => { result with out := result.out ++ [(entry.2,.old id)] }
  | none =>
    match result.newmap ⟨hash,name⟩ with
    | some k => { result with out := result.out ++ [(entry.2,.new k)] }
    | none =>
      { news := result.news ++ [(name,hash)]
        newmap := Function.update result.newmap ⟨hash,name⟩ (some result.news.length)
        out := result.out ++ [(entry.2,.new result.news.length)] }

/-- The entries of the batch whose names are a shard's, with their places. -/
def bin (batch : List (Name × ℕ)) (s : Fin numShards) : List ((Name × ℕ) × ℕ) :=
  batch.zipIdx.filter fun entry => shardOf entry.1.2 = s

def results (t : SymbolTable) (batch : List (Name × ℕ)) (s : Fin numShards) : ShardResult :=
  (bin batch s).foldl (resolve (t.shards s)) {}

/-- Where a shard's new symbols start: after the old ones and those of the
shards before it. -/
def base (t : SymbolTable) (results : Fin numShards → ShardResult) (s : Fin numShards) : ℕ :=
  t.syms.length + (((List.finRange numShards).take s).map fun j => (results j).news.length).sum

def insertNews (base : ℕ) (shard : ShardMap) (news : List (Name × ℕ)) : ShardMap :=
  news.zipIdx.foldl
    (fun shard entry => Function.update shard ⟨entry.1.2,entry.1.1⟩ (some (base+entry.2))) shard

def Resolved.id (base : ℕ) : Resolved → SymbolId
  | .old id => id
  | .new k => base+k

/-- Interns every name of the batch at once. The ids are aligned with it. -/
def gather (t : SymbolTable) (batch : List (Name × ℕ)) : SymbolTable × List SymbolId :=
  let results := t.results batch
  let shards := List.finRange numShards
  let writes := shards.flatMap fun s => (results s).out.map fun w => (w.1,w.2.id (t.base results s))
  ({ shards := fun s => insertNews (t.base results s) (t.shards s) (results s).news
     syms := t.syms ++ shards.flatMap fun s => (results s).news.map Prod.fst },
    writes.foldl (fun ids w => ids.set w.1 w.2) (List.replicate batch.length 0))

end Gather

/-- What the linker does to the table. -/
inductive Op where
  | intern (name : Name)
  | addLocal (name : Name)
  | gather (names : List Name)

section Runs
variable (hashKey : Name → ℕ)

/-- Names with their hashes. -/
def keyed (names : List Name) : List (Name × ℕ) := names.map fun name => (name,hashKey name)

def step (t : SymbolTable) : Op → SymbolTable
  | .intern name => (t.intern hashKey name).1
  | .addLocal name => (t.addLocal name).1
  | .gather names => (t.gather (keyed hashKey names)).1

def run (t : SymbolTable) (ops : List Op) : SymbolTable := ops.foldl (step hashKey) t

end Runs

end SymbolTable

end MoldMacho.ShardedTable
