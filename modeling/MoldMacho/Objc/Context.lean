import MoldMacho.Arch.Relocs
import MoldMacho.Passes.OutputSectionNames
import MoldMacho.Passes.Replacements

/-!
# The link, to the Objective-C passes

The objects with their sections, symbols, relocations and subsections, whatever the
target's relocation types are.
-/

set_option autoImplicit false

namespace MoldMacho.Objc
open MoldMacho.InputSections (InputSection)
open MoldMacho.OutputSectionNames (Args version2024Fall)
open MoldMacho.Arch (Reloc)
open MoldMacho.Symbols

structure MachSection extends OutputSectionNames.MachSection where
  addr : ℕ := 0
  size : ℕ := 0

structure ObjectFile (T : Type) where
  sectHdrs : List MachSection := []
  symbols : List SymbolId := []
  relocs : List (Reloc T) := []
  subsecs : List ℕ := []
  isReachable : Bool := true

structure Context (T : Type) where
  /-- The target's type of a relocation that fills in an address. -/
  relocUnsigned : T
  args : Args := {}
  isecs : List InputSection := []
  objs : List (ObjectFile T) := []
  internalObj : Option ℕ := none
  /-- How many symbols there are, and each. -/
  count : ℕ := 0
  syms : SymbolId → Symbol := fun _ => {}

variable {T : Type}

def withoutDyld (args : Args) : Bool := args.staticLink || args.isKext

/-- Whether class references are folded into the GOT. -/
def foldsObjcClassrefs (args : Args) : Bool := !withoutDyld args && args.targets version2024Fall

namespace Context

def isInternal (ctx : Context T) (i : ℕ) : Bool := ctx.internalObj == some i

/-- A subsection, with its object and its section's header. -/
def record (ctx : Context T) (i : ℕ) : Option (InputSection × ObjectFile T × MachSection) := do
  let isec ← ctx.isecs[i]?
  let obj ← ctx.objs[isec.file]?
  let hdr ← obj.sectHdrs[isec.shndx]?
  some (isec,obj,hdr)

end Context

/-- A subsection's relocations: a range in its object's. -/
def rels (isec : InputSection) (obj : ObjectFile T) : List (Reloc T) :=
  (obj.relocs.drop isec.relOffset).take isec.nrels

/-- The owning object's symbol a relocation names. -/
def symbolOf (obj : ObjectFile T) (idx : ℕ) : SymbolId := obj.symbols.getD idx 0

/-- The relocation puts bytes at an offset of its subsection. -/
def Fills (rel : Reloc T) (o : ℕ) : Prop := rel.offset ≤ o ∧ o < rel.offset+rel.size

theorem record_some {ctx : Context T} {i : ℕ} {isec : InputSection} {obj : ObjectFile T}
    {hdr : MachSection} (h : ctx.record i = some (isec,obj,hdr)) :
    ctx.isecs[i]? = some isec ∧ ctx.objs[isec.file]? = some obj ∧
      obj.sectHdrs[isec.shndx]? = some hdr := by
  obtain ⟨isec',hisec,h⟩ := Option.bind_eq_some_iff.1 h
  obtain ⟨obj',hobj,h⟩ := Option.bind_eq_some_iff.1 h
  obtain ⟨hdr',hhdr,h⟩ := Option.bind_eq_some_iff.1 h
  simp only [Option.some.injEq, Prod.mk.injEq] at h
  obtain ⟨rfl,rfl,rfl⟩ := h
  exact ⟨hisec,hobj,hhdr⟩

end MoldMacho.Objc
