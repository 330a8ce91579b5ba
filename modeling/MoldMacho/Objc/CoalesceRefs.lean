import Mathlib.Data.Prod.Lex
import MoldMacho.Lib.FirstOfKey
import MoldMacho.Lib.StableSort
import MoldMacho.Objc.Context

/-!
# Coalescing Objective-C references

The reference records that objects have a copy each of - selector, class, superclass
and protocol references and CFString constants - are reduced to the first of each: a
record's key is what it refers to, its bytes standing for the rest.
-/

set_option autoImplicit false

namespace MoldMacho.Objc
open MoldMacho.Arch (Reloc)
open MoldMacho.Chunks (bytes)
open MoldMacho.InputSections (InputSection)
open MoldMacho.FirstOfKey MoldMacho.Links MoldMacho.OutputSectionNames MoldMacho.Replacements
open MoldMacho.StableSort MoldMacho.Symbols

variable {T : Type}

section Subsecs
variable (ctx : Context T)

def inputAddr (id : ℕ) : ℕ := (ctx.isecs[id]?.map InputSection.inputAddr).getD 0

/-- An object's live subsections of a section, which start in its addresses. -/
def subsecsOfSection (obj : ObjectFile T) (shndx : ℕ) (hdr : MachSection) : List ℕ :=
  let start := obj.subsecs.dropWhile fun id => inputAddr ctx id < hdr.addr
  (start.takeWhile fun id => inputAddr ctx id ≤ hdr.addr+hdr.size).filter fun id =>
    ctx.isecs[id]?.any fun isec => isec.shndx == shndx && isec.isAlive

def subsecsOfObject (names : List (List UInt8)) (obj : ObjectFile T) : List (ℕ × ℕ) :=
  obj.sectHdrs.zipIdx.flatMap fun (hdr,shndx) =>
    match names.findIdx? fun name => hdr.sectname == name with
    | some kind => (subsecsOfSection ctx obj shndx hdr).map fun id => (id,kind)
    | none => []

/-- The live subsections of the sections named one of `names`, each with the index
of its name. -/
def subsecsOfSections (names : List (List UInt8)) : List (ℕ × ℕ) :=
  sortBy toLex (ctx.objs.zipIdx.flatMap fun (obj,i) =>
    if ctx.isInternal i then [] else subsecsOfObject ctx names obj)

theorem mem_subsecs_of_section {ctx : Context T} {obj : ObjectFile T} {shndx id : ℕ}
    {hdr : MachSection}
    (h : id ∈ subsecsOfSection ctx obj shndx hdr) :
    id ∈ obj.subsecs ∧ ∃ isec, ctx.isecs[id]? = some isec ∧ isec.shndx = shndx := by
  obtain ⟨hmem,hif⟩ := List.mem_filter.1 h
  have hin := (List.dropWhile_sublist _).subset ((List.takeWhile_sublist _).subset hmem)
  obtain ⟨isec,hisec,hif⟩ := (Option.any_eq_true _ _).1 hif
  rw [Bool.and_eq_true, beq_iff_eq] at hif
  exact ⟨hin,isec,hisec,hif.1⟩

theorem section_of_subsec {ctx : Context T} {names : List (List UInt8)} {obj : ObjectFile T}
    {hdr : MachSection} {shndx : ℕ} {z : ℕ × ℕ}
    (h : z ∈ match names.findIdx? fun name => hdr.sectname == name with
      | some kind => (subsecsOfSection ctx obj shndx hdr).map fun id => (id,kind)
      | none => []) : ∃ isec, ctx.isecs[z.1]? = some isec ∧ isec.shndx = shndx := by
  split at h
  · obtain ⟨id,hid,rfl⟩ := List.mem_map.1 h
    exact (mem_subsecs_of_section hid).2
  · cases h

end Subsecs

/-! ## What a record refers to -/

/-- A place in a subsection that none replaces, or a symbol defined elsewhere. -/
inductive RefTarget where
  | place (isec : ℕ) (off : BitVec 64)
  | sym (id : SymbolId) (addend : BitVec 64)
  deriving DecidableEq

/-- What makes two records the same. -/
inductive RefKey where
  | sel (target : RefTarget)
  | cls (id : SymbolId)
  | super (target : RefTarget)
  | proto (target : RefTarget)
  | cfString (bytes : List UInt8) (targets : List (ℕ × RefTarget))
  deriving DecidableEq

section Keys
variable [DecidableEq T] (ctx : Context T)

def symTarget (id : SymbolId) (addend : BitVec 64) : RefTarget :=
  match (ctx.syms id).inputSection with
  | some isec => .place (resolveTo ctx.isecs isec) (BitVec.ofNat 64 (ctx.syms id).value + addend)
  | none => .sym id addend

def refTarget (obj : ObjectFile T) (rel : Reloc T) : RefTarget :=
  match rel.target with
  | .section t => .place (resolveTo ctx.isecs t) rel.addend
  | .sym idx => symTarget ctx (symbolOf obj idx) rel.addend

/-- The relocation fills in a whole address. -/
def plainPtr (rel : Reloc T) : Bool :=
  rel.ty == ctx.relocUnsigned && rel.size == 8 && !rel.isPcrel && !rel.isSubtracted

/-- The relocation of a subsection that is one pointer. -/
def pointer (isec : InputSection) (rels : List (Reloc T)) : Option (Reloc T) :=
  match rels with
  | [rel] => if isec.size = 8 ∧ plainPtr ctx rel then some rel else none
  | _ => none

/-- The symbol, by its index in the object, that a subsection is a pointer to. -/
def pointerTarget (isec : InputSection) (rels : List (Reloc T)) : Option ℕ :=
  match rels with
  | [rel] =>
    match rel.target with
    | .sym idx => if isec.size = 8 ∧ plainPtr ctx rel ∧ rel.addend = 0 then some idx else none
    | .section _ => none
  | _ => none

/-- Zeroes the bytes a relocation fills. -/
def blank (bytes : List UInt8) (rel : Reloc T) : List UInt8 :=
  bytes.mapIdx fun o b => if rel.offset ≤ o ∧ o < rel.offset+rel.size then 0 else b

def refTargets (obj : ObjectFile T) (rels : List (Reloc T)) : List (ℕ × RefTarget) :=
  sortBy Prod.fst (rels.map fun rel => (rel.offset,refTarget ctx obj rel))

/-- The key of a record by its section's name. -/
def sectionKey (isec : InputSection) (obj : ObjectFile T) (hdr : MachSection) : Option RefKey :=
  let rels := rels isec obj
  if hdr.sectname = bytes "__objc_selrefs" then
    if hdr.sectionType ≠ sLiteralPointers then none
    else (pointer ctx isec rels).map fun rel => .sel (refTarget ctx obj rel)
  else if hdr.sectname = bytes "__objc_classrefs" then
    if foldsObjcClassrefs ctx.args then none
    else (pointerTarget ctx isec rels).map fun idx => .cls (symbolOf obj idx)
  else if hdr.sectname = bytes "__objc_superrefs" then
    if isec.isLabeled then none
    else (pointer ctx isec rels).map fun rel => .super (refTarget ctx obj rel)
  else if hdr.sectname = bytes "__objc_protorefs" then
    if isec.isLabeled then none
    else (pointer ctx isec rels).map fun rel => .proto (refTarget ctx obj rel)
  else if hdr.sectname = bytes "__cfstring" then
    if isec.size ≠ 32 ∨ !rels.all (plainPtr ctx) then none
    else some (.cfString (rels.foldl blank isec.contents) (refTargets ctx obj rels))
  else none

/-- The key subsection `i` coalesces by, if it is a record that coalesces. -/
def refKey (i : ℕ) : Option RefKey :=
  (ctx.record i).bind fun (isec,obj,hdr) =>
    if !isec.isEmitted || ctx.isInternal isec.file || hdr.segname != bytes "__DATA" then none
    else sectionKey ctx isec obj hdr

end Keys

/-! ## The pass -/

def refSections : List (List UInt8) :=
  [bytes "__objc_selrefs",bytes "__objc_classrefs",bytes "__objc_superrefs",
    bytes "__objc_protorefs",bytes "__cfstring"]

def p2alignOf (isecs : List InputSection) (i : ℕ) : ℕ :=
  (isecs[i]?.map InputSection.p2align).getD 0

/-- Replaces a record, aligning the one that stands for it as much. -/
def coalesce (isecs : List InputSection) (fold : ℕ × ℕ) : List InputSection :=
  (replace isecs fold.1 fold.2).modify fold.2 fun w =>
    { w with p2align := max w.p2align (p2alignOf isecs fold.1) }

section Pass
variable [DecidableEq T] (ctx : Context T)

def refKeys : List (ℕ × RefKey) :=
  (subsecsOfSections ctx refSections).filterMap fun found =>
    (refKey ctx found.1).map fun key => (found.1,key)

def refFolds : List (ℕ × ℕ) := foldOnto [] (refKeys ctx)

def coalesceObjcRefs (fuel : ℕ) : Option (Context T) :=
  if (refFolds ctx).isEmpty then some ctx
  else
    let isecs := (refFolds ctx).foldl coalesce ctx.isecs
    (redirectSymbolsToReplacements isecs fuel ctx.count ctx.syms).map fun syms =>
      { ctx with isecs, syms }

end Pass

end MoldMacho.Objc
