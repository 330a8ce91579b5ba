import Mathlib.Tactic.FinCases
import MoldMacho.LazyLoads.Helpers
import MoldMacho.LazyLoads.Records

/-!
# Lazy loads

The slots, records and helpers made from the uses of lazy dylibs' symbols, and where
each use goes.
-/

set_option autoImplicit false

namespace MoldMacho.LazyLoads

open Symbols Chunks Align Bytes KeyIndex Rows Pieces Decimal

def read32 (data : List UInt8) (off : ℕ) : ℕ := ofLe ((data.drop off).take 4)

/-- Whether a frame record is stored in code. -/
def framed (code : List UInt8) : Bool :=
  (List.range (code.length/4)).any fun i => read32 code (i*4) &&& 0x3c407fff == 0x28007bfd

def arm64 : Target where
  lazyCallOwnSlot := false
  lazyHelperSize := fun _ => 64
  lazyLoadSite := fun data offset =>
    if offset+4 ≤ data.length then
      some (read32 data offset &&& 0x1f,!framed (data.take offset))
    else none
  lazyRegisterName := fun reg => bytes "x" ++ decimal reg

def x86Registers : List Name :=
  (["rax","rcx","rdx","rbx","rsp","rbp","rsi","rdi","r8","r9","r10","r11","r12","r13","r14",
    "r15"]).map bytes

def x86 : Target where
  lazyCallOwnSlot := true
  lazyHelperSize := fun kind => if kind = .cmp then 46 else 45
  lazyLoadSite := fun data offset =>
    if 3 ≤ offset then do
      let rex ← data[offset-3]?
      let modrm ← data[offset-1]?
      return ((rex.toNat >>> 2 &&& 1) <<< 3 ||| modrm.toNat >>> 3 &&& 7,false)
    else none
  lazyRegisterName := fun reg => x86Registers.getD (reg &&& 15) []

def Context.isLazyImport (ctx : Context) (id : SymbolId) : Bool :=
  match ctx.files id with
  | some (.dylib d) => (ctx.dylibs[d]?.map Dylib.isLazy).getD false
  | _ => false

inductive Failure where
  /-- A use or a slot that cannot be lazy. -/
  | notLazy (sym : SymbolId)
  | makeMergeable
  | noDyldLazyLoad
  | panicked
  deriving DecidableEq

structure Loads where
  slots : Slots
  helpers : Helpers
  dyldLazyLoad : Option SymbolId

/-- The link's options and symbols that the pass asks about. -/
structure Options where
  makeMergeable : Bool
  /-- The symbols with a stub or a slot that another pass made. -/
  slotted : List SymbolId
  dyldLazyLoad : Option SymbolId

def lazyUses (ctx : Context) (opts : Options) (uses : List LazyUseSite) :
    Except Failure (List LazyUseSite) :=
  match uses.find? fun u => u.how == .unsupported with
  | some u => .error (.notLazy u.sym)
  | none =>
    match opts.slotted.find? ctx.isLazyImport with
    | some id => .error (.notLazy id)
    | none => .ok uses

def createLazyLoads (E : Target) (ctx : Context) (opts : Options) (uses : List LazyUseSite) :
    Except Failure Loads :=
  if ctx.dylibs.any Dylib.isLazy = false then
    .ok { slots := { numIsecs := ctx.numIsecs }, helpers := {}, dyldLazyLoad := none }
  else
    match lazyUses ctx opts uses with
    | .error e => .error e
    | .ok uses =>
      let slots := createLazyLoadSlots E ctx uses
      if opts.makeMergeable = true ∧ uses ≠ [] then .error .makeMergeable
      else
        match createLazyHelpers E ctx slots uses with
        | none => .error .panicked
        | some helpers =>
          if helpers.helpers = [] then
            .ok { slots := slots, helpers := helpers, dyldLazyLoad := none }
          else
            match opts.dyldLazyLoad with
            | none => .error .noDyldLazyLoad
            | some id => .ok { slots := slots, helpers := helpers, dyldLazyLoad := some id }

/-- The helper a use goes to: a call by its symbol, a load or a compare by its place. -/
def Loads.helperOf (loads : Loads) (u : LazyUseSite) : Option ℕ :=
  match u.how with
  | .call => loads.helpers.lazyStubIdx u.sym
  | .load | .cmp => loads.helpers.sites (u.isec,u.offset)
  | .slot | .unsupported => none

def helpersSize (E : Target) (helpers : List LazyHelper) : ℕ :=
  match helpers.getLast? with
  | some last => last.offset+E.lazyHelperSize last.kind
  | none => 0

/-! ## What lines up -/

/-- The records are written apart from each other, each in its size, and read back. -/
structure RecordsLineUp (ctx : Context) (s : Slots) : Prop where
  tiles : Tiles LazyDylib.offset LazyDylib.size 0 s.dylibs s.offset
  reads : ∀ a : Addresses, ∃ out, copyBuf ctx a s.dylibs (zeros s.offset) = some out ∧
    out.length = s.offset ∧ ∀ r ∈ s.dylibs, ∃ record,
      bytesAt out r.offset r.size = some record ∧ RecordReads ctx a r record

/-- A use goes to a helper of its own. -/
structure Goes (E : Target) (ctx : Context) (loads : Loads) (u : LazyUseSite) (h : LazyHelper) :
    Prop where
  sym : h.sym = u.sym
  kind : useKind E ctx u = some h.kind
  record : ∃ r ∈ loads.slots.dylibs, ctx.files u.sym = some (.dylib r.dylib) ∧ h.flag = r.flag ∧
    r.gotStart ≤ h.slot ∧ h.slot < r.gotStart+r.syms.length
  slot : loads.slots.slots[h.slot]? = some (u.sym,ctx.names u.sym ++ bytes "$lazyGOT")

structure HelpersLineUp (E : Target) (ctx : Context) (uses : List LazyUseSite) (loads : Loads) :
    Prop where
  goes : ∀ u ∈ uses, u.how ≠ .slot → ∃ i h, loads.helperOf u = some i ∧
    loads.helpers.helpers[i]? = some h ∧ Goes E ctx loads u h
  tiles : Tiles LazyHelper.offset (fun h => E.lazyHelperSize h.kind) 0 loads.helpers.helpers
    (helpersSize E loads.helpers.helpers)

/-- The sizes of the records are of 32 bits. -/
def SizesFit (ctx : Context) (s : Slots) : Prop :=
  ∀ r ∈ s.dylibs, alignTo (recordLength ctx (ctx.installName r.dylib) r.syms) 8 < 2^32

variable {E : Target} {ctx : Context} {uses : List LazyUseSite}

theorem records_line_up (h : SizesFit ctx (createLazyLoadSlots E ctx uses)) :
    RecordsLineUp ctx (createLazyLoadSlots E ctx uses) := by
  have hs := create_slots_of E ctx uses
  have hfit : ∀ r ∈ (createLazyLoadSlots E ctx uses).dylibs, r.Fits ctx := by
    intro r hr
    rw [LazyDylib.Fits, hs.size_eq r hr, recordSize, Nat.mod_eq_of_lt (h r hr)]
    exact le_align_to _ 8
  refine ⟨hs.record_tiles,fun a => ?_⟩
  have hcopy := copy_records a hs.record_tiles hfit [] rfl
  rw [List.nil_append, List.nil_append, Nat.sub_zero] at hcopy
  refine ⟨_,hcopy,?_,fun r hr => ⟨recordBytes ctx a r,?_,?_⟩⟩
  · have hlen := tiles_length hs.record_tiles fun x hx => record_bytes_length a (hfit x hx)
    rwa [Nat.zero_add] at hlen
  · have hhold := tiles_hold hs.record_tiles (fun x hx => record_bytes_length a (hfit x hx))
      [] rfl hr
    rw [List.nil_append] at hhold
    rw [← record_bytes_length a (hfit r hr)]
    exact hhold.bytes_at
  · refine record_reads a (hfit r hr) ?_
    rw [hs.size_eq r hr]
    exact Nat.mod_lt _ (by decide)

/-- Code with one load, at offset 3, and a lazy dylib with two symbols. -/
def oneLoad : Context where
  names := fun id => if id = 0 then bytes "_a" else bytes "_b"
  files := fun _ => some (.dylib 0)
  dylibs := [{ installName := bytes "/usr/lib/libz.dylib", isWeak := false, isLazy := true }]
  contents := fun _ => [0x48,0x8b,0x05,0,0,0,0]
  isecNames := fun _ => bytes "_main"
  numIsecs := 1

def plain : Options := { makeMergeable := false, slotted := [], dyldLazyLoad := some 2 }

/-- The load, twice, and a call. -/
def threeUses : List LazyUseSite := [⟨0,3,0,.load⟩,⟨0,3,0,.load⟩,⟨0,9,1,.call⟩]

-- before offset 3 there is no byte that says which registers are meant
example : createLazyLoads x86 oneLoad plain [⟨0,2,0,.load⟩] = .error .panicked := rfl

/-- Two loads of one place: both go to the helper of the last. -/
theorem loads_of_one_place :
    ∃ loads, createLazyLoads x86 oneLoad plain [⟨0,3,0,.load⟩,⟨0,3,1,.load⟩] = .ok loads ∧
      (∀ u ∈ [(⟨0,3,0,.load⟩ : LazyUseSite),⟨0,3,1,.load⟩], oneLoad.isLazyImport u.sym = true) ∧
      ¬ HelpersLineUp x86 oneLoad [⟨0,3,0,.load⟩,⟨0,3,1,.load⟩] loads := by
  refine ⟨_,rfl,by decide,fun hline => ?_⟩
  obtain ⟨i,h,hi,hget,hgoes⟩ := hline.goes ⟨0,3,0,.load⟩ (by decide) (by decide)
  obtain rfl : 1 = i := Option.some.inj hi
  have hsym : h.sym = 1 := by
    obtain rfl := Option.some.inj hget
    rfl
  exact absurd (hsym.symm.trans hgoes.sym) (by decide)

end MoldMacho.LazyLoads
