import Mathlib.Tactic.Positivity
import MoldMacho.Chunks.BindInfo
import MoldMacho.Chunks.ChainedFixups
import MoldMacho.Chunks.Header
import MoldMacho.Macho
import MoldMacho.Passes.DylibOrdinals

/-!
# Imports in the image's tables

The library of an import stands in the symbol table's entry, in the entry of
the chained fixups or in the bind opcodes, in fields of different widths whose
special values differ. The chained entry has the import's name, by an
offset into the names, its weak flag and its addend besides.
-/

set_option autoImplicit false

namespace MoldMacho.Imports
open MoldMacho.Symbols MoldMacho.DylibOrdinals MoldMacho.Bytes MoldMacho.Chunks MoldMacho.Macho

def mhDylib : ℕ := 6
def mhDylinker : ℕ := 7
def mhBundle : ℕ := 8
def mhKextBundle : ℕ := 11

structure Args where
  outputType : ℕ := 2
  relocatable : Bool := false
  staticLink : Bool := false
  flatNamespace : Bool := false
  sharedRegion : Bool := false
  /-- The names of `-interposable` and `-interposable_list`. -/
  interposable : Option (Name → Bool) := none

def Args.isKext (args : Args) : Bool := args.outputType == mhKextBundle
def Args.isDylinker (args : Args) : Bool := args.outputType == mhDylinker
def Args.withoutDyld (args : Args) : Bool := args.staticLink || args.isKext

/-- What the tables read of the link. Names are C strings and ordinals
`i32`s. -/
structure Context where
  args : Args
  useChainedFixups : Bool
  dylibs : List Dylib
  sym : SymbolId → Symbol
  name : SymbolId → Name
  name_nul : ∀ id, 0 ∉ name id
  numbered : Numbered dylibs
  dylibs_lt : dylibs.length < 2^31

/-- The file of a symbol left to dynamic lookup. -/
def dynamicLookup : ℕ := 2^32-1

variable (ctx : Context)

namespace Context

def isObj (id : SymbolId) : Bool :=
  match (ctx.sym id).file with
  | some (.obj _) => true
  | _ => false

def isExported (id : SymbolId) : Bool := (ctx.sym id).isExtern && !(ctx.sym id).isPrivateExtern

def isWeakCoalesced (id : SymbolId) : Bool :=
  if ctx.args.relocatable || ctx.args.isDylinker then false
  else ctx.isObj id && (ctx.sym id).isWeakDef && ctx.isExported id

def isInterposableExport (id : SymbolId) : Bool :=
  let flat := ctx.args.flatNamespace &&
    (ctx.args.outputType == mhDylib || ctx.args.outputType == mhBundle)
  let listed := !ctx.args.relocatable && !ctx.args.withoutDyld && !ctx.args.isDylinker &&
    ctx.args.interposable.any fun listed => listed (ctx.name id)
  (flat || listed) && ctx.isObj id && (ctx.sym id).inputSection.isSome && ctx.isExported id

def isDtracePointerTarget (id : SymbolId) : Bool :=
  (ctx.sym id).file.isNone && (bytes "___dtrace_").isPrefixOf (ctx.name id)

def bindsWeakLookup (id : SymbolId) : Bool :=
  if ctx.args.staticLink || ctx.args.isKext && !ctx.args.sharedRegion then false
  else if ctx.isWeakCoalesced id then true
  else match (ctx.sym id).file with
    | some (.dylib d) =>
      d != dynamicLookup && ctx.dylibs[d]?.any fun dylib => dylib.weakExports.contains (ctx.name id)
    | _ => false

def bindsToSelf (id : SymbolId) : Bool :=
  ctx.args.sharedRegion && ctx.args.outputType == mhDylib && ctx.useChainedFixups &&
    ctx.isObj id && ctx.isExported id &&
    ((bytes "_OBJC_CLASS_$_").isPrefixOf (ctx.name id) ||
      (bytes "_OBJC_METACLASS_$_").isPrefixOf (ctx.name id))

def exportBindOrdinal : ℤ := if ctx.args.flatNamespace then -2 else 0

/-- `DylibFile::bind_ordinal`. -/
def dylibBindOrdinal (dylib : Dylib) : ℤ :=
  if ctx.args.flatNamespace then -2 else if dylib.bindsToImage then 0 else dylib.dylibIdx

def bindOrdinal (id : SymbolId) : ℤ :=
  match (ctx.sym id).file with
  | some (.dylib d) => if d = dynamicLookup then -2 else (ctx.dylibs[d]?.map ctx.dylibBindOrdinal).getD 0
  | _ => if ctx.isDtracePointerTarget id then -2 else ctx.exportBindOrdinal

end Context

/-! The symbol table. -/

/-- `msym_library_ordinal`: the ordinal cut to a byte. -/
def msymLibraryOrdinal (id : SymbolId) : UInt8 :=
  if ctx.args.flatNamespace then 0
  else if ctx.bindOrdinal id = -1 then 0xff
  else (ctx.bindOrdinal id % 256).toNat.toUInt8

def importEntry (id : SymbolId) : MachSym where
  type := nUndf ||| nExt
  desc := ((msymLibraryOrdinal ctx id).toUInt16 <<< 8) |||
    (if (ctx.sym id).isWeakRef then nWeakRef else 0)

/-- The library dyld takes an undefined symbol's entry for. An image of a
flat namespace has none. -/
def descLibrary (desc : UInt16) : Option Library :=
  if ctx.args.flatNamespace then some .flatLookup
  else match (desc >>> 8).toNat with
    | 0xff => some .mainExecutable
    | 0xfe => some .flatLookup
    | n => libraryOf ctx.dylibs n

/-! The chained import entries. -/

inductive ImportFormat where
  | plain
  | addend
  | addend64
  deriving DecidableEq

/-- A `u64` addend that is an `i32`. -/
def FitsI32 (addend : ℕ) : Prop := addend < 2^31 ∨ 2^64-2^31 ≤ addend

instance (addend : ℕ) : Decidable (FitsI32 addend) := inferInstanceAs (Decidable (_ ∨ _))

def importFormat (imports : List (SymbolId × ℕ)) : ImportFormat :=
  if ∀ i ∈ imports, i.2 = 0 then .plain
  else if ∀ i ∈ imports, FitsI32 i.2 then .addend
  else .addend64

/-- An ordinal in a field of two's complement. -/
def special (bits : ℕ) (ord : ℤ) : ℕ := (ord % 2^bits).toNat

/-- `chained_import_ordinal`. -/
def chainedImportOrdinal (id : SymbolId) (bits : ℕ) : ℕ := special bits (ctx.bindOrdinal id)

def importOrdinal (id : SymbolId) (bits : ℕ) : ℕ :=
  let isDylib := match (ctx.sym id).file with
    | some (.dylib _) => true
    | _ => false
  if isDylib && !ctx.bindsWeakLookup id then chainedImportOrdinal ctx id bits
  else if ctx.bindsToSelf id then 0
  else if ctx.isInterposableExport id && !ctx.bindsWeakLookup id then
    special bits ctx.exportBindOrdinal
  else if ctx.isDtracePointerTarget id then special bits (-2)
  else special bits (-3)

def weakBit (id : SymbolId) : ℕ := if (ctx.sym id).isWeakRef then 1 else 0

def writeImport (format : ImportFormat) (i : SymbolId × ℕ) (nameOff : ℕ) : List UInt8 :=
  match format with
  | .plain => toLe 4 (importOrdinal ctx i.1 8 ||| (weakBit ctx i.1 <<< 8) ||| (nameOff <<< 9))
  | .addend =>
    toLe 4 (importOrdinal ctx i.1 8 ||| (weakBit ctx i.1 <<< 8) ||| (nameOff <<< 9)) ++ toLe 4 i.2
  | .addend64 =>
    toLe 8 (importOrdinal ctx i.1 16 ||| (weakBit ctx i.1 <<< 16) ||| (nameOff <<< 32)) ++ toLe 8 i.2

/-- The entries, from the offset of the first one's name, a `u32`. -/
def writeImportsFrom (format : ImportFormat) : ℕ → List (SymbolId × ℕ) → List UInt8
  | _, [] => []
  | nameOff, i::imports => writeImport ctx format i nameOff ++
      writeImportsFrom format ((nameOff+(ctx.name i.1).length+1) % 2^32) imports

def writeImports (imports : List (SymbolId × ℕ)) (format : ImportFormat) : List UInt8 :=
  writeImportsFrom ctx format 1 imports

/-- The imports' names, after a leading NUL. -/
def importNames (imports : List (SymbolId × ℕ)) : List UInt8 :=
  0 :: imports.flatMap fun i => ctx.name i.1 ++ [0]

/-! The entries as dyld reads them. -/

structure ImportEntry where
  ordinal : ℤ
  weak : Bool
  nameOff : ℕ
  addend : ℕ
  deriving DecidableEq

/-- Ordinals above 0xf0 of a byte are negative. -/
def signed8 (n : ℕ) : ℤ := if 0xf0 < n then n-2^8 else n

def signed16 (n : ℕ) : ℤ := if 0xfff0 < n then n-2^16 else n

/-- An `i32` widened to 64 bits. -/
def extend32 (n : ℕ) : ℕ := if n < 2^31 then n else n+(2^64-2^32)

def entryOfWord (w addend : ℕ) : ImportEntry := ⟨signed8 (w%2^8), w/2^8%2 = 1, w/2^9, addend⟩

def entryOfWord64 (w addend : ℕ) : ImportEntry := ⟨signed16 (w%2^16), w/2^16%2 = 1, w/2^32, addend⟩

def readImport (format : ImportFormat) (table : List UInt8) (i : ℕ) : Option ImportEntry :=
  match format with
  | .plain => (readLe 4 table (i*4)).map fun w => entryOfWord w 0
  | .addend => do
    let w ← readLe 4 table (i*8)
    let addend ← readLe 4 table (i*8+4)
    some (entryOfWord w (extend32 addend))
  | .addend64 => do
    let w ← readLe 8 table (i*16)
    let addend ← readLe 8 table (i*16+8)
    some (entryOfWord64 w addend)

def nameAt (names : List UInt8) (off : ℕ) : Option Name :=
  (BindInfo.fetchName (names.drop off)).map Prod.fst

/-! What the tables hold. -/

/-- An import: a dylib's symbol, or one left to dynamic lookup. -/
structure IsImport (id : SymbolId) (d : ℕ) : Prop where
  file : (ctx.sym id).file = some (.dylib d)
  known : d = dynamicLookup ∨ d < ctx.dylibs.length

/-- The library an import of a dylib is bound in. -/
def boundLibrary (d : ℕ) : Library :=
  if d = dynamicLookup ∨ ctx.args.flatNamespace then .flatLookup
  else match ctx.dylibs[d]? with
    | none => .self
    | some dylib => if dylib.bindsToImage then .self else dylib.library d

/-- The same, but that one its dylib exports as a weak definition is looked
up among all. -/
def chainedLibrary (id : SymbolId) (d : ℕ) : Library :=
  if ctx.bindsWeakLookup id then .weakLookup else boundLibrary ctx d

variable {ctx} {id : SymbolId} {d : ℕ}

theorem bind_ordinal_library (h : IsImport ctx id d) :
    libraryOf ctx.dylibs (ctx.bindOrdinal id) = some (boundLibrary ctx d) ∧
      -2 ≤ ctx.bindOrdinal id ∧ ctx.bindOrdinal id < 2^31 := by
  have hlt := ctx.dylibs_lt
  unfold Context.bindOrdinal boundLibrary
  rw [h.file]
  dsimp only
  by_cases hd : d = dynamicLookup
  · simp [hd, libraryOf]
  · rw [if_neg hd]
    have hin := h.known.resolve_left hd
    have hget := List.getElem?_eq_getElem hin
    obtain ⟨hlib,hlo,hhi⟩ := library_of_ordinal ctx.numbered hget
    rw [hget, Option.map_some, Option.getD_some, Context.dylibBindOrdinal]
    by_cases hflat : ctx.args.flatNamespace = true
    · simp [hflat, libraryOf]
    · by_cases himage : ctx.dylibs[d].bindsToImage = true
      · simp [hd, hflat, himage, libraryOf]
      · simp only [hd, hflat, himage, or_self, if_false, Bool.false_eq_true]
        exact ⟨hlib,by omega,by omega⟩

theorem weak_lookup_ordinal (h : IsImport ctx id d) (bits : ℕ) :
    importOrdinal ctx id bits =
      special bits (if ctx.bindsWeakLookup id then -3 else ctx.bindOrdinal id) := by
  have hobj : ctx.isObj id = false := by simp [Context.isObj, h.file]
  have hself : ctx.bindsToSelf id = false := by simp [Context.bindsToSelf, hobj]
  have hexport : ctx.isInterposableExport id = false := by
    simp [Context.isInterposableExport, hobj]
  have hdtrace : ctx.isDtracePointerTarget id = false := by
    simp [Context.isDtracePointerTarget, h.file]
  rw [importOrdinal, h.file]
  cases hweak : ctx.bindsWeakLookup id <;> simp [hself, hexport, hdtrace, chainedImportOrdinal]

/-! The symbol table's entry. -/

theorem desc_ordinal (ord flag : UInt16) (ho : ord.toNat < 256) (hf : flag.toNat < 256) :
    (((ord <<< 8) ||| flag) >>> 8).toNat = ord.toNat := by
  have hshift : (ord <<< 8).toNat = ord.toNat <<< 8 := by
    rw [UInt16.toNat_shiftLeft]
    exact Nat.mod_eq_of_lt (by rw [Nat.shiftLeft_eq]; change ord.toNat*2^8 < 2^16; omega)
  rw [UInt16.toNat_shiftRight, UInt16.toNat_or, hshift, Nat.or_comm, or_shift hf]
  change (_ >>> 8) = _
  rw [Nat.shiftRight_eq_div_pow]
  omega

theorem desc_library (h : IsImport ctx id d) (hord : ctx.bindOrdinal id ≤ 0xfd) :
    descLibrary ctx (importEntry ctx id).desc = some (boundLibrary ctx d) := by
  obtain ⟨hlib,hlo,-⟩ := bind_ordinal_library h
  have hbyte : (msymLibraryOrdinal ctx id).toUInt16.toNat = (msymLibraryOrdinal ctx id).toNat :=
    UInt8.toNat_toUInt16 _
  have hdesc : ((importEntry ctx id).desc >>> 8).toNat = (msymLibraryOrdinal ctx id).toNat := by
    rw [importEntry, desc_ordinal _ _ (hbyte ▸ UInt8.toNat_lt _) (by split <;> decide), hbyte]
  rw [descLibrary]
  by_cases hflat : ctx.args.flatNamespace = true
  · rw [if_pos hflat, boundLibrary, if_pos (Or.inr hflat)]
  · rw [if_neg hflat, hdesc, msymLibraryOrdinal, if_neg hflat]
    by_cases hmain : ctx.bindOrdinal id = -1
    · rw [if_pos hmain, ← hlib, hmain]
      rfl
    · rw [if_neg hmain, ← hlib]
      by_cases hdyn : ctx.bindOrdinal id = -2
      · rw [hdyn]
        rfl
      · have hn : (ctx.bindOrdinal id % 256).toNat.toUInt8.toNat = (ctx.bindOrdinal id).toNat := by
          simp only [Nat.toUInt8_eq, UInt8.toNat_ofNat']
          omega
        rw [hn]
        split
        · omega
        · omega
        · rw [Int.toNat_of_nonneg (by omega)]

/-! The chained entries. -/

theorem special_lt (bits : ℕ) (ord : ℤ) : special bits ord < 2^bits := by
  have hpos : (0 : ℤ) < 2^bits := by positivity
  have hlo := Int.emod_nonneg ord hpos.ne'
  have hhi := Int.emod_lt_of_pos ord hpos
  rw [special, Int.toNat_lt hlo]
  exact_mod_cast hhi

theorem signed8_special {ord : ℤ} (hlo : -15 ≤ ord) (hhi : ord ≤ 0xf0) :
    signed8 (special 8 ord) = ord := by
  unfold signed8 special
  split <;> omega

theorem signed16_special {ord : ℤ} (hlo : -15 ≤ ord) (hhi : ord ≤ 0xfff0) :
    signed16 (special 16 ord) = ord := by
  unfold signed16 special
  split <;> omega

theorem extend32_fits {addend : ℕ} (hlt : addend < 2^64) (h : FitsI32 addend) :
    extend32 (addend % 2^32) = addend := by
  unfold FitsI32 at h
  unfold extend32
  split <;> omega

/-- The addends a format has room for. -/
def ImportFormat.Holds : ImportFormat → ℕ → Prop
  | .plain, a => a = 0
  | .addend, a => FitsI32 a
  | .addend64, _ => True

theorem import_format_holds {imports : List (SymbolId × ℕ)} {i : SymbolId × ℕ} (hi : i ∈ imports) :
    (importFormat imports).Holds i.2 := by
  unfold importFormat
  by_cases hzero : ∀ i ∈ imports, i.2 = 0
  · rw [if_pos hzero]
    exact hzero i hi
  · rw [if_neg hzero]
    by_cases hfits : ∀ i ∈ imports, FitsI32 i.2
    · rw [if_pos hfits]
      exact hfits i hi
    · rw [if_neg hfits]
      exact trivial

def ImportFormat.size : ImportFormat → ℕ
  | .plain => 4
  | .addend => 8
  | .addend64 => 16

/-- The greatest ordinal of a dylib that a format has. -/
def ImportFormat.maxOrdinal : ImportFormat → ℤ
  | .plain | .addend => 0xf0
  | .addend64 => 0xfff0

def ImportFormat.nameLimit : ImportFormat → ℕ
  | .plain | .addend => 2^23
  | .addend64 => 2^32

def ImportFormat.ordinalBits : ImportFormat → ℕ
  | .plain | .addend => 8
  | .addend64 => 16

def ImportFormat.signed : ImportFormat → ℕ → ℤ
  | .plain | .addend => signed8
  | .addend64 => signed16

theorem signed_special {format : ImportFormat} {ord : ℤ} (hlo : -15 ≤ ord)
    (hhi : ord ≤ format.maxOrdinal) : format.signed (special format.ordinalBits ord) = ord := by
  cases format with
  | plain => exact signed8_special hlo hhi
  | addend => exact signed8_special hlo hhi
  | addend64 => exact signed16_special hlo hhi

variable (ctx) in
/-- The bytes of the names before a place of the table. -/
def namesLength (imports : List (SymbolId × ℕ)) : ℕ :=
  (imports.flatMap fun i => ctx.name i.1 ++ [0]).length

variable (ctx) in
/-- The offset of an import's name. -/
def nameOffset (imports : List (SymbolId × ℕ)) (j : ℕ) : ℕ := 1+namesLength ctx (imports.take j)

theorem write_import_length (format : ImportFormat) (i : SymbolId × ℕ) (nameOff : ℕ) :
    (writeImport ctx format i nameOff).length = format.size := by
  cases format <;> simp [writeImport, ImportFormat.size]

/-- The entry of an import stands at its index. -/
theorem write_imports_at {format : ImportFormat} {imports : List (SymbolId × ℕ)} {j : ℕ}
    {i : SymbolId × ℕ} (hj : imports[j]? = some i) {nameOff : ℕ} (hoff : nameOff < 2^32) :
    j*format.size ≤ (writeImportsFrom ctx format nameOff imports).length ∧
      ∃ c, (writeImportsFrom ctx format nameOff imports).drop (j*format.size) =
        writeImport ctx format i ((nameOff+namesLength ctx (imports.take j)) % 2^32) ++ c := by
  induction imports generalizing nameOff j with
  | nil => simp at hj
  | cons first imports ih =>
    have hsize : (writeImport ctx format first nameOff).length = _ :=
      write_import_length format first nameOff
    cases j with
    | zero =>
      obtain rfl := Option.some.inj hj
      refine ⟨by simp,writeImportsFrom ctx format ((nameOff+(ctx.name first.1).length+1) % 2^32)
        imports,?_⟩
      rw [List.take_zero, Nat.zero_mul, List.drop_zero]
      simp only [namesLength, List.flatMap_nil, List.length_nil, Nat.add_zero,
        Nat.mod_eq_of_lt hoff]
      rfl
    | succ j =>
      obtain ⟨hle,c,hc⟩ := ih hj (Nat.mod_lt (nameOff+(ctx.name first.1).length+1) (by decide))
      rw [writeImportsFrom, Nat.succ_mul, Nat.add_comm (j*format.size), ← List.drop_drop,
        List.drop_left' hsize]
      refine ⟨by rw [List.length_append, hsize]; omega,c,?_⟩
      rw [hc, List.take_succ_cons]
      have hsum : namesLength ctx (first::imports.take j) =
          (ctx.name first.1).length+1+namesLength ctx (imports.take j) := by
        simp only [namesLength, List.flatMap_cons, List.length_append, List.length_singleton]
      rw [hsum, Nat.mod_add_mod]
      congr 3
      omega

/-- The names hold an import's at its offset. -/
theorem name_at_offset {imports : List (SymbolId × ℕ)} {j : ℕ} {i : SymbolId × ℕ}
    (hj : imports[j]? = some i) :
    nameAt (importNames ctx imports) (nameOffset ctx imports j) = some (ctx.name i.1) := by
  have hlt := (List.getElem?_eq_some_iff.1 hj).1
  have hsplit : imports = imports.take j ++ i :: imports.drop (j+1) := by
    rw [← (List.getElem?_eq_some_iff.1 hj).2, List.cons_getElem_drop_succ, List.take_append_drop]
  have hdrop : (importNames ctx imports).drop (nameOffset ctx imports j) =
      ctx.name i.1 ++ 0 :: (imports.drop (j+1)).flatMap fun i => ctx.name i.1 ++ [0] := by
    rw [importNames, nameOffset, Nat.add_comm, List.drop_succ_cons, namesLength]
    conv_lhs => rw [hsplit]
    rw [List.flatMap_append, List.take_left' (by simp; omega), List.drop_left, List.flatMap_cons,
      List.append_assoc, List.singleton_append]
  rw [nameAt, hdrop, BindInfo.fetch_name _ (ctx.name_nul i.1)]
  rfl

/-- The fields of a 32-bit entry's word. An offset past 23 bits loses its
high ones and leaves the others alone. -/
theorem word_fields {ord weak : ℕ} (hord : ord < 2^8) (hweak : weak < 2) (off : ℕ) :
    let w := (ord ||| (weak <<< 8) ||| (off <<< 9)) % 256^4
    w%2^8 = ord ∧ w/2^8%2 = weak ∧ (off < 2^23 → w/2^9 = off) := by
  intro w
  have hw : w = (ord+2^8*(weak+2^1*off)) % 256^4 :=
    congrArg (· % 256^4) (or_shift_twice hord (by omega : weak < 2^1) off)
  omega

theorem word64_fields {ord weak : ℕ} (hord : ord < 2^16) (hweak : weak < 2) {off : ℕ}
    (hoff : off < 2^32) :
    let w := (ord ||| (weak <<< 16) ||| (off <<< 32)) % 256^8
    w%2^16 = ord ∧ w/2^16%2 = weak ∧ w/2^32 = off := by
  intro w
  have hw : w = (ord+2^16*(weak+2^16*off)) % 256^8 :=
    congrArg (· % 256^8) (or_shift_twice hord (by omega : weak < 2^16) off)
  omega

/-- What dyld reads of an entry. -/
theorem read_import_entry {format : ImportFormat} {i : SymbolId × ℕ} {nameOff : ℕ} {j : ℕ}
    {table c : List UInt8} (hlt : importOrdinal ctx i.1 format.ordinalBits < 2^format.ordinalBits)
    (haddend : i.2 < 2^64) (hholds : format.Holds i.2) (hoff : nameOff < 2^32)
    (hle : j*format.size ≤ table.length)
    (hdrop : table.drop (j*format.size) = writeImport ctx format i nameOff ++ c) :
    ∃ off, readImport format table j = some
        ⟨format.signed (importOrdinal ctx i.1 format.ordinalBits), (ctx.sym i.1).isWeakRef, off,
          i.2⟩ ∧
      (nameOff < format.nameLimit → off = nameOff) := by
  have hweak : weakBit ctx i.1 < 2 := by
    unfold weakBit
    split <;> decide
  have hflag : decide (weakBit ctx i.1 = 1) = (ctx.sym i.1).isWeakRef := by
    unfold weakBit
    cases (ctx.sym i.1).isWeakRef <;> rfl
  cases format with
  | plain =>
    obtain ⟨hread,-,-⟩ := read_field hle hdrop
    have hbyte : importOrdinal ctx i.1 8 < 2^8 := hlt
    obtain ⟨hlow,hbit,hhigh⟩ := word_fields hbyte hweak nameOff
    have hzero : i.2 = 0 := hholds
    refine ⟨_,?_,hhigh⟩
    change (readLe 4 table (j*4)).map _ = _
    rw [show readLe 4 table (j*4) = _ from hread, Option.map_some, hzero, entryOfWord, hlow, hbit,
      hflag]
    rfl
  | addend =>
    rw [writeImport, List.append_assoc] at hdrop
    obtain ⟨hread,hle',hdrop'⟩ := read_field hle hdrop
    obtain ⟨hread',-,-⟩ := read_field hle' hdrop'
    have hbyte : importOrdinal ctx i.1 8 < 2^8 := hlt
    obtain ⟨hlow,hbit,hhigh⟩ := word_fields hbyte hweak nameOff
    have hext : extend32 (i.2 % 256^4) = i.2 := extend32_fits haddend hholds
    refine ⟨_,?_,hhigh⟩
    change (readLe 4 table (j*8)).bind _ = _
    rw [show readLe 4 table (j*8) = _ from hread, Option.bind_some]
    change (readLe 4 table (j*8+4)).bind _ = _
    rw [show readLe 4 table (j*8+4) = _ from hread', Option.bind_some, hext, entryOfWord, hlow, hbit,
      hflag]
    rfl
  | addend64 =>
    rw [writeImport, List.append_assoc] at hdrop
    obtain ⟨hread,hle',hdrop'⟩ := read_field hle hdrop
    obtain ⟨hread',-,-⟩ := read_field hle' hdrop'
    have hbytes : importOrdinal ctx i.1 16 < 2^16 := hlt
    obtain ⟨hlow,hbit,hhigh⟩ := word64_fields hbytes hweak hoff
    have haddend' : i.2 % 256^8 = i.2 := Nat.mod_eq_of_lt haddend
    refine ⟨_,?_,fun _ => hhigh⟩
    change (readLe 8 table (j*16)).bind _ = _
    rw [show readLe 8 table (j*16) = _ from hread, Option.bind_some]
    change (readLe 8 table (j*16+8)).bind _ = _
    rw [show readLe 8 table (j*16+8) = _ from hread', Option.bind_some, haddend', entryOfWord64,
      hlow, hbit, hflag]
    rfl

/-- An import's entry in the chained table. -/
theorem import_entry (h : IsImport ctx id d) {imports : List (SymbolId × ℕ)} {j addend : ℕ}
    (hj : imports[j]? = some (id,addend)) (haddend : addend < 2^64) :
    ∃ e, readImport (importFormat imports) (writeImports ctx imports (importFormat imports)) j =
        some e ∧ e.weak = (ctx.sym id).isWeakRef ∧ e.addend = addend ∧
      (ctx.bindsWeakLookup id = true ∨
          ctx.bindOrdinal id ≤ (importFormat imports).maxOrdinal →
        libraryOf ctx.dylibs e.ordinal = some (chainedLibrary ctx id d)) ∧
      (nameOffset ctx imports j < (importFormat imports).nameLimit →
        nameAt (importNames ctx imports) e.nameOff = some (ctx.name id)) := by
  obtain ⟨hlib,hlo,-⟩ := bind_ordinal_library h
  have hordinal := weak_lookup_ordinal h (importFormat imports).ordinalBits
  have hone : 1 < 2^32 := by decide
  obtain ⟨hle,c,hdrop⟩ : _ ∧ ∃ c, (writeImports ctx imports (importFormat imports)).drop _ = _ ++ c :=
    write_imports_at hj hone
  obtain ⟨off,hread,hoff⟩ := read_import_entry (hordinal ▸ special_lt _ _) haddend
    (import_format_holds (List.mem_of_getElem? hj)) (Nat.mod_lt _ (by decide)) hle hdrop
  refine ⟨_,hread,rfl,rfl,fun hfits => ?_,fun hname => ?_⟩
  · rw [hordinal, chainedLibrary]
    by_cases hweak : ctx.bindsWeakLookup id = true
    · rw [if_pos hweak, if_pos hweak, signed_special (by decide)]
      · rfl
      · cases importFormat imports <;> decide
    · rw [if_neg hweak, if_neg hweak, signed_special (by omega) (hfits.resolve_left hweak)]
      exact hlib
  · have hlimit : (importFormat imports).nameLimit ≤ 2^32 := by
      cases importFormat imports <;> decide
    have hmod : (1+namesLength ctx (imports.take j)) % 2^32 = nameOffset ctx imports j :=
      Nat.mod_eq_of_lt (hname.trans_le hlimit)
    dsimp only
    rw [hoff (hmod ▸ hname), hmod]
    exact name_at_offset hj

/-- The bind opcodes name the library of an import, whatever its ordinal. So
does the symbol table's entry for an ordinal that is no special value of its
byte, and the chained entry for one that its field holds. A chained entry has
what its dylib exports as a weak definition looked up among all images
instead. Its weak flag and addend are the import's, and its offset leads to
the name while it fits. -/
theorem import_tables (h : IsImport ctx id d) {imports : List (SymbolId × ℕ)} {j addend : ℕ}
    (hj : imports[j]? = some (id,addend)) (haddend : addend < 2^64) :
    (∀ rest, ∃ ord, BindInfo.fetch (BindInfo.encodeOp (.dylib (ctx.bindOrdinal id)) ++ rest) =
        some (.op (.dylib ord),rest) ∧
      libraryOf ctx.dylibs ord = some (boundLibrary ctx d)) ∧
    (ctx.bindOrdinal id ≤ 0xfd →
      descLibrary ctx (importEntry ctx id).desc = some (boundLibrary ctx d)) ∧
    ∃ e, readImport (importFormat imports) (writeImports ctx imports (importFormat imports)) j =
        some e ∧ e.weak = (ctx.sym id).isWeakRef ∧ e.addend = addend ∧
      (ctx.bindsWeakLookup id = true ∨
          ctx.bindOrdinal id ≤ (importFormat imports).maxOrdinal →
        libraryOf ctx.dylibs e.ordinal = some (chainedLibrary ctx id d)) ∧
      (nameOffset ctx imports j < (importFormat imports).nameLimit →
        nameAt (importNames ctx imports) e.nameOff = some (ctx.name id)) := by
  obtain ⟨hlib,hlo,hhi⟩ := bind_ordinal_library h
  refine ⟨fun rest => ?_,desc_library h,import_entry h hj haddend⟩
  exact ⟨_,BindInfo.fetch_dylib _ (by omega) hhi rest,hlib⟩

/-- Two dylibs, the second named first. The first exports a weak definition. -/
def twoNamed : List Dylib :=
  [{ namedAt := some 1, weakExports := [bytes "__Znwm"] },{ namedAt := some 0 }]

theorem two_named_order : namedOrder twoNamed = [1,0] := by
  have hloaded : loaded twoNamed = [0,1] := by decide +kernel
  rw [namedOrder, hloaded, StableSort.sortBy]
  simp [twoNamed, namedKey, List.mergeSort, List.MergeSort.Internal.splitInTwo]

/-- A symbol of each dylib, and those of neither left to dynamic lookup. -/
def weakExport : Context where
  args := {}
  useChainedFixups := true
  dylibs :=
    [{ namedAt := some 1, weakExports := [bytes "__Znwm"], dylibIdx := 2 },
      { namedAt := some 0, dylibIdx := 1 }]
  sym
    | 0 => { file := some (.dylib 0) }
    | 1 => { file := some (.dylib 1) }
    | _ => { file := some (.dylib dynamicLookup) }
  name
    | 0 => bytes "__Znwm"
    | 1 => bytes "_puts"
    | _ => bytes "_main"
  name_nul id := by
    split <;> decide
  numbered := ⟨twoNamed,by rw [assignDylibOrdinals, two_named_order]; rfl,by decide⟩
  dylibs_lt := by decide

/-- Two of the imports at an addend. -/
def weakImports : List (SymbolId × ℕ) := [(1,8),(0,16),(2,0)]

theorem import_tables_weak_export :
    (∃ e, readImport .addend (writeImports weakExport weakImports .addend) 0 = some e ∧
      libraryOf weakExport.dylibs e.ordinal = some (.dylib 1) ∧ e.addend = 8 ∧
      nameAt (importNames weakExport weakImports) e.nameOff = some (bytes "_puts")) ∧
    (∃ e, readImport .addend (writeImports weakExport weakImports .addend) 1 = some e ∧
      libraryOf weakExport.dylibs e.ordinal = some .weakLookup ∧ e.addend = 16 ∧
      nameAt (importNames weakExport weakImports) e.nameOff = some (bytes "__Znwm")) ∧
    ∃ e, readImport .addend (writeImports weakExport weakImports .addend) 2 = some e ∧
      libraryOf weakExport.dylibs e.ordinal = some .flatLookup ∧ e.addend = 0 ∧
      nameAt (importNames weakExport weakImports) e.nameOff = some (bytes "_main") := by
  refine ⟨?_,?_,?_⟩
  · have himport : IsImport weakExport 1 1 := ⟨rfl,Or.inr (by decide +kernel)⟩
    obtain ⟨-,-,e,hread,-,haddend,hlib,hname⟩ :=
      import_tables himport (show weakImports[0]? = some (1,8) from rfl) (by decide)
    refine ⟨e,hread,?_,haddend,hname (by decide +kernel)⟩
    rw [hlib (Or.inr (by decide +kernel))]
    decide +kernel
  · have himport : IsImport weakExport 0 0 := ⟨rfl,Or.inr (by decide +kernel)⟩
    obtain ⟨-,-,e,hread,-,haddend,hlib,hname⟩ :=
      import_tables himport (show weakImports[1]? = some (0,16) from rfl) (by decide)
    refine ⟨e,hread,?_,haddend,hname (by decide +kernel)⟩
    rw [hlib (Or.inl (by decide +kernel))]
    decide +kernel
  · have himport : IsImport weakExport 2 dynamicLookup := ⟨rfl,Or.inl rfl⟩
    obtain ⟨-,-,e,hread,-,haddend,hlib,hname⟩ :=
      import_tables himport (show weakImports[2]? = some (2,0) from rfl) (by decide)
    refine ⟨e,hread,?_,haddend,hname (by decide +kernel)⟩
    rw [hlib (Or.inr (by decide +kernel))]
    decide +kernel

/-- The entry of the symbol table names the dylib of an import that the
chained entry has looked up among all. -/
theorem weak_export_tables_differ :
    descLibrary weakExport (importEntry weakExport 0).desc = some (.dylib 0) ∧
      ((readImport .plain (writeImports weakExport [(0,0)] .plain) 0).bind fun e =>
        libraryOf weakExport.dylibs e.ordinal) = some .weakLookup ∧
      importFormat [(0,0)] = .plain := by
  refine ⟨?_,by decide +kernel,by decide +kernel⟩
  rw [desc_library ⟨rfl,Or.inr (by decide +kernel)⟩ (by decide +kernel)]
  rfl

end MoldMacho.Imports
