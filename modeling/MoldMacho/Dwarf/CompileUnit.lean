import MoldMacho.Dwarf.Parse
import MoldMacho.Passes.OutputSectionNames

/-!
# The name of a compile unit

The first compile unit of an object's DWARF sections, its attributes read by their
forms, and the strings that they name.
-/

set_option autoImplicit false

namespace MoldMacho.Dwarf
open Bytes Leb128 OutputSectionNames

def dwTagCompileUnit : ℕ := 0x11
def dwAtName : ℕ := 0x03
def dwAtCompDir : ℕ := 0x1b
def dwAtStrOffsetsBase : ℕ := 0x72

def dwFormAddr : ℕ := 0x01
def dwFormBlock2 : ℕ := 0x03
def dwFormBlock4 : ℕ := 0x04
def dwFormData2 : ℕ := 0x05
def dwFormData4 : ℕ := 0x06
def dwFormData8 : ℕ := 0x07
def dwFormString : ℕ := 0x08
def dwFormBlock : ℕ := 0x09
def dwFormBlock1 : ℕ := 0x0a
def dwFormData1 : ℕ := 0x0b
def dwFormFlag : ℕ := 0x0c
def dwFormSdata : ℕ := 0x0d
def dwFormStrp : ℕ := 0x0e
def dwFormUdata : ℕ := 0x0f
def dwFormRefAddr : ℕ := 0x10
def dwFormRef1 : ℕ := 0x11
def dwFormRef2 : ℕ := 0x12
def dwFormRef4 : ℕ := 0x13
def dwFormRef8 : ℕ := 0x14
def dwFormRefUdata : ℕ := 0x15
def dwFormIndirect : ℕ := 0x16
def dwFormSecOffset : ℕ := 0x17
def dwFormExprloc : ℕ := 0x18
def dwFormFlagPresent : ℕ := 0x19
def dwFormStrx : ℕ := 0x1a
def dwFormAddrx : ℕ := 0x1b
def dwFormRefSup4 : ℕ := 0x1c
def dwFormStrpSup : ℕ := 0x1d
def dwFormData16 : ℕ := 0x1e
def dwFormLineStrp : ℕ := 0x1f
def dwFormRefSig8 : ℕ := 0x20
def dwFormImplicitConst : ℕ := 0x21
def dwFormLoclistx : ℕ := 0x22
def dwFormRnglistx : ℕ := 0x23
def dwFormRefSup8 : ℕ := 0x24
def dwFormStrx1 : ℕ := 0x25
def dwFormStrx2 : ℕ := 0x26
def dwFormStrx3 : ℕ := 0x27
def dwFormStrx4 : ℕ := 0x28
def dwFormAddrx1 : ℕ := 0x29
def dwFormAddrx2 : ℕ := 0x2a
def dwFormAddrx3 : ℕ := 0x2b
def dwFormAddrx4 : ℕ := 0x2c

/-- What an attribute's value came as. -/
inductive Value where
  | inline (bytes : List UInt8)
  | strp (off : ℕ)
  | lineStrp (off : ℕ)
  | strx (idx : ℕ)
  | other (v : ℕ)
  deriving DecidableEq

/-- A signed word as the unsigned one of its bits. -/
def ofSigned (n : ℤ) : ℕ := (BitVec.ofInt 64 n).toNat

/-- The arms of `read_form` other than that of a form that names another. -/
def readDirect (addrSize : ℕ) (implicit : ℤ) (form : ℕ) : Parse Value :=
  if form = dwFormAddr then do return .other (← if addrSize = 4 then u32 else u64)
  else if form = dwFormBlock2 then do skip (← u16); return .other 0
  else if form = dwFormBlock4 then do skip (← u32); return .other 0
  else if form ∈ [dwFormData2,dwFormRef2] then do return .other (← u16)
  else if form ∈ [dwFormData4,dwFormRef4,dwFormRefAddr,dwFormSecOffset,dwFormRefSup4,
      dwFormStrpSup] then do return .other (← u32)
  else if form ∈ [dwFormData8,dwFormRef8,dwFormRefSig8,dwFormRefSup8] then
    do return .other (← u64)
  else if form = dwFormString then do return .inline (← cstr)
  else if form ∈ [dwFormBlock,dwFormExprloc] then do skip (← uleb); return .other 0
  else if form = dwFormBlock1 then do skip (← u8).toNat; return .other 0
  else if form ∈ [dwFormData1,dwFormRef1,dwFormFlag] then do return .other (← u8).toNat
  else if form = dwFormSdata then do return .other (ofSigned (← sleb))
  else if form = dwFormStrp then do return .strp (← u32)
  else if form = dwFormLineStrp then do return .lineStrp (← u32)
  else if form ∈ [dwFormUdata,dwFormRefUdata,dwFormAddrx,dwFormLoclistx,dwFormRnglistx] then
    do return .other (← uleb)
  else if form = dwFormFlagPresent then return .other 1
  else if form = dwFormStrx then do return .strx (← uleb)
  else if form = dwFormStrx1 then do return .strx (← u8).toNat
  else if form = dwFormStrx2 then do return .strx (← u16)
  else if form = dwFormStrx3 then do return .strx (ofLe [← u8,← u8,← u8,0])
  else if form = dwFormStrx4 then do return .strx (← u32)
  else if form = dwFormAddrx1 then do return .other (← u8).toNat
  else if form = dwFormAddrx2 then do return .other (← u16)
  else if form = dwFormAddrx3 then do skip 3; return .other 0
  else if form = dwFormAddrx4 then do return .other (← u32)
  else if form = dwFormData16 then do skip 16; return .other 0
  else if form = dwFormImplicitConst then return .other (ofSigned implicit)
  else throw .missing

/-- Reads one attribute value of the given form. -/
def readForm (addrSize : ℕ) (implicit : ℤ) (form : ℕ) (r : Reader) :
    Except Stop (Value × Reader) :=
  if form = dwFormIndirect then
    match _h : uleb r with
    | .error e => .error e
    | .ok (actual,next) => readForm addrSize implicit actual next
  else readDirect addrSize implicit form r
termination_by r.rest.length
decreasing_by exact uleb_consumes _ _ _ _h

theorem read_form_indirect (addrSize : ℕ) (implicit : ℤ) :
    readForm addrSize implicit dwFormIndirect = uleb >>= readForm addrSize implicit := by
  ext1 r
  rw [readForm, if_pos rfl]
  split
  · next h => rw [bind_of_error _ h]
  · next h => rw [bind_of_ok _ h]

theorem read_form_direct (addrSize : ℕ) (implicit : ℤ) {form : ℕ} (h : form ≠ dwFormIndirect) :
    readForm addrSize implicit form = readDirect addrSize implicit form := by
  ext1 r
  rw [readForm, if_neg h]

/-- An attribute's specification. -/
structure Spec where
  attr : ℕ
  form : ℕ
  implicit : ℤ := 0
  deriving DecidableEq

/-- The next of an abbreviation's attribute specifications, none at their end. -/
def readSpec : Parse (Option Spec) := do
  let attr ← uleb
  let form ← uleb
  if attr = 0 ∧ form = 0 then return none
  else if form = dwFormImplicitConst then return some ⟨attr,form,← sleb⟩
  else return some ⟨attr,form,0⟩

theorem read_spec_consumes : Consumes 1 readSpec :=
  uleb_consumes.bind fun _ => uleb_consumes.any.bind fun _ =>
    .ite (.pure _) (.ite (sleb_consumes.any.map _) (.pure _))

/-- Skips the attribute specifications of another abbreviation. -/
def skipSpecs (r : Reader) : Except Stop (Unit × Reader) :=
  match _h : readSpec r with
  | .error e => .error e
  | .ok (none,next) => .ok ((),next)
  | .ok (some _,next) => skipSpecs next
termination_by r.rest.length
decreasing_by exact read_spec_consumes _ _ _ _h

/-- An abbreviation's number and tag, none at the table's end. -/
def readDecl : Parse (ℕ × ℕ) := do
  let c ← uleb
  if c = 0 then throw .missing
  else do
    let tag ← uleb
    let _children ← u8
    return (c,tag)

theorem read_decl_consumes : Consumes 1 readDecl :=
  uleb_consumes.bind fun _ => .ite (.fail _) (uleb_consumes.any.bind fun _ => u8_consumes.any.map _)

theorem skip_specs_eq : skipSpecs = readSpec >>= fun
    | none => pure ()
    | some _ => skipSpecs := by
  ext1 r
  rw [skipSpecs]
  split
  · next h => rw [bind_of_error _ h]
  · next h =>
    rw [bind_of_ok _ h]
    rfl
  · next h => rw [bind_of_ok _ h]

theorem skip_specs_consumes : Consumes 0 skipSpecs := by
  intro r v r' h
  obtain ⟨n,hn⟩ : ∃ n, n = r.rest.length := ⟨_,rfl⟩
  induction n using Nat.strongRecOn generalizing r with
  | ind n ih =>
    subst hn
    rw [skip_specs_eq] at h
    obtain ⟨spec,next,hspec,hrest⟩ := bind_ok h
    have hlt := read_spec_consumes _ _ _ hspec
    cases spec with
    | none =>
      cases hrest
      omega
    | some spec =>
      have hle := ih _ (by omega) next hrest rfl
      omega

/-- The tag of the abbreviation numbered `code` in a table, and a reader at its attribute
specifications. -/
def findAbbrev (code : ℕ) (r : Reader) : Except Stop (ℕ × Reader) :=
  match _h : readDecl r with
  | .error e => .error e
  | .ok ((c,tag),next) =>
    if c = code then .ok (tag,next)
    else match _hskip : skipSpecs next with
      | .error e => .error e
      | .ok (_,next) => findAbbrev code next
termination_by r.rest.length
decreasing_by
  have hdecl := read_decl_consumes _ _ _ _h
  have hspecs := skip_specs_consumes _ _ _ _hskip
  omega

theorem find_abbrev_eq (code : ℕ) : findAbbrev code = readDecl >>= fun (c,tag) =>
    if c = code then pure tag else skipSpecs >>= fun _ => findAbbrev code := by
  ext1 r
  rw [findAbbrev]
  split
  · next h => rw [bind_of_error _ h]
  · next h =>
    rw [bind_of_ok _ h]
    dsimp only
    split
    · rfl
    · split
      · next hskip => rw [bind_of_error _ hskip]
      · next hskip => rw [bind_of_ok _ hskip]

/-- What the attributes of a unit give: the last of each name. -/
structure Attrs where
  name : Option Value := none
  compDir : Option Value := none
  strOffsetsBase : Option ℕ := none
  deriving DecidableEq

def Attrs.set (attrs : Attrs) (attr : ℕ) (val : Value) : Attrs :=
  if attr = dwAtName then { attrs with name := some val }
  else if attr = dwAtCompDir then { attrs with compDir := some val }
  else if attr = dwAtStrOffsetsBase then
    match val with
    | .other v => { attrs with strOffsetsBase := some v }
    | _ => attrs
  else attrs

/-- The attributes by their specifications, of which `specs` is ahead of the next. -/
def readAttrs (addrSize : ℕ) (specs r : Reader) (attrs : Attrs) : Except Stop Attrs :=
  match _h : readSpec specs with
  | .error e => .error e
  | .ok (none,_) => .ok attrs
  | .ok (some spec,specs) =>
    match readForm addrSize spec.implicit spec.form r with
    | .error e => .error e
    | .ok (val,r) => readAttrs addrSize specs r (attrs.set spec.attr val)
termination_by specs.rest.length
decreasing_by exact read_spec_consumes _ _ _ _h

theorem read_attrs_eq (addrSize : ℕ) (specs r : Reader) (attrs : Attrs) :
    readAttrs addrSize specs r attrs = match readSpec specs with
      | .error e => .error e
      | .ok (none,_) => .ok attrs
      | .ok (some spec,specs) =>
        match readForm addrSize spec.implicit spec.form r with
        | .error e => .error e
        | .ok (val,r) => readAttrs addrSize specs r (attrs.set spec.attr val) := by
  rw [readAttrs]
  split
  · simp [*]
  · simp [*]
  · next hspec => rw [hspec]

/-- A unit's header: the offset of its abbreviations, and the size of an address. -/
def readHeader : Parse (ℕ × ℕ) := do
  let length ← u32
  if length = 0xffffffff then throw .missing
  else do
    let version ← u16
    if 5 ≤ version then do
      let _unitType ← u8
      let addrSize ← u8
      let abbrevOff ← u32
      return (abbrevOff,addrSize.toNat)
    else do
      let abbrevOff ← u32
      let addrSize ← u8
      return (abbrevOff,addrSize.toNat)

/-- The attributes of the first unit of `__debug_info`. -/
def unitAttrs (info abbrevSect : List UInt8) : Except Stop Attrs := do
  let ((abbrevOff,addrSize),r) ← readHeader { data := info }
  if abbrevSect.length < abbrevOff then .error .missing
  else do
    let (code,r) ← uleb r
    let (tag,specs) ← findAbbrev code { data := abbrevSect.drop abbrevOff }
    if tag ≠ dwTagCompileUnit then .error .missing
    else readAttrs addrSize specs r {}

/-! ## Strings -/

def checkedAdd (a b : ℕ) : Except Stop ℕ := if a+b < 2^64 then .ok (a+b) else .error .overflow
def checkedMul (a b : ℕ) : Except Stop ℕ := if a*b < 2^64 then .ok (a*b) else .error .overflow

def orMissing {α : Type} : Option α → Except Stop α
  | none => .error .missing
  | some a => .ok a

/-- What stands for a value that is missing. -/
def orElse {α : Type} (default : α) : Except Stop α → Except Stop α
  | .error .missing => .ok default
  | x => x

/-- The code's header of an input section, and where its contents are. -/
structure SectHdr extends MachSection where
  offset : UInt32
  size : UInt64
  deriving DecidableEq

/-- The DWARF sections that are read. -/
structure Sections where
  info : List UInt8
  abbrevSect : List UInt8
  str : List UInt8
  lineStr : List UInt8
  strOffsets : List UInt8
  deriving DecidableEq

def findSect (sects : List SectHdr) (name : String) : Option SectHdr :=
  sects.find? fun s => s.segname == Chunks.bytes "__DWARF" && s.sectname == Chunks.bytes name

/-- The contents of a section. -/
def contents (file : List UInt8) (sects : List SectHdr) (name : String) :
    Except Stop (List UInt8) := do
  let s ← orMissing (findSect sects name)
  let stop ← checkedAdd s.offset.toNat s.size.toNat
  orMissing (bytesAt file s.offset.toNat (stop - s.offset.toNat))

def sections (file : List UInt8) (sects : List SectHdr) : Except Stop Sections := do
  let info ← contents file sects "__debug_info"
  let abbrevSect ← contents file sects "__debug_abbrev"
  let str ← orElse [] (contents file sects "__debug_str")
  let lineStr ← orElse [] (contents file sects "__debug_line_str")
  let strOffsets ← orElse [] (contents file sects "__debug_str_offs")
  return ⟨info,abbrevSect,str,lineStr,strOffsets⟩

/-- The string at an offset of a string section. -/
def cstrAt (data : List UInt8) (off : ℕ) : Except Stop (List UInt8) := do
  let (s,_) ← cstr { data, pos := off }
  return s

/-- The string of a value, whose index is into a table at `base`. -/
def resolve (s : Sections) (base : Option ℕ) : Value → Except Stop (List UInt8)
  | .inline bytes => .ok bytes
  | .strp off => cstrAt s.str off
  | .lineStrp off => cstrAt s.lineStr off
  | .strx idx => do
    let at_ ← checkedAdd (base.getD 8) (← checkedMul idx 4)
    let stop ← checkedAdd at_ 4
    let off ← orMissing (readLe (stop - at_) s.strOffsets at_)
    cstrAt s.str off
  | .other _ => .error .missing

/-- The compilation directory and the file name of an object's first compile unit. -/
def compileUnitName (file : List UInt8) (sects : List SectHdr) :
    Except Stop (List UInt8 × List UInt8) := do
  let s ← sections file sects
  let attrs ← unitAttrs s.info s.abbrevSect
  let name ← resolve s attrs.strOffsetsBase (← orMissing attrs.name)
  let compDir ← orElse [] (do resolve s attrs.strOffsetsBase (← orMissing attrs.compDir))
  return (compDir,name)

end MoldMacho.Dwarf
