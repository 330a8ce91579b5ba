import MoldMacho.Chunks.Header

/-!
# The names and flags of output sections

Where an input section goes, from its header and the symbol move of its
subsection, and the flags its output section takes from it. Names are cut at
their first null byte where the header holds sixteen bytes of each.
-/

set_option autoImplicit false

namespace MoldMacho.OutputSectionNames
open MoldMacho.Chunks

/-- A segment's and a section's name. -/
abbrev SectionName := List UInt8 × List UInt8

/-- Whether a name is one of the sections listed of a segment. -/
def named (seg : String) (sects : List String) (name : SectionName) : Bool :=
  name.1 == bytes seg && sects.any fun sect => name.2 == bytes sect

def sRegular : UInt32 := 0x0
def sCstringLiterals : UInt32 := 0x2
def s4byteLiterals : UInt32 := 0x3
def s8byteLiterals : UInt32 := 0x4
def sLiteralPointers : UInt32 := 0x5
def sNonLazySymbolPointers : UInt32 := 0x6
def sLazySymbolPointers : UInt32 := 0x7
def sModInitFuncPointers : UInt32 := 0x9
def sModTermFuncPointers : UInt32 := 0xa
def sCoalesced : UInt32 := 0xb
def sGbZerofill : UInt32 := 0xc
def s16byteLiterals : UInt32 := 0xe
def sDtraceDof : UInt32 := 0xf
def sThreadLocalVariables : UInt32 := 0x13
def sThreadLocalVariablePointers : UInt32 := 0x14

def sAttrPureInstructions : UInt32 := 0x80000000
def sAttrNoDeadStrip : UInt32 := 0x10000000
def sAttrDebug : UInt32 := 0x02000000
def sAttrSomeInstructions : UInt32 := 0x00000400

/-- The code's header of an input section; the fields the passes here read. -/
structure MachSection where
  /-- Sixteen bytes each, the rest null. -/
  rawSectname : List UInt8
  rawSegname : List UInt8
  flags : UInt32 := 0
  deriving DecidableEq

def nameToBytes (raw : List UInt8) : List UInt8 := raw.takeWhile (· != 0)

/-- A name as a field of sixteen bytes. -/
def nameField (name : List UInt8) : List UInt8 := name ++ List.replicate (16-name.length) 0

def NulPadded (raw : List UInt8) : Prop := raw = nameField (nameToBytes raw)

namespace MachSection

def sectname (hdr : MachSection) : List UInt8 := nameToBytes hdr.rawSectname
def segname (hdr : MachSection) : List UInt8 := nameToBytes hdr.rawSegname
def sectionType (hdr : MachSection) : UInt32 := hdr.flags &&& Chunks.sectionType

def isZerofill (hdr : MachSection) : Bool :=
  [sZerofill,sGbZerofill,sThreadLocalZerofill].contains hdr.sectionType

end MachSection

/-- The option that moves a subsection. -/
inductive MoveOption where
  | rw
  | ro
  | dirty
  deriving DecidableEq

/-- Where a symbol move sends a subsection. -/
structure Move where
  option : MoveOption
  segment : List UInt8
  deriving DecidableEq

/-! ## The command line -/

structure VersionSet where
  macos : ℕ
  ios : ℕ
  visionos : ℕ
  firmware : Bool

def encodeVersion (major minor : ℕ) : ℕ := major*65536+minor*256

def version2024Spring : VersionSet where
  macos := encodeVersion 14 4
  ios := encodeVersion 17 4
  visionos := encodeVersion 1 1
  firmware := false

def version2024Fall : VersionSet where
  macos := encodeVersion 15 0
  ios := encodeVersion 18 0
  visionos := encodeVersion 2 0
  firmware := false

/-- Whether a deployment target is at or past this set: macOS; iOS and tvOS
and their simulators; visionOS and its simulator; firmware. -/
def VersionSet.reachedBy (set : VersionSet) (platform minos : ℕ) : Bool :=
  match platform with
  | 1 => set.macos ≤ minos
  | 2 | 7 | 3 | 8 => set.ios ≤ minos
  | 11 | 12 => set.visionos ≤ minos
  | 13 => set.firmware
  | _ => false

structure Args where
  relocatable : Bool := false
  dataConst : Bool := true
  constSelrefs : Bool := false
  sharedRegion : Bool := false
  objcRelativeMethodLists : Bool := false
  textExec : Bool := false
  mergeZeroFillSections : Bool := false
  staticLink : Bool := false
  isKext : Bool := false
  platform : ℕ := 1
  platformMinos : ℕ := 0
  renameSections : List (SectionName × SectionName) := []
  renameSegments : List (List UInt8 × List UInt8) := []

def Args.targets (args : Args) (set : VersionSet) : Bool :=
  set.reachedBy args.platform args.platformMinos

/-- The name `-rename_section` gives a section. -/
def sectionRenamed (args : Args) (name : SectionName) : SectionName :=
  ((args.renameSections.find? fun rename => rename.1 == name).map Prod.snd).getD name

/-- The segment `-rename_segment` moves a segment's sections to. -/
def renamedSegment (args : Args) (seg : List UInt8) : List UInt8 :=
  ((args.renameSegments.find? fun rename => rename.1 == seg).map Prod.snd).getD seg

/-- `-rename_section` and then `-rename_segment`. -/
def renamed (args : Args) (name : SectionName) : SectionName :=
  (renamedSegment args (sectionRenamed args name).1,(sectionRenamed args name).2)

/-! ## Standard sections -/

/-- The flags of a section of a standard name. -/
def standardSectionFlags (name : SectionName) : Option UInt32 :=
  if named "__TEXT" ["__text","__StaticInit","__stub_helper","__objc_stubs","__objc_clsstubs",
      "__delay_stubs","__delay_helper","__lazy_helpers","__resolver_help"] name then
    some (sAttrPureInstructions ||| sAttrSomeInstructions)
  else if named "__TEXT" ["__cstring","__objc_classname","__objc_methname","__objc_methtype",
      "__oslogstring"] name then some sCstringLiterals
  else if named "__TEXT" ["__literal4"] name then some s4byteLiterals
  else if named "__TEXT" ["__literal8"] name then some s8byteLiterals
  else if named "__TEXT" ["__literal16"] name then some s16byteLiterals
  else if named "__TEXT" ["__const","__ustring","__gcc_except_tab","__objc_methlist"] name then
    some sRegular
  else if named "__DATA" ["__got","__auth_got","__weak_got","__weak_auth_got"] name then
    some sNonLazySymbolPointers
  else if named "__DATA" ["__la_symbol_ptr","__la_resolver"] name then some sLazySymbolPointers
  else if named "__DATA" ["__mod_init_func"] name then some sModInitFuncPointers
  else if named "__DATA" ["__mod_term_func"] name then some sModTermFuncPointers
  else if named "__DATA" ["__objc_classlist","__objc_nlclslist","__objc_catlist","__objc_catlist2",
      "__objc_nlcatlist","__objc_classrefs","__objc_superrefs","__objc_clsrolist"] name then
    some sAttrNoDeadStrip
  else if named "__DATA" ["__objc_protolist"] name then some sCoalesced
  else if named "__DATA" ["__objc_protorefs"] name then some (sCoalesced ||| sAttrNoDeadStrip)
  else if named "__DATA" ["__objc_selrefs"] name then some (sLiteralPointers ||| sAttrNoDeadStrip)
  else if named "__DATA" ["__thread_vars"] name then some sThreadLocalVariables
  else if named "__DATA" ["__thread_ptrs"] name then some sThreadLocalVariablePointers
  else if named "__DATA" ["__thread_data"] name then some sThreadLocalRegular
  else if named "__DATA" ["__thread_bss"] name then some sThreadLocalZerofill
  else if named "__DATA" ["__bss","__common"] name then some sZerofill
  else if named "__DATA" ["__data","__const","__cfstring","__auth_ptr","__objc_data",
      "__objc_const","__objc_ivar","__objc_imageinfo","__objc_intobj","__objc_floatobj",
      "__objc_doubleobj","__objc_dateobj","__objc_dictobj","__objc_arrayobj","__objc_arraydata",
      "__const_cfobj2"] name then some sRegular
  else if named "__LD" ["__compact_unwind"] name then some sAttrDebug
  else none

/-- Whether an input section is placed as the standard section of its name. -/
def isStandardSection (name : SectionName) (flags : UInt32) : Bool :=
  match standardSectionFlags name with
  | none => false
  | some table =>
    table &&& sectionType == flags &&& sectionType || (bytes "__objc_").isPrefixOf name.2 ||
      named "__DATA" ["__got"] name

/-- The flags an input section is read as having. -/
def inputSectionFlags (name : SectionName) (flags : UInt32) : UInt32 :=
  match standardSectionFlags name with
  | some table => if table &&& sectionType == flags &&& sectionType then table else flags
  | none => flags

def isClassOrProtocolRefName (sectname : List UInt8) : Bool :=
  sectname == bytes "__objc_superrefs" || sectname == bytes "__objc_protorefs"

/-- The flags an output section carries, from those its first member is read
as having. -/
def outputSectionFlags (name : SectionName) (input : UInt32) (relocatable : Bool) : UInt32 :=
  if relocatable then
    if named "__DATA" ["__got"] name then input &&& ~~~sectionType
    else match standardSectionFlags name with
      | some table =>
        if input &&& sectionType == sLiteralPointers && isClassOrProtocolRefName name.2 then table
        else input
      | none => input
  else
    let inputType := input &&& sectionType
    let type :=
      if inputType == sGbZerofill then sZerofill
      else if [sZerofill,sCstringLiterals,s4byteLiterals,s8byteLiterals,s16byteLiterals,
          sModInitFuncPointers,sModTermFuncPointers,sNonLazySymbolPointers,sThreadLocalRegular,
          sThreadLocalZerofill,sThreadLocalVariables].contains inputType then inputType
      else if input == sDtraceDof then sDtraceDof
      else sRegular
    let isCode := input &&& sAttrPureInstructions != 0 &&
      (inputType == sRegular || inputType == sCoalesced)
    if isCode then type ||| sAttrPureInstructions ||| sAttrSomeInstructions else type

/-! ## Where an input section goes -/

structure SectionMap where
  relocatable : Bool
  dataConst : Bool
  objcConstRefs : Bool
  constInterpose : Bool
  constSelrefs : Bool
  sharedRegion : Bool
  relativeMethods : Bool
  textExec : Bool
  mergeZeroFill : Bool

def interposeIsConst (args : Args) : Bool :=
  !args.relocatable && args.targets version2024Fall && !(args.staticLink || args.isKext)

def SectionMap.new (args : Args) : SectionMap where
  relocatable := args.relocatable
  dataConst := args.dataConst
  objcConstRefs := args.targets version2024Spring
  constInterpose := interposeIsConst args
  constSelrefs := args.constSelrefs
  sharedRegion := args.sharedRegion
  relativeMethods := args.objcRelativeMethodLists
  textExec := args.textExec
  mergeZeroFill := args.mergeZeroFillSections

/-- Sections of data that needs no writes after dyld's fixups. -/
def dataConstSections : List String :=
  ["__auth_ptr","__cfstring","__const","__const_cfobj2","__got","__mod_init_func",
    "__mod_term_func","__objc_arraydata","__objc_arrayobj","__objc_dateobj","__objc_dictobj",
    "__objc_doubleobj","__objc_floatobj","__objc_intobj","__objc_catlist","__objc_catlist2",
    "__objc_classlist","__objc_imageinfo","__objc_nlcatlist","__objc_nlclslist",
    "__objc_protolist"]

namespace SectionMap
variable (map : SectionMap)

def constName (name : SectionName) : SectionName :=
  let isConst :=
    if ["__objc_classrefs","__objc_protorefs","__objc_superrefs"].any fun s => name.2 == bytes s
    then map.objcConstRefs
    else if name.2 == bytes "__objc_selrefs" then map.constSelrefs
    else if name.2 == bytes "__objc_const" then map.sharedRegion && map.relativeMethods
    else dataConstSections.any fun s => name.2 == bytes s
  if name.1 == bytes "__DATA" && map.dataConst && isConst then (bytes "__DATA_CONST",name.2)
  else name

/-- The name of an input section of a final image, before any rename. -/
def builtinName (name : SectionName) (flags : UInt32) : SectionName :=
  if map.textExec && flags &&& sAttrPureInstructions != 0 then
    (bytes "__TEXT_EXEC",bytes "__text")
  else if !isStandardSection name flags then
    let isConst := [sNonLazySymbolPointers,sModInitFuncPointers,sModTermFuncPointers].contains
      (flags &&& sectionType)
    if name.1 == bytes "__DATA" && isConst && map.dataConst then (bytes "__DATA_CONST",name.2)
    else name
  else map.constName name

/-- `-merge_zero_fill_sections`. -/
def zeroFillName (name : SectionName) (flags : UInt32) : SectionName :=
  if map.mergeZeroFill && [sZerofill,sGbZerofill].contains (flags &&& sectionType) then
    (name.1,bytes "__zerofill")
  else name

/-- The name a symbol move gives a subsection, before the renames, and the
name its flags follow. -/
def movedName (m : Move) (name : SectionName) (flags : UInt32) :
    Option (SectionName × SectionName) :=
  let name := map.zeroFillName name flags
  let start := match m.option with
    | .rw | .ro => name
    | .dirty => map.builtinName name flags
  if m.option = .dirty ∧ start.1 ≠ bytes "__DATA" then none
  else some ((m.segment,start.2),start)

def renamedSection (args : Args) (name : SectionName) : SectionName :=
  let isRenamed := args.renameSections.any fun rename => rename.1 == name
  if named "__DATA" ["__interpose"] name && map.constInterpose && !isRenamed then
    (bytes "__DATA_CONST",name.2)
  else sectionRenamed args name

/-- A final image's section name after the renames. -/
def renamed (args : Args) (name : SectionName) : SectionName :=
  (renamedSegment args (map.renamedSection args name).1,(map.renamedSection args name).2)

end SectionMap

/-- The section a final link merges a section into. -/
def mergedName (name : SectionName) : Option SectionName :=
  if named "__TEXT" ["__StaticInit"] name then some (bytes "__TEXT",bytes "__text")
  else if named "__TEXT" ["__literal4","__literal8","__literal16"] name then
    some (bytes "__TEXT",bytes "__const")
  else none

/-- The output section an input section lands in, and the name its flags
follow; `none` for one the link consumes or drops. -/
def outputSectionFor (args : Args) (map : SectionMap) (name : SectionName) (flags : UInt32) :
    Option (SectionName × SectionName) :=
  if name.1 == bytes "__LLVM" then none
  else
    let name := map.zeroFillName name flags
    if map.relocatable then some (renamed args name,name)
    else if named "__DATA" ["__objc_clsrolist"] name then none
    else
      let name := map.builtinName name flags
      let out := map.renamed args name
      match mergedName name with
      | some merged => if out = name then some (renamed args merged,merged) else some (out,name)
      | none => some (out,name)

/-- Where an input section goes: its output section's name, the name its flags
follow, and the option of the symbol move that took it there. -/
structure Destination where
  name : SectionName
  flagsName : SectionName
  moved : Option MoveOption
  deriving DecidableEq

def destination (args : Args) (map : SectionMap) (hdr : MachSection) (m : Option Move) :
    Option Destination :=
  match m.bind fun m => (map.movedName m (hdr.segname,hdr.sectname) hdr.flags).map (m,·) with
  | some (m,moved,flagsName) => some ⟨renamed args moved,flagsName,some m.option⟩
  | none =>
    (outputSectionFor args map (hdr.segname,hdr.sectname) hdr.flags).map fun (name,flagsName) =>
      ⟨name,flagsName,none⟩

/-- The flags of a new output section, from those of its first member. `text`
is the name of the image's own `__text`. -/
def firstMemberFlags (args : Args) (hdr : MachSection) (text : SectionName) (out : SectionName)
    (flagsName : SectionName) : UInt32 :=
  if !args.relocatable && out = text then sAttrPureInstructions ||| sAttrSomeInstructions
  else if mergedName (hdr.segname,hdr.sectname) = some flagsName then sRegular
  else
    let input := inputSectionFlags (hdr.segname,hdr.sectname) hdr.flags
    let input :=
      if args.isKext && input &&& sectionType == sNonLazySymbolPointers then
        input &&& ~~~sectionType
      else input
    outputSectionFlags flagsName input args.relocatable

end MoldMacho.OutputSectionNames
