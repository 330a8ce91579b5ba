import MoldMacho.Dwarf.UnitForms
import MoldMacho.Dwarf.UnitOverflow

/-!
# Compile units and their names

A unit as DWARF lays it out, its abbreviation among others of a table and its strings
in any of the string sections. Its name and directory are read unless a form has
another size than the code takes it to have.
-/

set_option autoImplicit false

namespace MoldMacho.Dwarf
open Bytes Leb128
open MoldMacho.OutputSectionNames (nameField)

/-! ## Abbreviations -/

/-- The bytes of an attribute's specification; the value of a constant is with it. -/
inductive SpecBytes : Spec → List UInt8 → Prop
  | plain {attr form : ℕ} {a f : List UInt8} (ha : Leb a attr) (hf : Leb f form)
    (hend : ¬(attr = 0 ∧ form = 0)) (hform : form ≠ dwFormImplicitConst) :
    SpecBytes ⟨attr,form,0⟩ (a ++ f)
  | const {attr : ℕ} {n : ℤ} {a f c : List UInt8} (ha : Leb a attr)
    (hf : Leb f dwFormImplicitConst) (hn : decodeSleb c = some (n,[]))
    (hlow : -2^63 ≤ n) (hhigh : n < 2^63) :
    SpecBytes ⟨attr,dwFormImplicitConst,n⟩ (a ++ (f ++ c))

/-- Specifications up to two zeros. -/
inductive SpecsBytes : List Spec → List UInt8 → Prop
  | done {a f : List UInt8} (ha : Leb a 0) (hf : Leb f 0) : SpecsBytes [] (a ++ f)
  | more {spec : Spec} {specs : List Spec} {b bs : List UInt8} (h : SpecBytes spec b)
    (hrest : SpecsBytes specs bs) : SpecsBytes (spec::specs) (b ++ bs)

/-- An abbreviation. -/
structure Decl where
  code : ℕ
  tag : ℕ
  children : UInt8
  specs : List Spec

/-- An abbreviation's bytes: its number, tag and flag, and its specifications. -/
def DeclBytes (d : Decl) (lead specs : List UInt8) : Prop :=
  d.code ≠ 0 ∧ (∃ c t, Leb c d.code ∧ Leb t d.tag ∧ lead = c ++ (t ++ [d.children])) ∧
    SpecsBytes d.specs specs

/-- A table in which an abbreviation is the first of its number. -/
inductive InTable (d : Decl) : List UInt8 → Prop
  | here {lead specs rest : List UInt8} (h : DeclBytes d lead specs) :
    InTable d (lead ++ (specs ++ rest))
  | later {other : Decl} {lead specs rest : List UInt8} (h : DeclBytes other lead specs)
    (hne : other.code ≠ d.code) (hrest : InTable d rest) : InTable d (lead ++ (specs ++ rest))

theorem SpecBytes.reads {spec : Spec} {bytes : List UInt8} (h : SpecBytes spec bytes) :
    Reads readSpec bytes (some spec) := by
  cases h with
  | plain ha hf hend hform =>
    refine ha.reads.bind (hf.reads.last ?_)
    rw [if_neg hend, if_neg hform]
  | @const attr n _ _ _ ha hf hn hlow hhigh =>
    refine ha.reads.bind (hf.reads.bind ?_)
    rw [if_neg (fun h => absurd h.2 (by decide)), if_pos rfl]
    have hval : (BitVec.ofInt 64 n).toInt = n := by
      rw [BitVec.toInt_ofInt, Int.bmod_eq_of_le (by omega) (by omega)]
    have hread := (sleb_reads hn).map fun n => some (⟨attr,dwFormImplicitConst,n⟩ : Spec)
    rwa [hval] at hread

theorem specs_end_reads {a f : List UInt8} (ha : Leb a 0) (hf : Leb f 0) :
    Reads readSpec (a ++ f) none := ha.reads.bind (hf.reads.last rfl)

theorem SpecsBytes.skips {specs : List Spec} {bytes : List UInt8} (h : SpecsBytes specs bytes) :
    Reads skipSpecs bytes () := by
  induction h with
  | done ha hf =>
    rw [skip_specs_eq]
    exact (specs_end_reads ha hf).last rfl
  | more h _ ih =>
    rw [skip_specs_eq]
    exact h.reads.bind ih

theorem decl_reads {d : Decl} {lead specs : List UInt8} (h : DeclBytes d lead specs) :
    Reads readDecl lead (d.code,d.tag) := by
  obtain ⟨hcode,⟨c,t,hc,ht,rfl⟩,-⟩ := h
  refine hc.reads.bind ?_
  rw [if_neg hcode]
  exact ht.reads.bind ((u8_reads d.children).map fun _ => (d.code,d.tag))

/-- The abbreviation of a number is found, with its specifications ahead. -/
theorem find_abbrev {d : Decl} {table : List UInt8} (h : InTable d table) {r : Reader}
    (hr : r.At table) (hsafe : findAbbrev d.code r ≠ .error .overflow) :
    ∃ r' specs rest, findAbbrev d.code r = .ok (d.tag,r') ∧ SpecsBytes d.specs specs ∧
      r'.At (specs ++ rest) := by
  induction h generalizing r with
  | @here lead specs rest h =>
    rw [find_abbrev_eq] at hsafe ⊢
    obtain ⟨r',hread,hat⟩ := decl_reads h r (specs ++ rest) hr (bind_safe hsafe)
    refine ⟨r',specs,rest,?_,h.2.2,hat⟩
    rw [bind_of_ok _ hread]
    dsimp only
    rw [if_pos rfl]
    rfl
  | @later other lead specs rest h hne _ ih =>
    rw [find_abbrev_eq] at hsafe ⊢
    obtain ⟨r₁,hread,hat⟩ := decl_reads h r (specs ++ rest) hr (bind_safe hsafe)
    rw [bind_of_ok _ hread] at hsafe ⊢
    dsimp only at hsafe ⊢
    rw [if_neg hne] at hsafe ⊢
    obtain ⟨r₂,hskip,hat₂⟩ := h.2.2.skips r₁ rest hat (bind_safe hsafe)
    rw [bind_of_ok _ hskip] at hsafe ⊢
    exact ih hat₂ hsafe

/-! ## Attributes -/

/-- An attribute of a unit: its specification, the form that its bytes are of, and its
value. -/
structure Attribute where
  spec : Spec
  actual : ℕ
  value : Value

/-- The bytes of attributes, by the sizes of an address and of a reference. -/
inductive AttrsBytes (addr ref : ℕ) : List Attribute → List UInt8 → Prop
  | none : AttrsBytes addr ref [] []
  | more {a : Attribute} {attrs : List Attribute} {lead bytes rest : List UInt8}
    (hnames : Names a.spec.form lead a.actual)
    (h : Direct addr ref a.spec.implicit a.actual bytes a.value)
    (hrest : AttrsBytes addr ref attrs rest) :
    AttrsBytes addr ref (a::attrs) ((lead ++ bytes) ++ rest)

def collect (attrs : List Attribute) (init : Attrs) : Attrs :=
  attrs.foldl (fun acc a => acc.set a.spec.attr a.value) init

theorem read_spec_safe {addr : ℕ} {specs r : Reader} {attrs : Attrs}
    (h : readAttrs addr specs r attrs ≠ .error .overflow) :
    readSpec specs ≠ .error .overflow := by
  intro hbad
  rw [read_attrs_eq, hbad] at h
  exact h rfl

theorem attrs_read {addr ref : ℕ} {attrs : List Attribute} {bytes : List UInt8}
    (h : AttrsBytes addr ref attrs bytes) (hsizes : ∀ a ∈ attrs, SizesRead addr ref a.actual)
    {specs tail : List UInt8} (hspecs : SpecsBytes (attrs.map (·.spec)) specs) {rs r : Reader}
    {rest : List UInt8} (hrs : rs.At (specs ++ tail)) (hr : r.At (bytes ++ rest)) (init : Attrs)
    (hsafe : readAttrs addr rs r init ≠ .error .overflow) :
    readAttrs addr rs r init = .ok (collect attrs init) := by
  induction h generalizing specs rs r init with
  | none =>
    cases hspecs with
    | done ha hf =>
      obtain ⟨rs',hread,-⟩ := specs_end_reads ha hf rs tail hrs (read_spec_safe hsafe)
      rw [read_attrs_eq, hread]
      rfl
  | @more a attrs lead bytes more hnames h _ ih =>
    cases hspecs with
    | @more _ _ b bs hspec hmore =>
      rw [List.append_assoc] at hrs hr
      obtain ⟨rs',hread,hrs'⟩ := hspec.reads rs _ hrs (read_spec_safe hsafe)
      rw [read_attrs_eq, hread] at hsafe ⊢
      dsimp only at hsafe ⊢
      have hform : readForm addr a.spec.implicit a.spec.form r ≠ .error .overflow := by
        intro hbad
        rw [hbad] at hsafe
        exact hsafe rfl
      obtain ⟨r',hval,hr'⟩ := form_reads hnames h (hsizes a List.mem_cons_self) r _ hr hform
      rw [hval] at hsafe ⊢
      exact ih (fun a ha => hsizes a (List.mem_cons_of_mem _ ha)) hmore hrs' hr' _ hsafe

/-- The last of the attributes that give a value. -/
def lastOf {β : Type} (f : Attribute → Option β) (attrs : List Attribute) : Option β :=
  (attrs.filterMap f).getLast?

def nameOf (attr : ℕ) (a : Attribute) : Option Value :=
  if a.spec.attr = attr then some a.value else none

def baseOf (a : Attribute) : Option ℕ :=
  if a.spec.attr = dwAtStrOffsetsBase then
    match a.value with
    | .other v => some v
    | _ => none
  else none

theorem collect_field {β : Type} {field : Attrs → Option β} {f : Attribute → Option β}
    (hset : ∀ acc a, field (acc.set a.spec.attr a.value) = (f a).or (field acc))
    (attrs : List Attribute) (init : Attrs) :
    field (collect attrs init) = (lastOf f attrs).or (field init) := by
  induction attrs generalizing init with
  | nil => rfl
  | cons a attrs ih =>
    have hstep := ih (init.set a.spec.attr a.value)
    rw [collect] at hstep
    rw [collect, List.foldl_cons, hstep, hset, lastOf, lastOf, List.filterMap_cons]
    cases f a with
    | none => rfl
    | some b =>
      dsimp only
      rw [List.getLast?_cons, ← Option.or_assoc, Option.or_some]

theorem set_name (acc : Attrs) (a : Attribute) :
    (acc.set a.spec.attr a.value).name = (nameOf dwAtName a).or acc.name := by
  unfold Attrs.set nameOf
  by_cases hname : a.spec.attr = dwAtName
  · rw [if_pos hname, if_pos hname, Option.some_or]
  · rw [if_neg hname, if_neg hname, Option.none_or]
    split_ifs
    · rfl
    · cases a.value <;> rfl
    · rfl

theorem set_comp_dir (acc : Attrs) (a : Attribute) :
    (acc.set a.spec.attr a.value).compDir = (nameOf dwAtCompDir a).or acc.compDir := by
  unfold Attrs.set nameOf
  by_cases hname : a.spec.attr = dwAtName
  · rw [if_pos hname, hname]
    rfl
  · rw [if_neg hname]
    by_cases hdir : a.spec.attr = dwAtCompDir
    · rw [if_pos hdir, if_pos hdir, Option.some_or]
    · rw [if_neg hdir, if_neg hdir, Option.none_or]
      split_ifs
      · cases a.value <;> rfl
      · rfl

theorem set_base (acc : Attrs) (a : Attribute) :
    (acc.set a.spec.attr a.value).strOffsetsBase = (baseOf a).or acc.strOffsetsBase := by
  unfold Attrs.set baseOf
  by_cases hname : a.spec.attr = dwAtName
  · rw [if_pos hname, hname]
    rfl
  · rw [if_neg hname]
    by_cases hdir : a.spec.attr = dwAtCompDir
    · rw [if_pos hdir, hdir]
      rfl
    · rw [if_neg hdir]
      by_cases hbase : a.spec.attr = dwAtStrOffsetsBase
      · rw [if_pos hbase, if_pos hbase]
        cases a.value <;> rfl
      · rw [if_neg hbase, if_neg hbase, Option.none_or]

/-- The last attribute of each name counts. -/
theorem collect_eq (attrs : List Attribute) :
    collect attrs {} =
      ⟨lastOf (nameOf dwAtName) attrs,lastOf (nameOf dwAtCompDir) attrs,lastOf baseOf attrs⟩ := by
  have hname := collect_field set_name attrs {}
  have hdir := collect_field set_comp_dir attrs {}
  have hbase := collect_field set_base attrs {}
  rw [Option.or_none] at hname hdir hbase
  rw [← hname, ← hdir, ← hbase]

/-! ## Units -/

/-- The first compile unit of some sections, of 32-bit DWARF. -/
structure CompileUnit where
  version : ℕ
  hversion : 2 ≤ version ∧ version ≤ 5
  addrSize : UInt8
  abbrevOff : UInt32
  code : ℕ
  children : UInt8
  attrs : List Attribute

namespace CompileUnit

/-- A reference into another unit is an address in DWARF 2. -/
def refSize (u : CompileUnit) : ℕ := if u.version = 2 then u.addrSize.toNat else 4

def decl (u : CompileUnit) : Decl := ⟨u.code,dwTagCompileUnit,u.children,u.attrs.map (·.spec)⟩

/-- A header of some length, whose fields are in another order from DWARF 5 on. -/
def HeaderBytes (u : CompileUnit) (bytes : List UInt8) : Prop :=
  ∃ len, len.length = 4 ∧ ofLe len ≠ 0xffffffff ∧
    bytes = len ++ (toLe 2 u.version ++
      if u.version = 5 then [1] ++ ([u.addrSize] ++ toLe 4 u.abbrevOff.toNat)
      else toLe 4 u.abbrevOff.toNat ++ [u.addrSize])

/-- The unit is the first of `info`, and its abbreviation is in the table that it names. -/
def FirstIn (u : CompileUnit) (info abbrevSect : List UInt8) : Prop :=
  (∃ header code bytes rest, u.HeaderBytes header ∧ Leb code u.code ∧
    AttrsBytes u.addrSize.toNat u.refSize u.attrs bytes ∧
    info = header ++ (code ++ (bytes ++ rest))) ∧
  u.abbrevOff.toNat ≤ abbrevSect.length ∧ InTable u.decl (abbrevSect.drop u.abbrevOff.toNat)

theorem header_reads {u : CompileUnit} {bytes : List UInt8} (h : u.HeaderBytes bytes) :
    Reads readHeader bytes (u.abbrevOff.toNat,u.addrSize.toNat) := by
  obtain ⟨len,hlen,hmax,rfl⟩ := h
  obtain ⟨hlow,hhigh⟩ := u.hversion
  have hword (n v : ℕ) (hv : v < 256^n) : Reads (word n) (toLe n v) v := by
    have hread := word_reads_length (to_le_length n v)
    rwa [of_to_le, Nat.mod_eq_of_lt hv] at hread
  have hversion := hword 2 u.version (by omega)
  have hoff := hword 4 u.abbrevOff.toNat u.abbrevOff.toNat_lt
  refine (word_reads_length hlen).bind ?_
  rw [if_neg hmax]
  refine hversion.bind ?_
  by_cases h5 : u.version = 5
  · rw [if_pos (by omega), if_pos h5]
    exact (u8_reads 1).bind ((u8_reads u.addrSize).bind (hoff.map fun off => (off,_)))
  · rw [if_neg (by omega), if_neg h5]
    exact hoff.bind ((u8_reads u.addrSize).map fun b => (_,b.toNat))

/-- The unit's attributes are read, where the code's sizes are its own. -/
theorem unit_attrs {u : CompileUnit} {info abbrevSect : List UInt8}
    (h : u.FirstIn info abbrevSect) (hsafe : unitAttrs info abbrevSect ≠ .error .overflow)
    (hsizes : ∀ a ∈ u.attrs, SizesRead u.addrSize.toNat u.refSize a.actual) :
    unitAttrs info abbrevSect = .ok (collect u.attrs {}) := by
  obtain ⟨⟨header,code,bytes,rest,hheader,hcode,hattrs,rfl⟩,hoff,htable⟩ := h
  obtain ⟨r,hread,hr⟩ := header_reads hheader { data := _ } _ ⟨Nat.zero_le _,rfl⟩
    (read_header_safe _)
  rw [unitAttrs, ok_bind hread] at hsafe ⊢
  dsimp only at hsafe ⊢
  rw [if_neg (Nat.not_lt.2 hoff)] at hsafe ⊢
  obtain ⟨r₁,hread₁,hr₁⟩ := hcode.reads r _ hr fun hbad => hsafe (bind_overflow.2 (Or.inl hbad))
  rw [ok_bind hread₁] at hsafe ⊢
  dsimp only at hsafe ⊢
  obtain ⟨rs,specs,more,hfind,hspecs,hrs⟩ :=
    find_abbrev htable (r := { data := abbrevSect.drop u.abbrevOff.toNat })
      ⟨Nat.zero_le _,rfl⟩ fun hbad => hsafe (bind_overflow.2 (Or.inl hbad))
  have htag : ¬u.decl.tag ≠ dwTagCompileUnit := not_not_intro rfl
  have hstep := (ok_bind hfind fun p => if p.1 ≠ dwTagCompileUnit then .error .missing
    else readAttrs u.addrSize.toNat p.2 r₁ {}).trans (if_neg htag)
  exact hstep.trans (attrs_read hattrs hsizes hspecs hrs hr₁ {}
    fun hbad => hsafe (hstep.trans hbad))

end CompileUnit

/-! ## Strings -/

/-- A string of a section, up to a null. -/
def StringAt (data : List UInt8) (off : ℕ) (s : List UInt8) : Prop :=
  0 ∉ s ∧ ∃ rest, data.drop off = s ++ 0::rest

/-- The string that a value names; an index is into a table that starts at `base`. -/
inductive HasString (s : Sections) (base : ℕ) : Value → List UInt8 → Prop
  | inline {bytes : List UInt8} : HasString s base (.inline bytes) bytes
  | strp {off : ℕ} {bytes : List UInt8} (h : StringAt s.str off bytes) :
    HasString s base (.strp off) bytes
  | lineStrp {off : ℕ} {bytes : List UInt8} (h : StringAt s.lineStr off bytes) :
    HasString s base (.lineStrp off) bytes
  | strx {idx off : ℕ} {bytes : List UInt8} (hoff : readLe 4 s.strOffsets (base + 4*idx) = some off)
    (h : StringAt s.str off bytes) : HasString s base (.strx idx) bytes

theorem cstr_at {data s : List UInt8} {off : ℕ} (h : StringAt data off s) :
    cstrAt data off = .ok s := by
  obtain ⟨hnull,rest,hrest⟩ := h
  have hlen := congrArg List.length hrest
  simp only [List.length_drop, List.length_append, List.length_cons] at hlen
  have hat : Reader.At { data := data, pos := off } (s ++ 0::rest) :=
    ⟨show off ≤ data.length by omega,hrest⟩
  exact ok_bind (cstr_ok hnull hat) _

theorem resolve_string {s : Sections} {base : Option ℕ} {v : Value} {bytes : List UInt8}
    (h : HasString s (base.getD 8) v bytes) (hfits : IndexFits base (some v)) :
    resolve s base v = .ok bytes := by
  cases h with
  | inline => rfl
  | strp h => exact cstr_at h
  | lineStrp h => exact cstr_at h
  | @strx idx off _ hoff h =>
    have hidx := hfits idx rfl
    have hmul : checkedMul idx 4 = .ok (idx*4) := if_pos (by omega)
    rw [resolve, ok_bind hmul, ok_bind (checked_add_ok (by omega)),
      ok_bind (checked_add_ok hidx), Nat.add_sub_cancel_left, Nat.mul_comm idx, hoff]
    exact cstr_at h

/-- The unit's name and directory, which is empty if no attribute gives it. -/
def CompileUnit.Named (u : CompileUnit) (s : Sections) (name dir : List UInt8) : Prop :=
  (∃ v, lastOf (nameOf dwAtName) u.attrs = some v ∧
    HasString s ((lastOf baseOf u.attrs).getD 8) v name) ∧
  match lastOf (nameOf dwAtCompDir) u.attrs with
  | none => dir = []
  | some v => HasString s ((lastOf baseOf u.attrs).getD 8) v dir

/-- A section of strings: that of the name, or nothing if there is none. -/
def StringSect (file : List UInt8) (sects : List SectHdr) (name : String)
    (bytes : List UInt8) : Prop :=
  sectBytes file sects name = some bytes ∨ findSect sects name = none ∧ bytes = []

/-- The DWARF sections of a file. -/
structure SectionsOf (file : List UInt8) (sects : List SectHdr) (s : Sections) : Prop where
  info : sectBytes file sects "__debug_info" = some s.info
  abbrevSect : sectBytes file sects "__debug_abbrev" = some s.abbrevSect
  str : StringSect file sects "__debug_str" s.str
  lineStr : StringSect file sects "__debug_line_str" s.lineStr
  strOffsets : StringSect file sects "__debug_str_offs" s.strOffsets

theorem contents_of {file bytes : List UInt8} {sects : List SectHdr} {name : String}
    (hfile : file.length < 2^64) (h : sectBytes file sects name = some bytes) :
    contents file sects name = .ok bytes := by
  have hfit : SectFits sects name := by
    intro s hs
    rw [sectBytes, hs, Option.bind_some] at h
    exact (bytes_at_some h).1.trans_lt hfile
  rw [contents_fit hfit, h]
  rfl

theorem string_sect {file bytes : List UInt8} {sects : List SectHdr} {name : String}
    (hfile : file.length < 2^64) (h : StringSect file sects name bytes) :
    orElse [] (contents file sects name) = .ok bytes ∧ bytes <:+: file := by
  rcases h with h | ⟨h,rfl⟩
  · rw [contents_of hfile h]
    exact ⟨rfl,bytes_within h⟩
  · rw [contents, h]
    exact ⟨rfl,List.nil_infix⟩

theorem sections_of {file : List UInt8} {sects : List SectHdr} {s : Sections}
    (hfile : file.length < 2^64) (h : SectionsOf file sects s) :
    sections file sects = .ok s := by
  rw [sections, ok_bind (contents_of hfile h.info), ok_bind (contents_of hfile h.abbrevSect),
    ok_bind (string_sect hfile h.str).1, ok_bind (string_sect hfile h.lineStr).1,
    ok_bind (string_sect hfile h.strOffsets).1]
  rfl

/-- An index that names a string is of a place in the table. -/
theorem has_string_fits {s : Sections} {base : Option ℕ} {v : Value} {bytes : List UInt8}
    (h : HasString s (base.getD 8) v bytes) (hlen : s.strOffsets.length < 2^64) :
    IndexFits base (some v) := by
  intro idx hidx
  cases hidx
  cases h with
  | strx hoff =>
    obtain ⟨b,hb,-⟩ := Option.map_eq_some_iff.1 hoff
    have hle := (bytes_at_some hb).1
    omega

/-- A compile unit's name and directory are those that it names, in whatever form, where
the code's sizes of addresses and references are its own. -/
theorem unit_named {file name dir : List UInt8} {sects : List SectHdr} {s : Sections}
    {u : CompileUnit} (hfile : file.length < 2^64) (hs : SectionsOf file sects s)
    (hu : u.FirstIn s.info s.abbrevSect) (hnamed : u.Named s name dir) (hlebs : LebsFit s)
    (hsizes : ∀ a ∈ u.attrs, SizesRead u.addrSize.toNat u.refSize a.actual) :
    compileUnitName file sects = .ok (dir,name) := by
  have hsafe : unitAttrs s.info s.abbrevSect ≠ .error .overflow := by
    rw [ne_eq, unit_attrs_overflow]
    rintro ⟨l,hl,hlong⟩
    exact hlong (hlebs l hl)
  have hattrs := u.unit_attrs hu hsafe hsizes
  have hlen : s.strOffsets.length < 2^64 :=
    (string_sect hfile hs.strOffsets).2.length_le.trans_lt hfile
  obtain ⟨⟨v,hv,hname⟩,hdir⟩ := hnamed
  have hread := resolve_string hname (has_string_fits hname hlen)
  rw [compileUnitName, ok_bind (sections_of hfile hs), ok_bind hattrs, collect_eq, hv]
  refine (ok_bind hread _).trans ?_
  cases hlast : lastOf (nameOf dwAtCompDir) u.attrs with
  | none =>
    rw [hlast] at hdir
    subst hdir
    rfl
  | some w =>
    rw [hlast] at hdir
    have hresolve := resolve_string hdir (has_string_fits hdir hlen)
    have hor : orElse [] (do resolve s (lastOf baseOf u.attrs) (← orMissing (some w))) = .ok dir :=
      congrArg (orElse []) hresolve
    exact ok_bind hor _

/-- Nothing overflows just if the sections that are looked at end at a number of 64 bits,
no number that is read for the unit is too long, and the places of the strings that the
unit names by index are numbers of 64 bits. The first unit's name and directory are those
that it names, but for addresses that are not of four or eight bytes and references that
are not of four. -/
theorem compile_unit_names {file : List UInt8} (sects : List SectHdr) (hfile : file.length < 2^64) :
    (compileUnitName file sects ≠ .error .overflow ↔
      SectsFit file sects ∧ ∀ s, sections file sects = .ok s → LebsFit s ∧ StringsFit s) ∧
    ∀ (s : Sections) (u : CompileUnit) (name dir : List UInt8), SectionsOf file sects s →
      u.FirstIn s.info s.abbrevSect → u.Named s name dir → LebsFit s →
      (∀ a ∈ u.attrs, SizesRead u.addrSize.toNat u.refSize a.actual) →
      compileUnitName file sects = .ok (dir,name) := by
  constructor
  · rw [ne_eq, compile_unit_overflow, not_not]
  · intro s u name dir hs hu hnamed hlebs hsizes
    exact unit_named hfile hs hu hnamed hlebs hsizes

/-- A unit of a name only, after its header and before its abbreviations. -/
theorem compile_unit_names_inline :
    compileUnitName
      [0x0a,0,0,0, 4,0, 0,0,0,0, 8, 1, 0x61,0, 1,0x11,0,3,8,0,0,0]
      [{ rawSectname := nameField (Chunks.bytes "__debug_info")
         rawSegname := nameField (Chunks.bytes "__DWARF"), offset := 0, size := 14 },
       { rawSectname := nameField (Chunks.bytes "__debug_abbrev")
         rawSegname := nameField (Chunks.bytes "__DWARF"), offset := 14, size := 8 }] = .ok ([],[0x61]) := by
  let u : CompileUnit :=
    { version := 4, hversion := by decide, addrSize := 8, abbrevOff := 0, code := 1, children := 0
      attrs := [{ spec := ⟨dwAtName,dwFormString,0⟩, actual := dwFormString
                  value := .inline [0x61] }] }
  refine (compile_unit_names _ (by decide)).2
    ⟨[0x0a,0,0,0, 4,0, 0,0,0,0, 8, 1, 0x61,0],[1,0x11,0,3,8,0,0,0],[],[],[]⟩ u [0x61] []
    ⟨by decide +kernel,by decide +kernel,Or.inr ⟨by decide +kernel,rfl⟩,
      Or.inr ⟨by decide +kernel,rfl⟩,Or.inr ⟨by decide +kernel,rfl⟩⟩ ?_ ?_
    (lebs_fit_short (by decide) (by decide)) ?_
  · have hform : Names dwFormString [] dwFormString := .itself (by decide)
    have hvalue : Direct 8 4 0 dwFormString ([0x61] ++ [0]) (.inline [0x61]) :=
      .string (by decide)
    have hattrs : AttrsBytes 8 4 u.attrs ([] ++ ([0x61] ++ [0]) ++ []) :=
      .more hform hvalue .none
    have hdecl : DeclBytes u.decl [1,0x11,0] [3,8,0,0] :=
      ⟨by decide,⟨[1],[0x11],⟨rfl,by decide⟩,⟨rfl,by decide⟩,rfl⟩,
        .more (.plain (a := [3]) (f := [8]) ⟨rfl,by decide⟩ ⟨rfl,by decide⟩ (by decide)
          (by decide)) (.done (a := [0]) (f := [0]) ⟨rfl,by decide⟩ ⟨rfl,by decide⟩)⟩
    have htable : InTable u.decl ([1,0x11,0] ++ ([3,8,0,0] ++ [0])) := .here hdecl
    exact ⟨⟨_,[1],_,[],⟨[0x0a,0,0,0],rfl,by decide,rfl⟩,⟨rfl,by decide⟩,hattrs,
      by decide +kernel⟩,Nat.zero_le _,htable⟩
  · exact ⟨⟨_,rfl,.inline⟩,rfl⟩
  · intro a ha
    cases List.mem_singleton.1 ha
    exact ⟨fun h => absurd h (by decide),fun h => absurd h (by decide)⟩

/-- The end of a section overflows, of a file that is empty. -/
theorem section_end_overflows :
    compileUnitName [] [{ rawSectname := nameField (Chunks.bytes "__debug_info")
                          rawSegname := nameField (Chunks.bytes "__DWARF")
                          offset := 1, size := 0xffffffffffffffff }] = .error .overflow := by
  decide +kernel

end MoldMacho.Dwarf
