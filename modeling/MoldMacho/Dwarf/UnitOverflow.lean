import MoldMacho.Dwarf.UnitNumbers

/-!
# What overflows in reading a compile unit

Besides a number too long, what can overflow is the end of a section and the place of
an indexed string.
-/

set_option autoImplicit false

namespace MoldMacho.Dwarf
open Bytes

/-! ## Sections and strings -/

/-- A section's header does not lie: its end is a number of 64 bits. -/
def SectFits (sects : List SectHdr) (name : String) : Prop :=
  ∀ s, findSect sects name = some s → s.offset.toNat + s.size.toNat < 2^64

/-- The contents of a section, if the file has them. -/
def sectBytes (file : List UInt8) (sects : List SectHdr) (name : String) : Option (List UInt8) :=
  (findSect sects name).bind fun s => bytesAt file s.offset.toNat s.size.toNat

/-- The headers that are looked at, one after the other. -/
def SectsFit (file : List UInt8) (sects : List SectHdr) : Prop :=
  SectFits sects "__debug_info" ∧
  ((sectBytes file sects "__debug_info").isSome → SectFits sects "__debug_abbrev" ∧
    ((sectBytes file sects "__debug_abbrev").isSome → SectFits sects "__debug_str" ∧
      SectFits sects "__debug_line_str" ∧ SectFits sects "__debug_str_offs"))

/-- The place of an indexed string in the table is a number of 64 bits. -/
def IndexFits (base : Option ℕ) (v : Option Value) : Prop :=
  ∀ idx, v = some (.strx idx) → base.getD 8 + idx*4 + 4 < 2^64

/-- The unit's name and directory, if it has them, are at places that fit; the directory is
looked at only if there is a name. -/
def StringsFit (s : Sections) : Prop :=
  ∀ attrs, unitAttrs s.info s.abbrevSect = .ok attrs →
    IndexFits attrs.strOffsetsBase attrs.name ∧
    (∀ v name, attrs.name = some v → resolve s attrs.strOffsetsBase v = .ok name →
      IndexFits attrs.strOffsetsBase attrs.compDir)

theorem contents_fit {file : List UInt8} {sects : List SectHdr} {name : String}
    (h : SectFits sects name) :
    contents file sects name = orMissing (sectBytes file sects name) := by
  rw [contents, sectBytes]
  cases hfind : findSect sects name with
  | none => rfl
  | some s =>
    have hsum : checkedAdd s.offset.toNat s.size.toNat = .ok (s.offset.toNat + s.size.toNat) :=
      if_pos (h s hfind)
    simp [orMissing, hsum, bind, Except.bind]

theorem contents_overflow (file : List UInt8) (sects : List SectHdr) (name : String) :
    contents file sects name = .error .overflow ↔ ¬SectFits sects name := by
  constructor
  · intro h hfit
    rw [contents_fit hfit] at h
    cases hbytes : sectBytes file sects name with
    | none =>
      rw [hbytes] at h
      cases h
    | some bytes =>
      rw [hbytes] at h
      cases h
  · intro h
    obtain ⟨s,hs⟩ := not_forall.1 h
    obtain ⟨hfind,hsum⟩ := Classical.not_imp.1 hs
    rw [contents, hfind]
    have hbad : checkedAdd s.offset.toNat s.size.toNat = .error .overflow :=
      if_neg hsum
    simp [orMissing, hbad, bind, Except.bind]

theorem or_else_overflow {α : Type} {a : α} {x : Except Stop α} :
    orElse a x = .error .overflow ↔ x = .error .overflow := by
  rcases x with (_ | _) | x <;> simp [orElse]

theorem or_else_fit {file : List UInt8} {sects : List SectHdr} {name : String}
    (h : SectFits sects name) : ∃ bytes, orElse [] (contents file sects name) = .ok bytes := by
  rw [contents_fit h]
  cases sectBytes file sects name with
  | none => exact ⟨[],rfl⟩
  | some bytes => exact ⟨bytes,rfl⟩

/-- A section that may be missing overflows, or what follows it does. -/
theorem or_else_bind {file : List UInt8} {sects : List SectHdr} {name : String} {α : Type}
    {f : List UInt8 → Except Stop α} {p : Prop} (h : ∀ bytes, f bytes = .error .overflow ↔ ¬p) :
    (orElse [] (contents file sects name) >>= f) = .error .overflow ↔
      ¬(SectFits sects name ∧ p) := by
  by_cases hfit : SectFits sects name
  · obtain ⟨bytes,hbytes⟩ := @or_else_fit file _ _ hfit
    rw [ok_bind hbytes, h bytes, and_iff_right hfit]
  · rw [bind_overflow, or_else_overflow, contents_overflow]
    exact iff_of_true (Or.inl hfit) fun h => hfit h.1

theorem contents_bind {file : List UInt8} {sects : List SectHdr} {name : String} {α : Type}
    {f : List UInt8 → Except Stop α} {p : Prop} (h : ∀ bytes, f bytes = .error .overflow ↔ ¬p) :
    (contents file sects name >>= f) = .error .overflow ↔
      ¬(SectFits sects name ∧ ((sectBytes file sects name).isSome → p)) := by
  by_cases hfit : SectFits sects name
  · rw [contents_fit hfit, and_iff_right hfit]
    cases sectBytes file sects name with
    | none => exact iff_of_false nofun fun h => h nofun
    | some bytes =>
      refine (h bytes).trans (not_congr ?_)
      exact ⟨fun h _ => h,fun h => h rfl⟩
  · rw [bind_overflow, contents_overflow]
    exact iff_of_true (Or.inl hfit) fun h => hfit h.1

/-- Which sums of a section's start and size overflow. -/
theorem sections_overflow (file : List UInt8) (sects : List SectHdr) :
    sections file sects = .error .overflow ↔ ¬SectsFit file sects := by
  refine contents_bind fun info => contents_bind fun abbrevSect => or_else_bind fun str =>
    or_else_bind fun lineStr => ?_
  have hlast := @or_else_bind file sects "__debug_str_offs" _
    (fun strOffsets => (.ok ⟨info,abbrevSect,str,lineStr,strOffsets⟩ : Except Stop Sections)) True
    fun _ => iff_of_false nofun (not_not_intro trivial)
  rwa [and_true] at hlast

theorem index_fits_strx (base : Option ℕ) (idx : ℕ) :
    IndexFits base (some (.strx idx)) ↔ base.getD 8 + idx*4 + 4 < 2^64 := by
  constructor
  · intro h
    exact h idx rfl
  · intro h i hi
    cases hi
    exact h

theorem cstr_at_safe (data : List UInt8) (off : ℕ) : cstrAt data off ≠ .error .overflow := by
  intro h
  rcases bind_overflow.1 h with h | ⟨x,-,h⟩
  · rw [cstr] at h
    split at h
    · split at h <;> cases h
    · cases h
  · cases h

theorem or_missing_safe {α : Type} (x : Option α) : orMissing x ≠ .error .overflow := by
  cases x <;> exact nofun

theorem checked_add_ok {a b : ℕ} (h : a+b < 2^64) : checkedAdd a b = .ok (a+b) := if_pos h

theorem checked_add_overflow {a b : ℕ} (h : ¬a+b < 2^64) : checkedAdd a b = .error .overflow :=
  if_neg h

/-- The place of an indexed string, and its end, overflow unless the end fits. -/
theorem resolve_strx_overflow (s : Sections) (base : Option ℕ) (idx : ℕ) :
    resolve s base (.strx idx) = .error .overflow ↔ ¬base.getD 8 + idx*4 + 4 < 2^64 := by
  rw [resolve]
  by_cases hmul : idx*4 < 2^64
  · have hidx : checkedMul idx 4 = .ok (idx*4) := if_pos hmul
    rw [ok_bind hidx]
    by_cases hadd : base.getD 8 + idx*4 < 2^64
    · rw [ok_bind (checked_add_ok hadd)]
      by_cases hstop : base.getD 8 + idx*4 + 4 < 2^64
      · rw [ok_bind (checked_add_ok hstop), bind_overflow]
        refine iff_of_false ?_ (not_not_intro hstop)
        rintro (h | ⟨off,-,h⟩)
        · exact or_missing_safe _ h
        · exact cstr_at_safe _ _ h
      · rw [bind_overflow]
        exact iff_of_true (Or.inl (checked_add_overflow hstop)) hstop
    · rw [bind_overflow]
      exact iff_of_true (Or.inl (checked_add_overflow hadd)) (by omega)
  · rw [bind_overflow]
    exact iff_of_true (Or.inl (if_neg hmul)) (by omega)

/-- Which values' places overflow. -/
theorem resolve_overflow (s : Sections) (base : Option ℕ) (v : Value) :
    resolve s base v = .error .overflow ↔ ¬IndexFits base (some v) := by
  cases v with
  | strx idx => rw [resolve_strx_overflow, index_fits_strx]
  | inline bytes => exact iff_of_false nofun (not_not_intro nofun)
  | strp off => exact iff_of_false (cstr_at_safe _ _) (not_not_intro nofun)
  | lineStrp off => exact iff_of_false (cstr_at_safe _ _) (not_not_intro nofun)
  | other v => exact iff_of_false nofun (not_not_intro nofun)

/-- A string that an attribute may name overflows as its value does. -/
theorem attr_overflow (s : Sections) (base : Option ℕ) (v : Option Value) :
    (do resolve s base (← orMissing v)) = .error .overflow ↔ ¬IndexFits base v := by
  cases v with
  | none => exact iff_of_false nofun (not_not_intro nofun)
  | some v => exact resolve_overflow s base v

theorem bytes_within {file bytes : List UInt8} {sects : List SectHdr} {name : String}
    (h : sectBytes file sects name = some bytes) : bytes <:+: file := by
  obtain ⟨s,-,hbytes⟩ := Option.bind_eq_some_iff.1 h
  obtain ⟨-,rfl⟩ := bytes_at_some hbytes
  exact (List.take_prefix _ _).isInfix.trans (List.drop_suffix _ _).isInfix

/-- Once the attributes are read, what overflows is the place of a string. -/
theorem strings_overflow (s : Sections) (attrs : Attrs) :
    (do
      let name ← resolve s attrs.strOffsetsBase (← orMissing attrs.name)
      let compDir ← orElse [] (do resolve s attrs.strOffsetsBase (← orMissing attrs.compDir))
      return (compDir,name)) = .error .overflow ↔
    ¬(IndexFits attrs.strOffsetsBase attrs.name ∧
      ∀ v name, attrs.name = some v → resolve s attrs.strOffsetsBase v = .ok name →
        IndexFits attrs.strOffsetsBase attrs.compDir) := by
  cases hname : attrs.name with
  | none => exact iff_of_false nofun fun h => h ⟨nofun,nofun⟩
  | some v =>
    rw [ok_bind (show orMissing (some v) = .ok v from rfl), bind_overflow,
      resolve_overflow, not_and_or]
    refine or_congr Iff.rfl ⟨?_,?_⟩
    · rintro ⟨name,hok,h⟩ hfits
      rcases bind_overflow.1 h with h | ⟨dir,-,h⟩
      · rw [or_else_overflow, attr_overflow] at h
        exact h (hfits v name rfl hok)
      · cases h
    · intro h
      simp only [not_forall] at h
      obtain ⟨v',name,hv,hok,h⟩ := h
      cases hv
      refine ⟨name,hok,bind_overflow.2 (Or.inl ?_)⟩
      rw [or_else_overflow, attr_overflow]
      exact h

/-- What overflows is the end of a section that is looked at, a number of the unit and
the place of a string that the unit names by index. -/
theorem compile_unit_overflow (file : List UInt8) (sects : List SectHdr) :
    compileUnitName file sects = .error .overflow ↔
      ¬(SectsFit file sects ∧ ∀ s, sections file sects = .ok s → LebsFit s ∧ StringsFit s) := by
  rw [compileUnitName, bind_overflow, sections_overflow, not_and_or]
  refine or_congr Iff.rfl ?_
  constructor
  · rintro ⟨s,hs,h⟩ hfits
    obtain ⟨hlebs,hstrings⟩ := hfits s hs
    rcases bind_overflow.1 h with h | ⟨attrs,hattrs,h⟩
    · obtain ⟨l,hl,hlong⟩ := (unit_attrs_overflow _ _).1 h
      exact hlong (hlebs l hl)
    · exact (strings_overflow s attrs).1 h (hstrings attrs hattrs)
  · intro h
    simp only [not_forall] at h
    obtain ⟨s,hs,h⟩ := h
    refine ⟨s,hs,?_⟩
    by_cases hlebs : LebsFit s
    · simp only [hlebs, true_and, StringsFit, not_forall] at h
      obtain ⟨attrs,hattrs,h⟩ := h
      exact (ok_bind hattrs _).trans ((strings_overflow s attrs).2 h)
    · simp only [LebsFit, not_forall] at hlebs
      obtain ⟨l,hl,hlong⟩ := hlebs
      exact bind_overflow.2 (Or.inl ((unit_attrs_overflow _ _).2 ⟨l,hl,hlong⟩))

end MoldMacho.Dwarf
