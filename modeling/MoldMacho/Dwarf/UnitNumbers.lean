import MoldMacho.Dwarf.CompileUnit

/-!
# The numbers of a compile unit

Where the numbers start that are read on the way to a unit's attributes: in the
abbreviations up to the unit's and in the unit itself. Reading the attributes
overflows just if one of these is too long.
-/

set_option autoImplicit false

namespace MoldMacho.Dwarf
open Bytes

/-- The forms whose values start with a number. -/
def lebForms : List ℕ :=
  [dwFormBlock,dwFormExprloc,dwFormSdata,dwFormUdata,dwFormRefUdata,dwFormAddrx,dwFormLoclistx,
   dwFormRnglistx,dwFormStrx]

/-- A number that is read with an attribute's value. -/
inductive FormLeb : ℕ → Reader → List UInt8 → Prop
  | value {form : ℕ} {r : Reader} (h : form ∈ lebForms) : FormLeb form r r.rest
  | lead {r : Reader} : FormLeb dwFormIndirect r r.rest
  | actual {actual : ℕ} {r next : Reader} {l : List UInt8} (h : uleb r = .ok (actual,next))
    (hl : FormLeb actual next l) : FormLeb dwFormIndirect r l

/-- A number of an attribute's specification. -/
inductive SpecLeb : Reader → List UInt8 → Prop
  | attr {r : Reader} : SpecLeb r r.rest
  | form {attr : ℕ} {r next : Reader} (h : uleb r = .ok (attr,next)) : SpecLeb r next.rest
  | const {attr : ℕ} {r mid next : Reader} (h : uleb r = .ok (attr,mid))
    (hform : uleb mid = .ok (dwFormImplicitConst,next)) : SpecLeb r next.rest

/-- A number of the specifications that are skipped. -/
inductive SkipLeb : Reader → List UInt8 → Prop
  | spec {r : Reader} {l : List UInt8} (hl : SpecLeb r l) : SkipLeb r l
  | more {spec : Spec} {r next : Reader} {l : List UInt8} (h : readSpec r = .ok (some spec,next))
    (hl : SkipLeb next l) : SkipLeb r l

/-- A number of an abbreviation ahead of its specifications. -/
inductive DeclLeb : Reader → List UInt8 → Prop
  | code {r : Reader} : DeclLeb r r.rest
  | tag {c : ℕ} {r next : Reader} (h : uleb r = .ok (c,next)) (hc : c ≠ 0) : DeclLeb r next.rest

/-- A number of a table up to the specifications of the abbreviation `code`. -/
inductive AbbrevLeb (code : ℕ) : Reader → List UInt8 → Prop
  | decl {r : Reader} {l : List UInt8} (hl : DeclLeb r l) : AbbrevLeb code r l
  | skip {c tag : ℕ} {r next : Reader} {l : List UInt8} (h : readDecl r = .ok ((c,tag),next))
    (hc : c ≠ code) (hl : SkipLeb next l) : AbbrevLeb code r l
  | more {c tag : ℕ} {r mid next : Reader} {l : List UInt8} (h : readDecl r = .ok ((c,tag),mid))
    (hc : c ≠ code) (hskip : skipSpecs mid = .ok ((),next)) (hl : AbbrevLeb code next l) :
    AbbrevLeb code r l

/-- A number of a unit's attributes or of their specifications. -/
inductive AttrsLeb (addrSize : ℕ) : Reader → Reader → List UInt8 → Prop
  | spec {specs r : Reader} {l : List UInt8} (hl : SpecLeb specs l) : AttrsLeb addrSize specs r l
  | form {spec : Spec} {specs next r : Reader} {l : List UInt8}
    (h : readSpec specs = .ok (some spec,next)) (hl : FormLeb spec.form r l) :
    AttrsLeb addrSize specs r l
  | more {spec : Spec} {specs next r r' : Reader} {val : Value} {l : List UInt8}
    (h : readSpec specs = .ok (some spec,next))
    (hform : readForm addrSize spec.implicit spec.form r = .ok (val,r'))
    (hl : AttrsLeb addrSize next r' l) : AttrsLeb addrSize specs r l

/-- A number that is read for the attributes of the first unit of `info`. -/
inductive UnitLeb (info abbrevSect : List UInt8) : List UInt8 → Prop
  | code {abbrevOff addrSize : ℕ} {r : Reader}
    (h : readHeader { data := info } = .ok ((abbrevOff,addrSize),r))
    (hoff : abbrevOff ≤ abbrevSect.length) : UnitLeb info abbrevSect r.rest
  | table {abbrevOff addrSize code : ℕ} {r next : Reader} {l : List UInt8}
    (h : readHeader { data := info } = .ok ((abbrevOff,addrSize),r))
    (hoff : abbrevOff ≤ abbrevSect.length) (hcode : uleb r = .ok (code,next))
    (hl : AbbrevLeb code { data := abbrevSect.drop abbrevOff } l) : UnitLeb info abbrevSect l
  | attrs {abbrevOff addrSize code : ℕ} {r next specs : Reader} {l : List UInt8}
    (h : readHeader { data := info } = .ok ((abbrevOff,addrSize),r))
    (hoff : abbrevOff ≤ abbrevSect.length) (hcode : uleb r = .ok (code,next))
    (hfind : findAbbrev code { data := abbrevSect.drop abbrevOff } =
      .ok (dwTagCompileUnit,specs))
    (hl : AttrsLeb addrSize specs next l) : UnitLeb info abbrevSect l

/-- Every number that is read for the unit's attributes fits. -/
def LebsFit (s : Sections) : Prop := ∀ l, UnitLeb s.info s.abbrevSect l → LebFits l

/-! ## Attributes -/

theorem read_direct_safe (addrSize : ℕ) (implicit : ℤ) {form : ℕ} (h : form ∉ lebForms) :
    Safe (readDirect addrSize implicit form) := by
  have haddr : Safe (do return Value.other (← if addrSize = 4 then u32 else u64)) :=
    .ite (fun _ => (word_safe 4).map _) ((word_safe 8).map _)
  have hbyte (f : UInt8 → Value) : Safe (do return f (← u8)) := u8_safe.map f
  have hword (n : ℕ) (f : ℕ → Value) : Safe (do return f (← word n)) := (word_safe n).map f
  have hskip (n : ℕ) : Safe (do skip n; return Value.other 0) :=
    (skip_safe n).map fun _ => Value.other 0
  have hblock (n : ℕ) : Safe (do skip (← word n); return Value.other 0) :=
    (word_safe n).bind hskip
  have hthree : Safe (do return Value.strx (ofLe [← u8,← u8,← u8,0])) :=
    u8_safe.bind fun _ => u8_safe.bind fun _ => u8_safe.map _
  -- the forms of numbers are none of these
  have hleb {op : Parse Value} {p : Prop} (hp : p → form ∈ lebForms) : p → Safe op :=
    fun hform => absurd (hp hform) h
  exact .ite (fun _ => haddr) <| .ite (fun _ => hblock 2) <| .ite (fun _ => hblock 4) <|
    .ite (fun _ => hword 2 _) <| .ite (fun _ => hword 4 _) <| .ite (fun _ => hword 8 _) <|
    .ite (fun _ => cstr_safe.map _) <| .ite (hleb (by simp [lebForms]; tauto)) <|
    .ite (fun _ => u8_safe.bind fun b => hskip b.toNat) <| .ite (fun _ => hbyte _) <|
    .ite (hleb (by simp [lebForms]; tauto)) <| .ite (fun _ => hword 4 _) <|
    .ite (fun _ => hword 4 _) <| .ite (hleb (by simp [lebForms]; tauto)) <| .ite (fun _ => .pure _) <|
    .ite (hleb (by simp [lebForms]; tauto)) <| .ite (fun _ => hbyte _) <| .ite (fun _ => hword 2 _) <|
    .ite (fun _ => hthree) <| .ite (fun _ => hword 4 _) <| .ite (fun _ => hbyte _) <|
    .ite (fun _ => hword 2 _) <| .ite (fun _ => hskip 3) <| .ite (fun _ => hword 4 _) <|
    .ite (fun _ => hskip 16) <| .ite (fun _ => .pure _) .fail

theorem read_direct_overflows (addrSize : ℕ) (implicit : ℤ) {form : ℕ} (h : form ∈ lebForms)
    (r : Reader) : Overflows (readDirect addrSize implicit form) r fun l => l = r.rest := by
  have hblock : Overflows (do skip (← uleb); return Value.other 0) r fun l => l = r.rest :=
    (uleb_overflows r).last fun n => (skip_safe n).map fun _ => Value.other 0
  simp only [lebForms, List.mem_cons, List.not_mem_nil, or_false] at h
  rcases h with rfl | rfl | rfl | rfl | rfl | rfl | rfl | rfl | rfl
  · exact hblock
  · exact hblock
  · exact (sleb_overflows r).map fun n => Value.other (ofSigned n)
  · exact (uleb_overflows r).map Value.other
  · exact (uleb_overflows r).map Value.other
  · exact (uleb_overflows r).map Value.other
  · exact (uleb_overflows r).map Value.other
  · exact (uleb_overflows r).map Value.other
  · exact (uleb_overflows r).map Value.strx

theorem read_form_overflows (addrSize : ℕ) (implicit : ℤ) (form : ℕ) (r : Reader) :
    Overflows (readForm addrSize implicit form) r (FormLeb form r) := by
  obtain ⟨n,hn⟩ : ∃ n, n = r.rest.length := ⟨_,rfl⟩
  induction n using Nat.strongRecOn generalizing form r with
  | ind n ih =>
    subst hn
    by_cases hform : form = dwFormIndirect
    · subst hform
      rw [read_form_indirect]
      refine ((uleb_overflows r).bind fun actual r' h =>
        ih _ (uleb_consumes _ _ _ h) actual r' rfl).congr fun l => ⟨?_,?_⟩
      · rintro (rfl | ⟨actual,next,h,hl⟩)
        · exact .lead
        · exact .actual h hl
      · rintro (⟨h⟩ | _ | ⟨h,hl⟩)
        · exact absurd h (by decide)
        · exact Or.inl rfl
        · exact Or.inr ⟨_,_,h,hl⟩
    · rw [read_form_direct _ _ hform]
      by_cases hleb : form ∈ lebForms
      · refine (read_direct_overflows addrSize implicit hleb r).congr fun l => ⟨?_,?_⟩
        · rintro rfl
          exact .value hleb
        · rintro (_ | _ | _)
          · rfl
          · exact absurd rfl hform
          · exact absurd rfl hform
      · refine ((read_direct_safe addrSize implicit hleb).overflows r).congr fun l => ⟨nofun,?_⟩
        rintro (h | _ | _)
        · exact hleb h
        · exact hform rfl
        · exact hform rfl

/-! ## Abbreviations -/

theorem read_spec_overflows (r : Reader) : Overflows readSpec r (SpecLeb r) := by
  have hconst (attr form : ℕ) (r : Reader) :
      Overflows (if attr = 0 ∧ form = 0 then return none
        else if form = dwFormImplicitConst then do return some ⟨attr,form,← sleb⟩
        else return some (⟨attr,form,0⟩ : Spec)) r
        fun l => form = dwFormImplicitConst ∧ l = r.rest := by
    by_cases hend : attr = 0 ∧ form = 0
    · rw [if_pos hend]
      exact ((Safe.pure _).overflows r).congr fun l =>
        ⟨nofun,fun h => absurd (hend.2.symm.trans h.1) (by decide)⟩
    · rw [if_neg hend]
      by_cases hform : form = dwFormImplicitConst
      · rw [if_pos hform]
        exact ((sleb_overflows r).map _).congr fun l => (and_iff_right hform).symm
      · rw [if_neg hform]
        exact ((Safe.pure _).overflows r).congr fun l => ⟨nofun,fun h => hform h.1⟩
  refine ((uleb_overflows r).bind fun attr r₁ _ => (uleb_overflows r₁).bind fun form r₂ _ =>
    hconst attr form r₂).congr fun l => ⟨?_,?_⟩
  · rintro (rfl | ⟨attr,r₁,h,rfl | ⟨_,r₂,hform,rfl,rfl⟩⟩)
    · exact .attr
    · exact .form h
    · exact .const h hform
  · rintro (_ | h | ⟨h,hform⟩)
    · exact Or.inl rfl
    · exact Or.inr ⟨_,_,h,Or.inl rfl⟩
    · exact Or.inr ⟨_,_,h,Or.inr ⟨_,_,hform,rfl,rfl⟩⟩

theorem skip_specs_overflows (r : Reader) : Overflows skipSpecs r (SkipLeb r) := by
  obtain ⟨n,hn⟩ : ∃ n, n = r.rest.length := ⟨_,rfl⟩
  induction n using Nat.strongRecOn generalizing r with
  | ind n ih =>
    subst hn
    rw [skip_specs_eq]
    refine ((read_spec_overflows r).bind
      (q := fun spec next l => spec.isSome ∧ SkipLeb next l) fun spec next h => ?_).congr
        fun l => ⟨?_,?_⟩
    · cases spec with
      | none => exact ((Safe.pure _).overflows next).congr fun l => ⟨nofun,fun h => nomatch h.1⟩
      | some spec =>
        exact (ih _ (read_spec_consumes _ _ _ h) next rfl).congr fun l =>
          (and_iff_right rfl).symm
    · rintro (hl | ⟨spec,next,h,hsome,hl⟩)
      · exact .spec hl
      · obtain ⟨spec,rfl⟩ := Option.isSome_iff_exists.1 hsome
        exact .more h hl
    · rintro (hl | ⟨h,hl⟩)
      · exact Or.inl hl
      · exact Or.inr ⟨_,_,h,rfl,hl⟩

theorem read_decl_overflows (r : Reader) : Overflows readDecl r (DeclLeb r) := by
  have htag (c : ℕ) (r : Reader) :
      Overflows (if c = 0 then throw .missing else do
        let tag ← uleb
        let _children ← u8
        return (c,tag)) r fun l => c ≠ 0 ∧ l = r.rest := by
    by_cases hc : c = 0
    · rw [if_pos hc]
      exact (Safe.fail.overflows r).congr fun l => ⟨nofun,fun h => h.1 hc⟩
    · rw [if_neg hc]
      exact ((uleb_overflows r).last fun tag => u8_safe.map _).congr fun l =>
        (and_iff_right hc).symm
  refine ((uleb_overflows r).bind fun c r' _ => htag c r').congr fun l => ⟨?_,?_⟩
  · rintro (rfl | ⟨c,r',h,hc,rfl⟩)
    · exact .code
    · exact .tag h hc
  · rintro (_ | ⟨h,hc⟩)
    · exact Or.inl rfl
    · exact Or.inr ⟨_,_,h,hc,rfl⟩

theorem find_abbrev_overflows (code : ℕ) (r : Reader) :
    Overflows (findAbbrev code) r (AbbrevLeb code r) := by
  obtain ⟨n,hn⟩ : ∃ n, n = r.rest.length := ⟨_,rfl⟩
  induction n using Nat.strongRecOn generalizing r with
  | ind n ih =>
    subst hn
    rw [find_abbrev_eq]
    refine ((read_decl_overflows r).bind (q := fun decl next l => decl.1 ≠ code ∧
      (SkipLeb next l ∨ ∃ u next', skipSpecs next = .ok (u,next') ∧ AbbrevLeb code next' l))
      fun decl next h => ?_).congr fun l => ⟨?_,?_⟩
    · have hlt := read_decl_consumes _ _ _ h
      by_cases hc : decl.1 = code
      · dsimp only
        rw [if_pos hc]
        exact ((Safe.pure _).overflows next).congr fun l => ⟨nofun,fun h => h.1 hc⟩
      · dsimp only
        rw [if_neg hc]
        refine ((skip_specs_overflows next).bind fun _ next' hskip => ih _ ?_ next' rfl).congr
          fun l => (and_iff_right hc).symm
        have hle := skip_specs_consumes _ _ _ hskip
        omega
    · rintro (hl | ⟨decl,next,h,hc,hl | ⟨_,next',hskip,hl⟩⟩)
      · exact .decl hl
      · exact .skip h hc hl
      · exact .more h hc hskip hl
    · rintro (hl | ⟨h,hc,hl⟩ | ⟨h,hc,hskip,hl⟩)
      · exact Or.inl hl
      · exact Or.inr ⟨_,_,h,hc,Or.inl hl⟩
      · exact Or.inr ⟨_,_,h,hc,Or.inr ⟨_,_,hskip,hl⟩⟩

/-! ## Units -/

/-- A computation overflows in its first part or in what follows. -/
theorem bind_overflow {α β : Type} {x : Except Stop α} {f : α → Except Stop β} :
    (x >>= f) = .error .overflow ↔
      x = .error .overflow ∨ ∃ a, x = .ok a ∧ f a = .error .overflow := by
  cases x with
  | error e => simp [bind, Except.bind]
  | ok a => simp [bind, Except.bind]

theorem ok_bind {α β : Type} {x : Except Stop α} {a : α} (h : x = .ok a)
    (f : α → Except Stop β) : (x >>= f) = f a := by
  rw [h]
  rfl

/-- The attributes overflow at a number of a specification or of a value. -/
theorem read_attrs_overflow (addrSize : ℕ) (specs r : Reader) (attrs : Attrs) :
    readAttrs addrSize specs r attrs = .error .overflow ↔
      ∃ l, AttrsLeb addrSize specs r l ∧ ¬LebFits l := by
  obtain ⟨n,hn⟩ : ∃ n, n = specs.rest.length := ⟨_,rfl⟩
  induction n using Nat.strongRecOn generalizing specs r attrs with
  | ind n ih =>
    subst hn
    have hspecs := read_spec_overflows specs
    rw [read_attrs_eq]
    split
    · next e he =>
      rw [Overflows, he, Except.error.injEq] at hspecs
      rw [Except.error.injEq, hspecs]
      constructor
      · rintro ⟨l,hl,hlong⟩
        exact ⟨l,.spec hl,hlong⟩
      · rintro ⟨l,hl | ⟨h,-⟩ | ⟨h,-,-⟩,hlong⟩
        · exact ⟨l,hl,hlong⟩
        · cases he.symm.trans h
        · cases he.symm.trans h
    · next next hnone =>
      refine iff_of_false (fun hread => ?_) ?_
      · cases hread
      · rintro ⟨l,hl | ⟨h,-⟩ | ⟨h,-,-⟩,hlong⟩
        · cases hnone.symm.trans (hspecs.2 ⟨l,hl,hlong⟩)
        · cases hnone.symm.trans h
        · cases hnone.symm.trans h
    · next spec next hspec =>
      have hfits (l : List UInt8) (hl : SpecLeb specs l) : LebFits l := by
        by_contra hlong
        cases hspec.symm.trans (hspecs.2 ⟨l,hl,hlong⟩)
      have hform := read_form_overflows addrSize spec.implicit spec.form r
      split
      · next e he =>
        rw [Overflows, he, Except.error.injEq] at hform
        rw [Except.error.injEq, hform]
        constructor
        · rintro ⟨l,hl,hlong⟩
          exact ⟨l,.form hspec hl,hlong⟩
        · rintro ⟨l,hl | ⟨h,hl⟩ | ⟨h,hval,-⟩,hlong⟩
          · exact absurd (hfits l hl) hlong
          · cases hspec.symm.trans h
            exact ⟨l,hl,hlong⟩
          · cases hspec.symm.trans h
            cases he.symm.trans hval
      · next val r' hval =>
        rw [ih _ (read_spec_consumes _ _ _ hspec) next r' _ rfl]
        constructor
        · rintro ⟨l,hl,hlong⟩
          exact ⟨l,.more hspec hval hl,hlong⟩
        · rintro ⟨l,hl | ⟨h,hl⟩ | ⟨h,hval',hl⟩,hlong⟩
          · exact absurd (hfits l hl) hlong
          · cases hspec.symm.trans h
            cases hval.symm.trans (hform.2 ⟨l,hl,hlong⟩)
          · cases hspec.symm.trans h
            cases hval.symm.trans hval'
            exact ⟨l,hl,hlong⟩

theorem read_header_safe : Safe readHeader := by
  have hend : Safe (do
      let abbrevOff ← u32
      let addrSize ← u8
      return (abbrevOff,addrSize.toNat)) := (word_safe 4).bind fun _ => u8_safe.map _
  have hend5 : Safe (do
      let _unitType ← u8
      let addrSize ← u8
      let abbrevOff ← u32
      return (abbrevOff,addrSize.toNat)) :=
    u8_safe.bind fun _ => u8_safe.bind fun _ => (word_safe 4).map _
  exact (word_safe 4).bind fun _ =>
    .ite (fun _ => .fail) ((word_safe 2).bind fun _ => .ite (fun _ => hend5) hend)

/-- The unit's attributes overflow just at a number that is read for them. -/
theorem unit_attrs_overflow (info abbrevSect : List UInt8) :
    unitAttrs info abbrevSect = .error .overflow ↔
      ∃ l, UnitLeb info abbrevSect l ∧ ¬LebFits l := by
  rw [unitAttrs, bind_overflow]
  constructor
  · rintro (h | ⟨⟨⟨abbrevOff,addrSize⟩,r⟩,hheader,h⟩)
    · exact absurd h (read_header_safe _)
    dsimp only at h
    split at h
    · cases h
    next hoff =>
    have hoff := Nat.not_lt.1 hoff
    rcases bind_overflow.1 h with h | ⟨⟨code,next⟩,hcode,h⟩
    · obtain ⟨l,rfl,hlong⟩ := (uleb_overflows r).1 h
      exact ⟨_,.code hheader hoff,hlong⟩
    rcases bind_overflow.1 h with h | ⟨⟨tag,specs⟩,hfind,h⟩
    · obtain ⟨l,hl,hlong⟩ := (find_abbrev_overflows code _).1 h
      exact ⟨l,.table hheader hoff hcode hl,hlong⟩
    dsimp only at h
    split at h
    · cases h
    · next htag =>
      obtain rfl := Decidable.not_not.1 htag
      obtain ⟨l,hl,hlong⟩ := (read_attrs_overflow addrSize specs next {}).1 h
      exact ⟨l,.attrs hheader hoff hcode hfind hl,hlong⟩
  · rintro ⟨l,⟨hheader,hoff⟩ | ⟨hheader,hoff,hcode,hl⟩ | ⟨hheader,hoff,hcode,hfind,hl⟩,hlong⟩
    · refine Or.inr ⟨_,hheader,(if_neg (Nat.not_lt.2 hoff)).trans (bind_overflow.2 (Or.inl ?_))⟩
      exact (uleb_overflows _).2 ⟨_,rfl,hlong⟩
    · refine Or.inr ⟨_,hheader,(if_neg (Nat.not_lt.2 hoff)).trans ((ok_bind hcode _).trans ?_)⟩
      exact bind_overflow.2 (Or.inl ((find_abbrev_overflows _ _).2 ⟨l,hl,hlong⟩))
    · refine Or.inr ⟨_,hheader,(if_neg (Nat.not_lt.2 hoff)).trans ((ok_bind hcode _).trans ?_)⟩
      refine (ok_bind hfind _).trans ((if_neg (not_not_intro rfl)).trans ?_)
      exact (read_attrs_overflow _ _ _ _).2 ⟨l,hl,hlong⟩

/-! ## Short sections -/

theorem read_direct_consumes (addrSize : ℕ) (implicit : ℤ) (form : ℕ) :
    Consumes 0 (readDirect addrSize implicit form) := by
  have haddr : Consumes 0 (do return Value.other (← if addrSize = 4 then u32 else u64)) :=
    ((word_consumes 4).any.map _).ite ((word_consumes 8).any.map _)
  have hbyte (f : UInt8 → Value) : Consumes 0 (do return f (← u8)) := u8_consumes.any.map f
  have hword (n : ℕ) (f : ℕ → Value) : Consumes 0 (do return f (← word n)) :=
    (word_consumes n).any.map f
  have hleb (f : ℕ → Value) : Consumes 0 (do return f (← uleb)) := uleb_consumes.any.map f
  have hskip (n : ℕ) : Consumes 0 (do skip n; return Value.other 0) :=
    (skip_consumes n).any.map fun _ => Value.other 0
  have hblock {op : Parse ℕ} {n : ℕ} (h : Consumes n op) :
      Consumes 0 (do skip (← op); return Value.other 0) := h.any.bind hskip
  have hthree : Consumes 0 (do return Value.strx (ofLe [← u8,← u8,← u8,0])) :=
    u8_consumes.any.bind fun _ => u8_consumes.any.bind fun _ => u8_consumes.any.map _
  exact .ite haddr <| .ite (hblock (word_consumes 2)) <| .ite (hblock (word_consumes 4)) <|
    .ite (hword 2 _) <| .ite (hword 4 _) <| .ite (hword 8 _) <| .ite (cstr_consumes.any.map _) <|
    .ite (hblock uleb_consumes) <| .ite (u8_consumes.any.bind fun b => hskip b.toNat) <|
    .ite (hbyte _) <| .ite (sleb_consumes.any.map _) <| .ite (hword 4 _) <| .ite (hword 4 _) <|
    .ite (hleb _) <| .ite (.pure _) <| .ite (hleb _) <| .ite (hbyte _) <| .ite (hword 2 _) <|
    .ite hthree <| .ite (hword 4 _) <| .ite (hbyte _) <| .ite (hword 2 _) <| .ite (hskip 3) <|
    .ite (hword 4 _) <| .ite (hskip 16) <| .ite (.pure _) (.fail _)

theorem read_form_consumes (addrSize : ℕ) (implicit : ℤ) (form : ℕ) :
    Consumes 0 (readForm addrSize implicit form) := by
  intro r v r' h
  obtain ⟨n,hn⟩ : ∃ n, n = r.rest.length := ⟨_,rfl⟩
  induction n using Nat.strongRecOn generalizing form r with
  | ind n ih =>
    subst hn
    by_cases hform : form = dwFormIndirect
    · subst hform
      rw [read_form_indirect] at h
      obtain ⟨actual,next,hleb,hrest⟩ := bind_ok h
      have hlt := uleb_consumes _ _ _ hleb
      have hle := ih _ (by omega) actual next hrest rfl
      omega
    · rw [read_form_direct _ _ hform] at h
      exact read_direct_consumes _ _ _ _ _ _ h

theorem find_abbrev_consumes (code : ℕ) : Consumes 0 (findAbbrev code) := by
  intro r v r' h
  obtain ⟨n,hn⟩ : ∃ n, n = r.rest.length := ⟨_,rfl⟩
  induction n using Nat.strongRecOn generalizing r with
  | ind n ih =>
    subst hn
    rw [find_abbrev_eq] at h
    obtain ⟨⟨c,tag⟩,next,hdecl,hrest⟩ := bind_ok h
    have hlt := read_decl_consumes _ _ _ hdecl
    dsimp only at hrest
    split at hrest
    · cases hrest
      omega
    · obtain ⟨_,next',hskip,hmore⟩ := bind_ok hrest
      have hskipped := skip_specs_consumes _ _ _ hskip
      have hle := ih _ (by omega) next' hmore rfl
      omega

theorem read_header_consumes : Consumes 0 readHeader := by
  have hend : Consumes 0 (do
      let abbrevOff ← u32
      let addrSize ← u8
      return (abbrevOff,addrSize.toNat)) :=
    (word_consumes 4).any.bind fun _ => u8_consumes.any.map _
  have hend5 : Consumes 0 (do
      let _unitType ← u8
      let addrSize ← u8
      let abbrevOff ← u32
      return (abbrevOff,addrSize.toNat)) :=
    u8_consumes.any.bind fun _ => u8_consumes.any.bind fun _ => (word_consumes 4).any.map _
  exact (word_consumes 4).any.bind fun _ =>
    .ite (.fail _) ((word_consumes 2).any.bind fun _ => .ite hend5 hend)

section Lengths
variable {r : Reader} {l : List UInt8}

theorem FormLeb.length_le {form : ℕ} (h : FormLeb form r l) : l.length ≤ r.rest.length := by
  induction h with
  | value => exact le_rfl
  | lead => exact le_rfl
  | actual h _ ih =>
    have hlt := uleb_consumes _ _ _ h
    omega

theorem SpecLeb.length_le (h : SpecLeb r l) : l.length ≤ r.rest.length := by
  cases h with
  | attr => exact le_rfl
  | form h =>
    have hlt := uleb_consumes _ _ _ h
    omega
  | const h hform =>
    have hlt := uleb_consumes _ _ _ h
    have hlt' := uleb_consumes _ _ _ hform
    omega

theorem SkipLeb.length_le (h : SkipLeb r l) : l.length ≤ r.rest.length := by
  induction h with
  | spec hl => exact hl.length_le
  | more h _ ih =>
    have hlt := read_spec_consumes _ _ _ h
    omega

theorem DeclLeb.length_le (h : DeclLeb r l) : l.length ≤ r.rest.length := by
  cases h with
  | code => exact le_rfl
  | tag h =>
    have hlt := uleb_consumes _ _ _ h
    omega

theorem AbbrevLeb.length_le {code : ℕ} (h : AbbrevLeb code r l) : l.length ≤ r.rest.length := by
  induction h with
  | decl hl => exact hl.length_le
  | skip h _ hl =>
    have hlt := read_decl_consumes _ _ _ h
    have hle := hl.length_le
    omega
  | more h _ hskip _ ih =>
    have hlt := read_decl_consumes _ _ _ h
    have hle := skip_specs_consumes _ _ _ hskip
    omega

theorem AttrsLeb.length_le {addrSize : ℕ} {specs : Reader} (h : AttrsLeb addrSize specs r l) :
    l.length ≤ max specs.rest.length r.rest.length := by
  induction h with
  | spec hl =>
    have hle := hl.length_le
    omega
  | form _ hl =>
    have hle := hl.length_le
    omega
  | more h hform _ ih =>
    have hlt := read_spec_consumes _ _ _ h
    have hle := read_form_consumes _ _ _ _ _ _ hform
    omega

theorem UnitLeb.length_le {info abbrevSect : List UInt8} (h : UnitLeb info abbrevSect l) :
    l.length ≤ max info.length abbrevSect.length := by
  have hdrop (n : ℕ) : (Reader.rest { data := abbrevSect.drop n }).length ≤ abbrevSect.length := by
    rw [Reader.rest, List.drop_zero, List.length_drop]
    exact Nat.sub_le _ _
  have hinfo : (Reader.rest { data := info }).length = info.length := rfl
  cases h with
  | code h =>
    have hle := read_header_consumes _ _ _ h
    omega
  | table _ _ _ hl => exact le_max_of_le_right (hl.length_le.trans (hdrop _))
  | attrs h _ hcode hfind hl =>
    have hle := read_header_consumes _ _ _ h
    have hlt := uleb_consumes _ _ _ hcode
    have hspecs := (find_abbrev_consumes _ _ _ _ hfind).trans (hdrop _)
    have hattrs := hl.length_le
    omega

end Lengths

/-- Sections of less than 292 MiB have no number too long. -/
theorem lebs_fit_short {s : Sections} (hinfo : 7*s.info.length < 2^31)
    (habbrev : 7*s.abbrevSect.length < 2^31) : LebsFit s := by
  intro l hl
  have hlen := leb_length_le l
  have hle := hl.length_le
  rw [LebFits]
  omega

end MoldMacho.Dwarf
