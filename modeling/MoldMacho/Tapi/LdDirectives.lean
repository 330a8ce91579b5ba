import MoldMacho.Tapi.DirectiveOrder

/-!
# What a library's directives say in any order

A stub or a binary interpreted with its export names in two orders. What both
say is the same just when the directives with the first install name give one
version.
-/

set_option autoImplicit false

namespace MoldMacho.Tapi
open MoldMacho.Chunks MoldMacho.Dylibs MoldMacho.LeastMet
open MoldMacho.Bytes (bytes_lt)

/-! ## A library interpreted -/

def interpretStub (args : Args) (tbd : TbdFile) : TbdFile × LdDirectives :=
  interpretLdSymbols (read args) (findLdSymbols tbd)

def interpretBinary (args : Args) (image : DylibImage) : DylibBinary × LdDirectives :=
  interpretBinaryLdSymbols (read args) (readDylibBinary image)

/-- What the link takes from a library. -/
structure Interpreted where
  installName : Name
  currentVersion : ℕ
  compatibilityVersion : ℕ
  exports : List Name
  weakExports : List Name
  directives : LdDirectives

def stub (args : Args) (tbd : TbdFile) : Interpreted :=
  let (tbd,directives) := interpretStub args tbd
  { installName := tbd.installName, currentVersion := tbd.currentVersion
    compatibilityVersion := tbd.compatibilityVersion, exports := tbd.exports
    weakExports := tbd.weakExports, directives }

def binary (args : Args) (image : DylibImage) : Interpreted :=
  let (dylib,directives) := interpretBinary args image
  { installName := dylib.installName, currentVersion := dylib.currentVersion
    compatibilityVersion := dylib.compatibilityVersion, exports := dylib.exports
    weakExports := dylib.weakExports, directives }

/-- The same name, versions, exports and moved exports, each with where it moves. -/
structure Same (a b : Interpreted) : Prop where
  installName : a.installName = b.installName
  currentVersion : a.currentVersion = b.currentVersion
  compatibilityVersion : a.compatibilityVersion = b.compatibilityVersion
  exports : ∀ name, name ∈ a.exports ↔ name ∈ b.exports
  weakExports : ∀ name, name ∈ a.weakExports ↔ name ∈ b.weakExports
  renamed : a.directives.renamed = b.directives.renamed
  moved : ∀ m, m ∈ a.directives.moved ↔ m ∈ b.directives.moved

/-! ## The directives taken -/

section Taken
variable (args : Args) (names : Set Name)

/-- A `$ld$previous` directive for an export, or for the library, that applies. -/
def Applies (sym : Name) (p : PreviousDirective) : Prop :=
  (∃ name ∈ names, previousOf args name = some p) ∧ p.sym = sym

/-- One with the first install name. -/
def First (sym : Name) (p : PreviousDirective) : Prop :=
  Applies args names sym p ∧ ∀ q, Applies args names sym q → ¬q.installName < p.installName

/-- What the first `$ld$compatibility_version` directive by name gives. -/
def CompatibilityVersion (version : ℕ) : Prop :=
  ∃ name ∈ names, compatOf args name = some (name,version) ∧
    ∀ other ∈ names, (compatOf args other).isSome → ¬other < name

/-- The versions of a library that no `$ld$previous` directive gives one. -/
def OwnVersions (recorded own : ℕ × ℕ) : Prop :=
  own.1 = recorded.1 ∧ (CompatibilityVersion args names own.2 ∨
    (∀ version, ¬CompatibilityVersion args names version) ∧ own.2 = recorded.2)

/-- The versions that go with a directive: the one it gives, or else the library's. -/
def versionsOf (own : ℕ × ℕ) (version : Option ℕ) : ℕ × ℕ := (version.getD own.1,version.getD own.2)

def LibraryVersions (own versions : ℕ × ℕ) : Prop :=
  (∃ p, First args names [] p ∧ versions = versionsOf own p.version) ∨
    (∀ p, ¬Applies args names [] p) ∧ versions = own

/-- The `$ld$previous` directives for one export, or for the library, that have the
first install name go with the same versions. -/
structure Settled (recorded : ℕ × ℕ) : Prop where
  library : ∀ own, OwnVersions args names recorded own → ∀ p q, First args names [] p →
    First args names [] q → versionsOf own p.version = versionsOf own q.version
  exports : ∀ own versions, OwnVersions args names recorded own →
    LibraryVersions args names own versions → ∀ sym ≠ [], ∀ p q, First args names sym p →
    First args names sym q → versionsOf versions p.version = versionsOf versions q.version

end Taken

/-! ## What is read of a list of names -/

section OfNames
variable {args : Args} {names : List Name}

theorem name_key_inj {β : Type} {a b : Name × β} (h : nameKey a = nameKey b) : a.1 = b.1 :=
  List.map_injective_iff.2 (fun _ _ => UInt8.toNat_inj.1) h

theorem move_of_some {sym name : Name} {m : Name × Option ℕ} :
    moveOf args sym name = some m ↔
      ∃ p, previousOf args name = some p ∧ p.sym = sym ∧ (p.installName,p.version) = m := by
  rw [moveOf]
  cases previousOf args name with
  | none => simp
  | some p => simp

theorem mem_moves {sym : Name} {m : Name × Option ℕ} :
    m ∈ names.filterMap (moveOf args sym) ↔
      ∃ p, Applies args {name | name ∈ names} sym p ∧ (p.installName,p.version) = m := by
  rw [List.mem_filterMap]
  constructor
  · rintro ⟨name,hname,hmove⟩
    obtain ⟨p,hp,hsym,hm⟩ := move_of_some.1 hmove
    exact ⟨p,⟨⟨name,hname,hp⟩,hsym⟩,hm⟩
  · rintro ⟨p,⟨⟨name,hname,hp⟩,hsym⟩,hm⟩
    exact ⟨name,hname,move_of_some.2 ⟨p,hp,hsym,hm⟩⟩

theorem first_of_least {sym : Name} {m : Name × Option ℕ}
    (h : leastMet nameKey (names.filterMap (moveOf args sym)) = some m) :
    ∃ p, First args {name | name ∈ names} sym p ∧ (p.installName,p.version) = m := by
  obtain ⟨hm,hleast⟩ := least_met_mem h
  obtain ⟨p,hp,rfl⟩ := mem_moves.1 hm
  refine ⟨p,⟨hp,?_⟩,rfl⟩
  intro q hq hlt
  have hle := hleast _ (mem_moves.2 ⟨q,hq,rfl⟩)
  exact absurd (name_key_lt.2 hlt) (not_lt.2 hle)

/-- A directive with the first install name is the one taken in some order. -/
theorem first_taken {sym : Name} {p : PreviousDirective}
    (h : First args {name | name ∈ names} sym p) :
    ∃ names', names.Perm names' ∧
      leastMet nameKey (names'.filterMap (moveOf args sym)) = some (p.installName,p.version) := by
  obtain ⟨⟨⟨name,hname,hp⟩,hsym⟩,hfirst⟩ := h
  have hperm : names.Perm (name::names.erase name) := List.perm_cons_erase hname
  refine ⟨_,hperm,?_⟩
  rw [List.filterMap_cons_some (move_of_some.2 ⟨p,hp,hsym,rfl⟩)]
  apply least_met_first
  intro m hm
  obtain ⟨q,⟨⟨other,hother,hq⟩,hqsym⟩,rfl⟩ := mem_moves.1 hm
  have hle := hfirst q ⟨⟨other,List.mem_of_mem_erase hother,hq⟩,hqsym⟩
  exact not_lt.1 fun hlt => hle (name_key_lt.1 hlt)

theorem compat_of_name {name : Name} {m : Name × ℕ} (h : compatOf args name = some m) :
    m.1 = name := by
  rw [compatOf, Option.bind_eq_some_iff] at h
  obtain ⟨arg,-,h⟩ := h
  rw [Option.map_eq_some_iff] at h
  obtain ⟨version,-,rfl⟩ := h
  rfl

theorem read_compatibility (version : ℕ) :
    (read args names).compatibilityVersion = some version ↔
      CompatibilityVersion args {name | name ∈ names} version := by
  rw [read_compatibility_version, Option.map_eq_some_iff]
  constructor
  · rintro ⟨m,hm,rfl⟩
    obtain ⟨hmem,hleast⟩ := least_met_mem hm
    obtain ⟨name,hname,hcompat⟩ := List.mem_filterMap.1 hmem
    refine ⟨name,hname,?_,?_⟩
    · rw [hcompat, ← compat_of_name hcompat]
    · intro other hother hsome hlt
      obtain ⟨m',hm'⟩ := Option.isSome_iff_exists.1 hsome
      have hle := hleast m' (List.mem_filterMap.2 ⟨other,hother,hm'⟩)
      apply absurd (name_key_lt.2 _) (not_lt.2 hle)
      rw [compat_of_name hm', compat_of_name hcompat]
      exact hlt
  · rintro ⟨name,hname,hcompat,hfirst⟩
    have hmem : (name,version) ∈ names.filterMap (compatOf args) :=
      List.mem_filterMap.2 ⟨name,hname,hcompat⟩
    cases hm : leastMet nameKey (names.filterMap (compatOf args)) with
    | none =>
      rw [least_met_none] at hm
      rw [hm] at hmem
      cases hmem
    | some m =>
      obtain ⟨hm,hleast⟩ := least_met_mem hm
      obtain ⟨other,hother,hcompat'⟩ := List.mem_filterMap.1 hm
      have hle := hleast _ hmem
      have hother' := hfirst other hother (by rw [hcompat']; rfl)
      rw [← compat_of_name hcompat', ← name_key_lt (b := (name,version)), not_lt] at hother'
      have hname' : m.1 = name := name_key_inj (le_antisymm hle hother')
      rw [← compat_of_name hcompat', hname', hcompat, Option.some_inj] at hcompat'
      exact ⟨m,rfl,by rw [← hcompat']⟩

theorem first_exists {sym : Name} {p : PreviousDirective}
    (h : Applies args {name | name ∈ names} sym p) :
    ∃ q, First args {name | name ∈ names} sym q := by
  cases hm : leastMet nameKey (names.filterMap (moveOf args sym)) with
  | none =>
    have hmem := mem_moves.2 ⟨p,h,rfl⟩
    rw [least_met_none.1 hm] at hmem
    cases hmem
  | some m =>
    obtain ⟨q,hq,-⟩ := first_of_least hm
    exact ⟨q,hq⟩

/-! The versions. -/

theorem own_versions_read (recorded own : ℕ × ℕ) :
    OwnVersions args {name | name ∈ names} recorded own ↔
      own = (recorded.1,(read args names).compatibilityVersion.getD recorded.2) := by
  rw [OwnVersions, Prod.ext_iff]
  apply and_congr_right
  intro _
  simp only [← read_compatibility]
  cases (read args names).compatibilityVersion with
  | none => simp
  | some version => simp [eq_comm]

theorem library_versions_read (own : ℕ × ℕ) :
    LibraryVersions args {name | name ∈ names} own
      (versionsOf own (read args names).renamedVersion) := by
  rw [LdSymbols.renamedVersion, read_previous]
  cases hm : leastMet nameKey (names.filterMap (moveOf args [])) with
  | none =>
    refine .inr ⟨?_,rfl⟩
    intro p hp
    obtain ⟨q,hq⟩ := first_exists hp
    have hmem := mem_moves.2 ⟨q,hq.1,rfl⟩
    rw [least_met_none.1 hm] at hmem
    cases hmem
  | some m =>
    obtain ⟨p,hp,rfl⟩ := first_of_least hm
    exact .inl ⟨p,hp,rfl⟩

theorem library_versions_unique {own versions versions' : ℕ × ℕ}
    (h : ∀ p q, First args {name | name ∈ names} [] p → First args {name | name ∈ names} [] q →
      versionsOf own p.version = versionsOf own q.version)
    (hv : LibraryVersions args {name | name ∈ names} own versions)
    (hv' : LibraryVersions args {name | name ∈ names} own versions') : versions = versions' := by
  rcases hv with ⟨p,hp,rfl⟩ | ⟨hnone,rfl⟩
  · rcases hv' with ⟨q,hq,rfl⟩ | ⟨hnone,-⟩
    · exact h p q hp hq
    · exact absurd hp.1 (hnone p)
  · rcases hv' with ⟨q,hq,-⟩ | ⟨-,rfl⟩
    · exact absurd hq.1 (hnone q)
    · rfl

theorem mem_moved (own : ℕ × ℕ) (m : MovedExport) :
    m ∈ ((read args names).finish own.1 own.2).moved ↔
      m.name ≠ [] ∧ ∃ version,
        leastMet nameKey (names.filterMap (moveOf args m.name)) = some (m.installName,version) ∧
        (m.currentVersion,m.compatibilityVersion) = versionsOf own version := by
  rw [LdSymbols.finish, List.mem_map]
  constructor
  · rintro ⟨⟨sym,installName,version⟩,hmem,rfl⟩
    obtain ⟨hsym,hleast⟩ := (read_moved args names _ _).1 hmem
    exact ⟨hsym,version,hleast,rfl⟩
  · rintro ⟨hsym,version,hleast,hversions⟩
    refine ⟨(m.name,m.installName,version),(read_moved args names _ _).2 ⟨hsym,hleast⟩,?_⟩
    obtain ⟨name,installName,current,compatibility⟩ := m
    cases hversions
    rfl

end OfNames

/-! ## Two orders -/

section TwoOrders
variable {args : Args} {names names' : List Name}

theorem names_perm (h : names.Perm names') :
    {name | name ∈ names} = {name : Name | name ∈ names'} :=
  Set.ext fun _ => h.mem_iff

theorem first_install_name (h : names.Perm names') (sym : Name) :
    (leastMet nameKey (names.filterMap (moveOf args sym))).map Prod.fst =
      (leastMet nameKey (names'.filterMap (moveOf args sym))).map Prod.fst := by
  have hkey : (leastMet nameKey (names.filterMap (moveOf args sym))).map nameKey =
      (leastMet nameKey (names'.filterMap (moveOf args sym))).map nameKey :=
    least_met_key fun _ => (h.filterMap (moveOf args sym)).mem_iff
  rw [show (nameKey : Name × Option ℕ → List ℕ) = List.map UInt8.toNat ∘ Prod.fst from rfl,
    ← Option.map_map, ← Option.map_map] at hkey
  exact Option.map_injective (List.map_injective_iff.2 fun _ _ => UInt8.toNat_inj.1) hkey

theorem read_install_name_perm (h : names.Perm names') :
    (read args names).installName = (read args names').installName := by
  rw [read_install_name, read_install_name]
  apply Option.map_injective (f := argKey)
  · intro a b hab
    exact List.map_injective_iff.2 (fun _ _ => UInt8.toNat_inj.1) (OrderDual.toDual_inj.1 hab)
  · exact least_met_key fun arg => (h.filterMap _).mem_iff

theorem read_compatibility_perm (h : names.Perm names') :
    (read args names).compatibilityVersion = (read args names').compatibilityVersion := by
  apply Option.ext
  intro version
  rw [read_compatibility, read_compatibility, names_perm h]

theorem renamed_install_name_perm (h : names.Perm names') :
    (read args names).renamedInstallName = (read args names').renamedInstallName := by
  rw [LdSymbols.renamedInstallName, LdSymbols.renamedInstallName, read_previous, read_previous,
    first_install_name h, read_install_name_perm h]

theorem keeps_perm (h : names.Perm names') (name : Name) :
    (read args names).keeps name = (read args names').keeps name := by
  have hhidden : (read args names).hidden.contains name =
      (read args names').hidden.contains name := by
    rw [Bool.eq_iff_iff, List.contains_iff_mem, List.contains_iff_mem, read_hidden, read_hidden]
    exact exists_congr fun _ => and_congr_left' h.mem_iff
  rw [LdSymbols.keeps, LdSymbols.keeps, hhidden]

theorem added_perm (h : names.Perm names') (name : Name) :
    name ∈ (read args names).added ↔ name ∈ (read args names').added := by
  rw [read_added, read_added]
  exact exists_congr fun _ => and_congr_left' h.mem_iff

theorem kept_perm (h : names.Perm names') {few few' : List Name} (hfew : few.Perm few')
    (name : Name) :
    name ∈ few.filter (read args names).keeps ↔ name ∈ few'.filter (read args names').keeps := by
  rw [List.mem_filter, List.mem_filter, hfew.mem_iff, keeps_perm h]

end TwoOrders

/-! ## Stubs -/

section Stubs
variable {args : Args} {tbd : TbdFile} {exports weak : List Name}

/-- A library's own versions, as the directives among its exports give them. -/
def ownVersions (args : Args) (tbd : TbdFile) : ℕ × ℕ :=
  (tbd.currentVersion,(read args tbd.exports).compatibilityVersion.getD tbd.compatibilityVersion)

def finalVersions (args : Args) (tbd : TbdFile) : ℕ × ℕ :=
  versionsOf (ownVersions args tbd) (read args tbd.exports).renamedVersion

/-- Whether the exports are looked through for ones to drop. -/
def drops (tbd : TbdFile) : Bool :=
  !(tbd.exports.filter isDirective).isEmpty || tbd.weakExports.any isDirective

theorem stub_eq (args : Args) (tbd : TbdFile) : stub args tbd =
    { installName := (read args tbd.exports).renamedInstallName.getD tbd.installName
      currentVersion := (finalVersions args tbd).1
      compatibilityVersion := (finalVersions args tbd).2
      exports := (if drops tbd then tbd.exports.filter (read args tbd.exports).keeps
        else tbd.exports) ++ (read args tbd.exports).added
      weakExports := if drops tbd then tbd.weakExports.filter (read args tbd.exports).keeps
        else tbd.weakExports
      directives :=
        (read args tbd.exports).finish (finalVersions args tbd).1 (finalVersions args tbd).2 } := by
  rw [stub, interpretStub, interpretLdSymbols, findLdSymbols]
  dsimp only
  rw [read_filtered]
  rfl

theorem drops_perm (hexports : tbd.exports.Perm exports) (hweak : tbd.weakExports.Perm weak) :
    drops tbd = drops { tbd with exports, weakExports := weak } := by
  have hempty : (tbd.exports.filter isDirective).isEmpty =
      (exports.filter isDirective).isEmpty := by
    rw [Bool.eq_iff_iff, List.isEmpty_iff, List.isEmpty_iff]
    exact ⟨fun h => (h ▸ hexports.filter isDirective).nil_eq.symm,
      fun h => (h ▸ hexports.filter isDirective).eq_nil⟩
  have hany : tbd.weakExports.any isDirective = weak.any isDirective := by
    rw [Bool.eq_iff_iff, List.any_eq_true, List.any_eq_true]
    exact exists_congr fun _ => and_congr_left' hweak.mem_iff
  rw [drops, drops, hempty, hany]

theorem own_versions_perm (hexports : tbd.exports.Perm exports) :
    ownVersions args tbd = ownVersions args { tbd with exports, weakExports := weak } := by
  rw [ownVersions, ownVersions, read_compatibility_perm hexports]

/-- The directives of the least install name that an order of the exports takes. -/
theorem moved_settled (h : Settled args {name | name ∈ tbd.exports}
      (tbd.currentVersion,tbd.compatibilityVersion))
    (hexports : tbd.exports.Perm exports) {versions : ℕ × ℕ}
    (hversions : LibraryVersions args {name | name ∈ tbd.exports} (ownVersions args tbd) versions)
    {m : MovedExport}
    (hm : m ∈ ((read args tbd.exports).finish versions.1 versions.2).moved) :
    m ∈ ((read args exports).finish versions.1 versions.2).moved := by
  rw [mem_moved] at hm ⊢
  obtain ⟨hsym,version,hleast,hm⟩ := hm
  refine ⟨hsym,?_⟩
  have hname := @first_install_name args _ _ hexports m.name
  rw [hleast, Option.map_some, eq_comm, Option.map_eq_some_iff] at hname
  obtain ⟨⟨installName,version'⟩,hleast',rfl⟩ := hname
  obtain ⟨p,hp,hversion⟩ := first_of_least hleast
  obtain ⟨q,hq,hversion'⟩ := first_of_least hleast'
  obtain ⟨-,rfl⟩ := Prod.mk.inj hversion
  obtain ⟨-,rfl⟩ := Prod.mk.inj hversion'
  refine ⟨q.version,hleast',?_⟩
  rw [hm]
  rw [← names_perm hexports] at hq
  exact h.exports _ _ ((own_versions_read _ _).2 rfl) hversions m.name hsym p q hp hq

theorem final_versions_perm (h : Settled args {name | name ∈ tbd.exports}
      (tbd.currentVersion,tbd.compatibilityVersion)) (hexports : tbd.exports.Perm exports) :
    finalVersions args tbd = finalVersions args { tbd with exports, weakExports := weak } := by
  apply library_versions_unique (h.library _ ((own_versions_read _ _).2 rfl))
  · exact library_versions_read _
  · rw [finalVersions, ← own_versions_perm hexports, names_perm hexports]
    exact library_versions_read _

theorem settled_perm {recorded : ℕ × ℕ} (hexports : tbd.exports.Perm exports)
    (h : Settled args {name | name ∈ tbd.exports} recorded) :
    Settled args {name | name ∈ exports} recorded := by
  rw [← names_perm hexports]
  exact h

theorem stub_same (h : Settled args {name | name ∈ tbd.exports}
      (tbd.currentVersion,tbd.compatibilityVersion))
    (hexports : tbd.exports.Perm exports) (hweak : tbd.weakExports.Perm weak) :
    Same (stub args tbd) (stub args { tbd with exports, weakExports := weak }) := by
  have hversions : finalVersions args tbd =
      finalVersions args { tbd with exports, weakExports := weak } := final_versions_perm h hexports
  rw [stub_eq, stub_eq, ← drops_perm hexports hweak, ← hversions]
  constructor
  · show (read args tbd.exports).renamedInstallName.getD _ = _
    rw [renamed_install_name_perm hexports]
  · rfl
  · rfl
  · intro name
    dsimp only
    rw [List.mem_append, List.mem_append, added_perm hexports]
    apply or_congr_left
    split_ifs
    · exact kept_perm hexports hexports name
    · exact hexports.mem_iff
  · intro name
    dsimp only
    split_ifs
    · exact kept_perm hexports hweak name
    · exact hweak.mem_iff
  · show (read args tbd.exports).renamedInstallName.isSome = _
    rw [renamed_install_name_perm hexports]
    rfl
  · intro m
    have hlibrary : LibraryVersions args {name | name ∈ tbd.exports} (ownVersions args tbd)
        (finalVersions args tbd) := library_versions_read _
    constructor
    · exact moved_settled h hexports hlibrary
    · have hown : ownVersions args tbd =
          ownVersions args { tbd with exports, weakExports := weak } := own_versions_perm hexports
      rw [names_perm hexports, hown] at hlibrary
      exact @moved_settled args { tbd with exports, weakExports := weak } tbd.exports
        (settled_perm hexports h) hexports.symm _ hlibrary m

theorem final_versions_first {p : PreviousDirective} (hexports : tbd.exports.Perm exports)
    (h : leastMet nameKey (exports.filterMap (moveOf args [])) = some (p.installName,p.version)) :
    finalVersions args { tbd with exports } = versionsOf (ownVersions args tbd) p.version := by
  have hown : ownVersions args { tbd with exports } = ownVersions args tbd :=
    (own_versions_perm hexports).symm
  rw [finalVersions, hown, LdSymbols.renamedVersion, read_previous, h]
  rfl

/-- Where every order says the same, each directive with the first install name is
the one that some order takes. -/
theorem settled_of_same (hsame : ∀ exports, tbd.exports.Perm exports →
      Same (stub args tbd) (stub args { tbd with exports })) :
    Settled args {name | name ∈ tbd.exports} (tbd.currentVersion,tbd.compatibilityVersion) := by
  have hfinal : ∀ exports, tbd.exports.Perm exports →
      finalVersions args { tbd with exports } = finalVersions args tbd := by
    intro exports hexports
    have h := hsame exports hexports
    rw [stub_eq, stub_eq] at h
    exact Prod.ext h.currentVersion.symm h.compatibilityVersion.symm
  have hlibrary : ∀ p q, First args {name | name ∈ tbd.exports} [] p →
      First args {name | name ∈ tbd.exports} [] q →
      versionsOf (ownVersions args tbd) p.version = versionsOf (ownVersions args tbd) q.version := by
    intro p q hp hq
    obtain ⟨lp,hlp,hleastp⟩ := first_taken hp
    obtain ⟨lq,hlq,hleastq⟩ := first_taken hq
    rw [← final_versions_first hlp hleastp, ← final_versions_first hlq hleastq, hfinal lp hlp,
      hfinal lq hlq]
  constructor
  · intro own hown
    rw [own_versions_read] at hown
    subst hown
    exact hlibrary
  · intro own versions hown hversions sym hsym p q hp hq
    rw [own_versions_read] at hown
    subst hown
    have heq : versions = finalVersions args tbd :=
      library_versions_unique hlibrary hversions (library_versions_read _)
    subst heq
    obtain ⟨lp,hlp,hleastp⟩ := first_taken hp
    obtain ⟨lq,hlq,hleastq⟩ := first_taken hq
    have hmovedp := (hsame lp hlp).moved
    have hmovedq := (hsame lq hlq).moved
    rw [stub_eq, stub_eq] at hmovedp hmovedq
    dsimp only at hmovedp hmovedq
    rw [hfinal lp hlp] at hmovedp
    rw [hfinal lq hlq] at hmovedq
    have hm : MovedExport.mk sym p.installName
        (versionsOf (finalVersions args tbd) p.version).1
        (versionsOf (finalVersions args tbd) p.version).2 ∈
        ((read args lq).finish (finalVersions args tbd).1 (finalVersions args tbd).2).moved := by
      rw [← hmovedq, hmovedp, mem_moved]
      exact ⟨hsym,p.version,hleastp,rfl⟩
    obtain ⟨-,version,hleast,hversion⟩ := (mem_moved _ _).1 hm
    rw [hleastq, Option.some_inj] at hleast
    obtain ⟨-,rfl⟩ := Prod.mk.inj hleast
    exact hversion

end Stubs

/-! ## Binaries -/

section Binaries
variable {args : Args} {image : DylibImage} {entries : List (Name × Bool × Bool)}

theorem sorted_perm {names names' : List Name} (h : names.Perm names') :
    names.mergeSort = names'.mergeSort := by
  have hsorted : ∀ l : List Name, l.mergeSort.Pairwise fun a b => a ≤ b := by
    intro l
    have h := @List.pairwise_mergeSort Name (fun a b => decide (a ≤ b))
      (by simp only [decide_eq_true_eq]; exact fun _ _ _ => List.le_trans)
      (by simp only [Bool.or_eq_true, decide_eq_true_eq]; exact List.le_total) l
    simpa only [decide_eq_true_eq] using h
  apply List.Perm.eq_of_pairwise (fun a b _ _ => List.le_antisymm) (hsorted names) (hsorted names')
  exact (List.mergeSort_perm _ _).trans (h.trans (List.mergeSort_perm _ _).symm)

/-- A binary's directives are read in the order of their names. -/
theorem binary_same (h : image.entries.Perm entries) :
    Same (binary args image) (binary args { image with entries }) := by
  have hnames := (h.map Prod.fst).filter isDirective
  have hkept := h.filter fun entry => !isDirective entry.1
  have hld : (readDylibBinary image).ldSymbols =
      (readDylibBinary { image with entries }).ldSymbols := by
    show ((_ : List Name).mergeSort).dedup = ((_ : List Name).mergeSort).dedup
    rw [sorted_perm hnames]
  constructor
  · show (read args (readDylibBinary image).ldSymbols).renamedInstallName.getD _ = _
    rw [hld]
    rfl
  · show (read args (readDylibBinary image).ldSymbols).renamedVersion.getD _ = _
    rw [hld]
    rfl
  · show (read args (readDylibBinary image).ldSymbols).renamedVersion.getD _ = _
    rw [hld]
    rfl
  · intro name
    show name ∈ (readDylibBinary image).exports.filter _ ++ _ ↔
      name ∈ (readDylibBinary { image with entries }).exports.filter _ ++ _
    rw [List.mem_append, List.mem_append, List.mem_filter, List.mem_filter, hld]
    exact or_congr_left (and_congr_left' (hkept.map Prod.fst).mem_iff)
  · intro name
    show name ∈ (readDylibBinary image).weakExports.filter _ ↔
      name ∈ (readDylibBinary { image with entries }).weakExports.filter _
    rw [List.mem_filter, List.mem_filter, hld]
    exact and_congr_left' ((hkept.filter _).map Prod.fst).mem_iff
  · show (read args (readDylibBinary image).ldSymbols).renamedInstallName.isSome = _
    rw [hld]
    rfl
  · intro m
    show m ∈ ((read args (readDylibBinary image).ldSymbols).finish _ _).moved ↔ _
    rw [hld]
    rfl

end Binaries

/-- A stub and a binary say the same whatever the order of their exports just when
the stub's directives with the first install name go with the same versions. -/
theorem directives_in_any_order (args : Args) (tbd : TbdFile) (image : DylibImage) :
    ((∀ exports weakExports, tbd.exports.Perm exports → tbd.weakExports.Perm weakExports →
        Same (stub args tbd) (stub args { tbd with exports, weakExports })) ∧
      ∀ entries, image.entries.Perm entries →
        Same (binary args image) (binary args { image with entries })) ↔
      Settled args {name | name ∈ tbd.exports} (tbd.currentVersion,tbd.compatibilityVersion) := by
  constructor
  · rintro ⟨hsame,-⟩
    exact settled_of_same fun exports hexports => hsame exports _ hexports (List.Perm.refl _)
  · intro h
    exact ⟨fun exports weakExports => stub_same h,fun entries => binary_same⟩

/-! Two directives that move an export to one library at two versions. -/

def atOne : Name := bytes "$ld$previous$/usr/lib/libold.dylib$1$1$10.0$14.0$_one$"
def atTwo : Name := bytes "$ld$previous$/usr/lib/libold.dylib$2$1$10.0$14.0$_one$"

def tiedStub (exports : List Name) : TbdFile :=
  { installName := bytes "/usr/lib/libnew.dylib", exports }

theorem first_met_version :
    ¬Same (stub ⟨1,0xd0000⟩ (tiedStub [atOne,atTwo])) (stub ⟨1,0xd0000⟩ (tiedStub [atTwo,atOne])) := by
  intro h
  have hone : 0x10000 ∈ (stub ⟨1,0xd0000⟩ (tiedStub [atOne,atTwo])).directives.moved.map
      MovedExport.currentVersion := by decide +kernel
  have htwo : 0x10000 ∉ (stub ⟨1,0xd0000⟩ (tiedStub [atTwo,atOne])).directives.moved.map
      MovedExport.currentVersion := by decide +kernel
  obtain ⟨m,hm,hversion⟩ := List.mem_map.1 hone
  exact htwo (List.mem_map.2 ⟨m,(h.moved m).1 hm,hversion⟩)

end MoldMacho.Tapi
