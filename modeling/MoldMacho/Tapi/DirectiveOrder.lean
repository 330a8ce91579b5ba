import Mathlib.Data.List.Lex
import Mathlib.Data.Set.Basic
import MoldMacho.Lib.Bytes
import MoldMacho.Lib.LeastMet
import MoldMacho.Tapi.LdSymbols

/-!
# The order of the directives

Of the directives of a kind, one is taken by its names, which all orders agree on.
The install names of the `$ld$previous` directives may tie, and of those the first
met gives its version.
-/

set_option autoImplicit false

namespace MoldMacho.Tapi
open MoldMacho.Chunks MoldMacho.Dylibs MoldMacho.LeastMet
open MoldMacho.Bytes (bytes_lt)

/-! ## What a name says -/

/-- The `$ld$previous` directive a name is, if it applies. -/
def previousOf (args : Args) (name : Name) : Option PreviousDirective :=
  (stripPrefix (bytes "$ld$") name).bind fun rest =>
    (stripPrefix (bytes "previous$") rest).bind fun rest =>
      (PreviousDirective.parse rest args.platform).filter fun p =>
        decide (p.lo ≤ args.platformMinos ∧ args.platformMinos < p.hi)

/-- The action and the argument of the other directives that apply. -/
def actionArg (args : Args) (name : Name) : Option (Name × Name) :=
  (stripPrefix (bytes "$ld$") name).bind fun rest =>
    if (stripPrefix (bytes "previous$") rest).isSome then none else actionOf args rest

def argOf (args : Args) (action : Name) (name : Name) : Option Name :=
  (actionArg args name).bind fun a => if a.1 = action then some a.2 else none

/-- The compatibility version a directive gives, with its name. -/
def compatOf (args : Args) (name : Name) : Option (Name × ℕ) :=
  (argOf args (bytes "compatibility_version") name).bind fun arg =>
    (directiveVersion arg).map (name,·)

/-- The install name and the version a directive gives to an export, or to the
library. -/
def moveOf (args : Args) (sym : Name) (name : Name) : Option (Name × Option ℕ) :=
  (previousOf args name).bind fun p =>
    if p.sym = sym then some (p.installName,p.version) else none

theorem read_name_cases (args : Args) (ld : Reading) (name : Name) :
    (∃ p, previousOf args name = some p ∧ actionArg args name = none ∧
      readName args ld name = obeyPrevious ld p) ∨
    (∃ action arg, previousOf args name = none ∧ actionArg args name = some (action,arg) ∧
      readName args ld name = obeyAction name ld action arg) ∨
    (previousOf args name = none ∧ actionArg args name = none ∧ readName args ld name = ld) := by
  rw [previousOf, actionArg, readName]
  cases stripPrefix (bytes "$ld$") name with
  | none => exact .inr (.inr ⟨rfl,rfl,rfl⟩)
  | some rest =>
    dsimp only [Option.bind_some]
    cases hprevious : stripPrefix (bytes "previous$") rest with
    | none =>
      simp only [Option.bind_none, Option.isSome_none, Bool.false_eq_true, if_false, readAction]
      cases actionOf args rest with
      | none => exact .inr (.inr ⟨trivial,rfl,rfl⟩)
      | some a => exact .inr (.inl ⟨a.1,a.2,trivial,rfl,rfl⟩)
    | some rest' =>
      simp only [Option.bind_some, Option.isSome_some, if_true, readPrevious]
      cases PreviousDirective.parse rest' args.platform with
      | none => exact .inr (.inr ⟨rfl,trivial,rfl⟩)
      | some p =>
        by_cases h : args.platformMinos < p.lo ∨ p.hi ≤ args.platformMinos
        · exact .inr (.inr ⟨by simp; omega,trivial,if_pos h⟩)
        · exact .inl ⟨p,by simp; omega,trivial,if_neg h⟩

/-- Only a `$ld$` name is a directive. -/
theorem read_name_other (args : Args) (ld : Reading) {name : Name}
    (h : isDirective name = false) : readName args ld name = ld := by
  have hstrip : stripPrefix (bytes "$ld$") name = none := by
    rw [stripPrefix, if_neg (by rw [← isDirective, h]; decide)]
  rw [readName, hstrip]

/-! ## One name -/

section OneName
variable (args : Args) (ld : Reading) (name : Name)

def argKey (arg : Name) : (List ℕ)ᵒᵈ := OrderDual.toDual (arg.map UInt8.toNat)

def nameKey {β : Type} (m : Name × β) : List ℕ := m.1.map UInt8.toNat

theorem arg_key_lt {a b : Name} : argKey a < argKey b ↔ b < a := by
  rw [argKey, argKey, OrderDual.toDual_lt_toDual, bytes_lt]

theorem name_key_lt {β : Type} {a b : Name × β} : nameKey a < nameKey b ↔ a.1 < b.1 := bytes_lt.symm

theorem added_step :
    (readName args ld name).added = ld.added ++ (argOf args (bytes "add") name).toList := by
  rcases read_name_cases args ld name with ⟨p,-,ha,h⟩ | ⟨action,arg,-,ha,h⟩ | ⟨-,ha,h⟩
  · rw [h, argOf, ha, obeyPrevious]
    split_ifs <;> simp
  · rw [h, argOf, ha, obeyAction]
    by_cases hadd : action = bytes "add"
    · simp [hadd]
    · simp only [if_neg hadd, Option.bind_some]
      (repeat' split) <;> simp
  · rw [h, argOf, ha]
    simp

theorem hidden_step (sym : Name) :
    sym ∈ (readName args ld name).hidden ↔
      argOf args (bytes "hide") name = some sym ∨ sym ∈ ld.hidden := by
  rcases read_name_cases args ld name with ⟨p,-,ha,h⟩ | ⟨action,arg,-,ha,h⟩ | ⟨-,ha,h⟩
  · rw [h, argOf, ha, obeyPrevious]
    split_ifs <;> simp
  · rw [h, argOf, ha, obeyAction]
    by_cases hadd : action = bytes "add"
    · simp [hadd, show bytes "add" ≠ bytes "hide" by decide]
    by_cases hhide : action = bytes "hide"
    · simp [hhide, show bytes "hide" ≠ bytes "add" by decide, eq_comm]
    · simp only [if_neg hadd, if_neg hhide, Option.bind_some]
      (repeat' split) <;> simp
  · rw [h, argOf, ha]
    simp

theorem install_name_step :
    (readName args ld name).installName =
      (argOf args (bytes "install_name") name).toList.foldl (meet argKey) ld.installName := by
  rcases read_name_cases args ld name with ⟨p,-,ha,h⟩ | ⟨action,arg,-,ha,h⟩ | ⟨-,ha,h⟩
  · rw [h, argOf, ha, obeyPrevious]
    split_ifs <;> rfl
  · rw [h, argOf, ha]
    by_cases hinstall : action = bytes "install_name"
    · rw [hinstall, obeyAction, if_neg (by decide), if_neg (by decide), if_pos rfl]
      cases hlast : ld.installName with
      | none => simp [meet]
      | some last =>
        simp only [Option.mem_def, Option.some.injEq, forall_eq', Option.bind_some, if_true,
          Option.toList_some, List.foldl_cons, List.foldl_nil, meet, arg_key_lt]
        split_ifs
        · rfl
        · exact hlast
    · rw [obeyAction]
      simp only [if_neg hinstall, Option.bind_some]
      (repeat' split) <;> rfl
  · rw [h, argOf, ha]
    rfl

theorem previous_step :
    (readName args ld name).previous =
      (moveOf args [] name).toList.foldl (meet nameKey) ld.previous := by
  rcases read_name_cases args ld name with ⟨p,hp,-,h⟩ | ⟨action,arg,hp,-,h⟩ | ⟨hp,-,h⟩
  · rw [h, moveOf, hp, obeyPrevious]
    by_cases hsym : p.sym = []
    · rw [if_pos hsym]
      cases hfirst : ld.previous with
      | none => simp [meet, hsym]
      | some first =>
        simp only [Option.mem_def, Option.some.injEq, forall_eq', Option.bind_some, hsym, if_true,
          Option.toList_some, List.foldl_cons, List.foldl_nil, meet, name_key_lt]
        split_ifs
        · rfl
        · exact hfirst
    · simp [hsym]
  · rw [h, moveOf, hp, obeyAction]
    (repeat' split) <;> rfl
  · rw [h, moveOf, hp]
    rfl

theorem compatibility_version_step :
    (readName args ld name).compatibilityVersion =
      (compatOf args name).toList.foldl (meet nameKey) ld.compatibilityVersion := by
  rcases read_name_cases args ld name with ⟨p,-,ha,h⟩ | ⟨action,arg,-,ha,h⟩ | ⟨-,ha,h⟩
  · rw [h, compatOf, argOf, ha, obeyPrevious]
    split_ifs <;> rfl
  · rw [h, compatOf, argOf, ha]
    by_cases hcompat : action = bytes "compatibility_version"
    · rw [hcompat, obeyAction, if_neg (by decide), if_neg (by decide), if_neg (by decide),
        if_pos rfl]
      simp only [Option.bind_some, if_true]
      cases directiveVersion arg with
      | none => simp
      | some version =>
        cases hfirst : ld.compatibilityVersion with
        | none => simp [meet]
        | some first =>
          simp only [Option.mem_def, Option.some.injEq, forall_eq', Option.map_some,
            Option.toList_some, List.foldl_cons, List.foldl_nil, meet, name_key_lt]
          split_ifs
          · rfl
          · exact hfirst
    · rw [obeyAction]
      simp only [if_neg hcompat, Option.bind_some]
      (repeat' split) <;> rfl
  · rw [h, compatOf, argOf, ha]
    rfl

theorem lookup_entry {β : Type} (e : Name × β) (entries : List (Name × β)) (sym : Name) :
    (e::entries).lookup sym = if e.1 = sym then some e.2 else entries.lookup sym := by
  obtain ⟨key,value⟩ := e
  rw [List.lookup_cons]
  by_cases h : key = sym
  · simp [h]
  · rw [if_neg h, beq_eq_false_iff_ne.2 (Ne.symm h)]

theorem move_export_lookup (moved : List (Name × Name × Option ℕ)) (m : Name × Name × Option ℕ)
    (sym : Name) :
    (moveExport moved m).lookup sym =
      if m.1 = sym then meet nameKey (moved.lookup sym) m.2 else moved.lookup sym := by
  induction moved with
  | nil => exact lookup_entry m [] sym
  | cons old moved ih =>
    rw [moveExport]
    by_cases hold : old.1 = m.1
    · rw [if_pos hold, lookup_entry, lookup_entry]
      by_cases hsym : m.1 = sym
      · rw [if_pos hsym, if_pos (hold.trans hsym)]
        simp only [meet, name_key_lt]
        split_ifs with hlt hkey
        · rfl
        · rfl
        · exact absurd (hold.trans hsym) hkey
      · have hne : ¬(if m.2.1 < old.2.1 then m else old).1 = sym := by
          split_ifs
          · exact hsym
          · exact hold ▸ hsym
        rw [if_neg hsym, if_neg hne, if_neg (hold ▸ hsym)]
    · rw [if_neg hold, lookup_entry, lookup_entry, ih]
      by_cases hsym : old.1 = sym
      · rw [if_pos hsym, if_neg fun h => hold (hsym.trans h.symm)]
        simp [hsym]
      · simp [hsym]

theorem move_export_keys (moved : List (Name × Name × Option ℕ)) (m : Name × Name × Option ℕ) :
    (moveExport moved m).map Prod.fst =
      if m.1 ∈ moved.map Prod.fst then moved.map Prod.fst else moved.map Prod.fst ++ [m.1] := by
  induction moved with
  | nil => rfl
  | cons old moved ih =>
    rw [moveExport]
    by_cases hold : old.1 = m.1
    · rw [if_pos hold]
      split_ifs <;> simp_all
    · rw [if_neg hold, List.map_cons, ih]
      have hne : m.1 ≠ old.1 := fun h => hold h.symm
      split_ifs <;> simp_all

theorem moved_step (sym : Name) (hsym : sym ≠ []) :
    (readName args ld name).moved.lookup sym =
      (moveOf args sym name).toList.foldl (meet nameKey) (ld.moved.lookup sym) := by
  rcases read_name_cases args ld name with ⟨p,hp,-,h⟩ | ⟨action,arg,hp,-,h⟩ | ⟨hp,-,h⟩
  · rw [h, moveOf, hp, obeyPrevious]
    by_cases hwhole : p.sym = []
    · have hne : p.sym ≠ sym := fun h => hsym (h ▸ hwhole)
      rw [if_pos hwhole, Option.bind_some, if_neg hne]
      split_ifs <;> rfl
    · rw [if_neg hwhole]
      dsimp only
      rw [move_export_lookup, Option.bind_some]
      split_ifs <;> rfl
  · rw [h, moveOf, hp, obeyAction]
    (repeat' split) <;> rfl
  · rw [h, moveOf, hp]
    rfl

theorem moved_keys_step (h : (ld.moved.map Prod.fst).Nodup ∧ ∀ m ∈ ld.moved, m.1 ≠ []) :
    ((readName args ld name).moved.map Prod.fst).Nodup ∧
      ∀ m ∈ (readName args ld name).moved, m.1 ≠ [] := by
  rw [← List.forall_mem_map (P := (· ≠ []))] at h ⊢
  rcases read_name_cases args ld name with ⟨p,-,-,hp⟩ | ⟨action,arg,-,-,hp⟩ | ⟨-,-,hp⟩
  · rw [hp, obeyPrevious]
    by_cases hwhole : p.sym = []
    · rw [if_pos hwhole]
      split_ifs <;> exact h
    · rw [if_neg hwhole]
      dsimp only
      rw [move_export_keys]
      split_ifs with hmem
      · exact h
      · refine ⟨List.nodup_append.2 ⟨h.1,List.nodup_singleton _,?_⟩,?_⟩
        · rintro a ha b hb rfl
          exact hmem (List.mem_singleton.1 hb ▸ ha)
        · rw [List.forall_mem_append]
          exact ⟨h.2,by simpa using hwhole⟩
  · rw [hp, obeyAction]
    (repeat' split) <;> exact h
  · rw [hp]
    exact h

end OneName

/-! ## All names -/

section AllNames
variable (args : Args) (names : List Name)

/-- A field that each name's own part is folded into. -/
theorem read_field {α β : Type} (field : Reading → β) (part : Name → Option α) (fold : β → α → β)
    (hstep : ∀ ld name,
      field (readName args ld name) = (part name).toList.foldl fold (field ld)) (ld : Reading) :
    field (names.foldl (readName args) ld) = (names.filterMap part).foldl fold (field ld) := by
  induction names generalizing ld with
  | nil => rfl
  | cons name names ih =>
    rw [List.foldl_cons, ih, hstep]
    cases hpart : part name with
    | none => rw [List.filterMap_cons_none hpart]; rfl
    | some a => rw [List.filterMap_cons_some hpart]; rfl

theorem read_added (sym : Name) :
    sym ∈ (read args names).added ↔ ∃ name ∈ names, argOf args (bytes "add") name = some sym := by
  have h := read_field args names Reading.added (argOf args (bytes "add"))
    (fun added arg => added ++ [arg])
    (fun ld name => by rw [added_step]; cases argOf args (bytes "add") name <;> simp) {}
  show sym ∈ (names.foldl (readName args) {}).added ↔ _
  rw [h, List.foldl_append_eq_append, List.mem_append, List.mem_flatten]
  simp [List.mem_filterMap]

theorem hidden_run (sym : Name) (ld : Reading) :
    sym ∈ (names.foldl (readName args) ld).hidden ↔
      (∃ name ∈ names, argOf args (bytes "hide") name = some sym) ∨ sym ∈ ld.hidden := by
  induction names generalizing ld with
  | nil => simp
  | cons name names ih =>
    rw [List.foldl_cons, ih, hidden_step, List.exists_mem_cons_iff, or_assoc, or_left_comm]

theorem read_hidden (sym : Name) :
    sym ∈ (read args names).hidden ↔ ∃ name ∈ names, argOf args (bytes "hide") name = some sym := by
  show sym ∈ (names.foldl (readName args) {}).hidden ↔ _
  rw [hidden_run, or_iff_left List.not_mem_nil]

theorem read_install_name : (read args names).installName =
    leastMet argKey (names.filterMap (argOf args (bytes "install_name"))) :=
  read_field args names Reading.installName _ _ (fun ld name => install_name_step args ld name) {}

theorem read_previous : (read args names).previous =
    leastMet nameKey (names.filterMap (moveOf args [])) :=
  read_field args names Reading.previous _ _ (fun ld name => previous_step args ld name) {}

theorem read_compatibility_version : (read args names).compatibilityVersion =
    (leastMet nameKey (names.filterMap (compatOf args))).map Prod.snd :=
  congrArg (Option.map Prod.snd) (read_field args names Reading.compatibilityVersion _ _
    (fun ld name => compatibility_version_step args ld name) {})

theorem moved_keys_run (ld : Reading)
    (h : (ld.moved.map Prod.fst).Nodup ∧ ∀ m ∈ ld.moved, m.1 ≠ []) :
    ((names.foldl (readName args) ld).moved.map Prod.fst).Nodup ∧
      ∀ m ∈ (names.foldl (readName args) ld).moved, m.1 ≠ [] := by
  induction names generalizing ld with
  | nil => exact h
  | cons name names ih => exact ih _ (moved_keys_step args ld name h)

theorem lookup_mem {β : Type} {entries : List (Name × β)} (h : (entries.map Prod.fst).Nodup)
    (sym : Name) (value : β) : (sym,value) ∈ entries ↔ entries.lookup sym = some value := by
  induction entries with
  | nil => simp
  | cons e entries ih =>
    obtain ⟨hnot,hrest⟩ := List.nodup_cons.1 h
    rw [lookup_entry, List.mem_cons]
    by_cases hsym : e.1 = sym
    · have habsent : (sym,value) ∉ entries :=
        fun hmem => hnot (hsym ▸ List.mem_map_of_mem (f := Prod.fst) hmem)
      rw [if_pos hsym, Option.some_inj, or_iff_left habsent, ← hsym]
      exact ⟨fun heq => by rw [← heq],fun heq => by rw [← heq]⟩
    · rw [if_neg hsym, ← ih hrest, or_iff_right]
      rintro rfl
      exact hsym rfl

/-- The moved exports: each with the first of the least install names. -/
theorem read_moved (sym : Name) (m : Name × Option ℕ) :
    (sym,m) ∈ (read args names).moved ↔
      sym ≠ [] ∧ leastMet nameKey (names.filterMap (moveOf args sym)) = some m := by
  obtain ⟨hnodup,hkeys⟩ := moved_keys_run args names {} ⟨List.nodup_nil,by simp⟩
  by_cases hsym : sym = []
  · exact ⟨fun h => absurd hsym (hkeys _ h),fun h => absurd hsym h.1⟩
  · have h := read_field args names (fun ld => ld.moved.lookup sym) (moveOf args sym)
      (meet nameKey) (fun ld name => moved_step args ld name sym hsym) {}
    show (sym,m) ∈ (names.foldl (readName args) {}).moved ↔ _
    rw [lookup_mem hnodup, h, and_iff_right hsym]
    rfl

theorem read_filtered : read args (names.filter isDirective) = read args names := by
  have h : ∀ ld, (names.filter isDirective).foldl (readName args) ld =
      names.foldl (readName args) ld := by
    induction names with
    | nil => intro ld; rfl
    | cons name names ih =>
      intro ld
      cases hdir : isDirective name with
      | true => rw [List.filter_cons_of_pos hdir, List.foldl_cons, List.foldl_cons, ih]
      | false =>
        rw [List.filter_cons_of_neg (by rw [hdir]; decide), List.foldl_cons,
          read_name_other args ld hdir, ih]
  rw [read, read, h]

end AllNames

end MoldMacho.Tapi
