import Mathlib.Data.Int.Order.Basic
import MoldMacho.Lib.Lists
import MoldMacho.Lib.StableSort
import MoldMacho.Symbol

/-!
# Dylib ordinals

A dylib's ordinal is the place of its load command. The ordinals are given
in the order the dylibs were named, and the load commands are written in
the order of the ordinals.
-/

set_option autoImplicit false

namespace MoldMacho.DylibOrdinals
open MoldMacho.Symbols MoldMacho.StableSort MoldMacho.Lists

/-- What binding reads of a `DylibFile`. -/
structure Dylib where
  /-- Taken at run time from the main executable, with no load command. -/
  isBundleLoader : Bool := false
  /-- Loaded at the first use, with no load command that has an ordinal. -/
  isLazy : Bool := false
  /-- A private re-export, whose imports bind to the image itself. -/
  bindsToImage : Bool := false
  namedAt : Option ℕ := none
  priority : ℕ := 0
  weakExports : List Name := []
  /-- The main executable's, until the dylibs get theirs. -/
  dylibIdx : ℤ := -1
  deriving DecidableEq

def Dylib.isLoaded (d : Dylib) : Bool := !d.isBundleLoader && !d.isLazy

/-- The indices of the dylibs that have a load command. -/
def loaded (dylibs : List Dylib) : List ℕ :=
  (List.range dylibs.length).filter fun i => dylibs[i]?.any (·.isLoaded)

def namedKey (dylibs : List Dylib) (i : ℕ) : ℕ :=
  (dylibs[i]?.map fun d => d.namedAt.getD d.priority).getD 0

/-- The order `assign_dylib_ordinals` returns. -/
def namedOrder (dylibs : List Dylib) : List ℕ := sortBy (namedKey dylibs) (loaded dylibs)

def clearLazy (d : Dylib) : Dylib := if d.isLazy then { d with dylibIdx := 0 } else d

/-- `assign_dylib_ordinals`. -/
def assignDylibOrdinals (dylibs : List Dylib) : List Dylib :=
  (namedOrder dylibs).zipIdx.foldl
    (fun dylibs e => dylibs.modify e.1 fun d => { d with dylibIdx := e.2+1 })
    (dylibs.map clearLazy)

def ordinalKey (dylibs : List Dylib) (i : ℕ) : ℤ := (dylibs[i]?.map (·.dylibIdx)).getD 0

/-- The dylibs in the order of their load commands. -/
def loadCommands (dylibs : List Dylib) : List ℕ := sortBy (ordinalKey dylibs) (loaded dylibs)

/-- Where dyld looks a symbol up. -/
inductive Library where
  /-- The dylib of a load command, by its index in the link. -/
  | dylib (d : ℕ)
  | self
  | mainExecutable
  | flatLookup
  | weakLookup
  deriving DecidableEq

/-- The library dyld takes an ordinal for. -/
def libraryOf (dylibs : List Dylib) (ord : ℤ) : Option Library :=
  if 0 < ord then (loadCommands dylibs)[(ord-1).toNat]?.map .dylib
  else if ord = 0 then some .self
  else if ord = -1 then some .mainExecutable
  else if ord = -2 then some .flatLookup
  else if ord = -3 then some .weakLookup
  else none

/-- The dylibs have their ordinals. A bundle loader is read with its own. -/
def Numbered (dylibs : List Dylib) : Prop :=
  ∃ given, dylibs = assignDylibOrdinals given ∧
    ∀ d ∈ given, d.isBundleLoader = true → d.dylibIdx = -1

/-- The library a dylib's ordinal is to stand for. -/
def Dylib.library (d : Dylib) (i : ℕ) : Library :=
  if d.isLazy then .self else if d.isBundleLoader then .mainExecutable else .dylib i

theorem clear_lazy_loaded {d : Dylib} (h : d.isLoaded = true) : clearLazy d = d := by
  have hlazy : d.isLazy = false := by
    rw [Dylib.isLoaded, Bool.and_eq_true] at h
    exact Bool.not_eq_true' _ ▸ h.2
  rw [clearLazy, hlazy]
  rfl

theorem mem_loaded {dylibs : List Dylib} {i : ℕ} :
    i ∈ loaded dylibs ↔ ∃ d, dylibs[i]? = some d ∧ d.isLoaded = true := by
  rw [loaded, List.mem_filter, List.mem_range, Option.any_eq_true]
  constructor
  · exact fun h => h.2
  · intro h
    obtain ⟨d,hd,hl⟩ := h
    exact ⟨(List.getElem?_eq_some_iff.1 hd).1,d,hd,hl⟩

theorem mem_named_order {dylibs : List Dylib} {i : ℕ} : i ∈ namedOrder dylibs ↔ i ∈ loaded dylibs :=
  mem_sort

theorem named_order_nodup (dylibs : List Dylib) : (namedOrder dylibs).Nodup :=
  (sort_perm _ _).nodup_iff.2 (List.nodup_range.filter _)

/-- A dylib gets the place at which it was named. -/
theorem assigned_at {dylibs : List Dylib} {i p : ℕ} {d : Dylib} (hd : dylibs[i]? = some d)
    (hp : (namedOrder dylibs)[p]? = some i) :
    (assignDylibOrdinals dylibs)[i]? = some { d with dylibIdx := p+1 } := by
  have hmem : i ∈ loaded dylibs := mem_named_order.1 (List.mem_of_getElem? hp)
  obtain ⟨e,he,hloaded⟩ := mem_loaded.1 hmem
  rw [hd, Option.some.injEq] at he
  subst he
  have hnodup : (namedOrder dylibs).zipIdx.Nodup := by
    apply List.Nodup.of_map Prod.fst
    rw [List.zipIdx_map_fst]
    exact named_order_nodup dylibs
  have hin : (i,p) ∈ (namedOrder dylibs).zipIdx := List.mem_zipIdx_iff_getElem?.2 hp
  rw [assignDylibOrdinals, foldl_modify _ (fun e : ℕ × ℕ => e.1), List.getElem?_map, hd,
    Option.map_some, Option.map_some, clear_lazy_loaded hloaded]
  congr 1
  refine foldl_change_once hnodup (fun e (d : Dylib) => { d with dylibIdx := e.2+1 }) hin
    (fun j hj hji => ?_) d
  have hj' := List.mem_zipIdx_iff_getElem?.1 hj
  have hplt := (List.getElem?_eq_some_iff.1 hp).1
  have : j.2 = p := by
    have hsame : (namedOrder dylibs)[j.2]? = (namedOrder dylibs)[p]? := by
      rw [hj', hp]
      exact congrArg some hji
    exact ((List.getElem?_inj hplt (named_order_nodup dylibs)).1 hsame.symm).symm
  exact Prod.ext hji this

/-- The others keep theirs, a lazy one's being the image's own. -/
theorem assigned_other {dylibs : List Dylib} {i : ℕ} (h : i ∉ loaded dylibs) :
    (assignDylibOrdinals dylibs)[i]? = dylibs[i]?.map clearLazy := by
  rw [assignDylibOrdinals, foldl_modify _ (fun e : ℕ × ℕ => e.1), List.getElem?_map]
  cases hd : dylibs[i]? with
  | none => rfl
  | some d =>
    rw [Option.map_some, Option.map_some]
    congr 1
    apply foldl_change_none
    intro e he hei
    apply h
    rw [← hei]
    exact mem_sort.1 (List.mem_of_getElem? (List.mem_zipIdx_iff_getElem?.1 he))

theorem assigned_length (dylibs : List Dylib) :
    (assignDylibOrdinals dylibs).length = dylibs.length := by
  have hfold : ∀ (l : List (ℕ × ℕ)) (acc : List Dylib),
      (l.foldl (fun dylibs e => dylibs.modify e.1 fun d => { d with dylibIdx := e.2+1 })
        acc).length = acc.length := by
    intro l
    induction l with
    | nil => exact fun _ => rfl
    | cons e l ih =>
      intro acc
      rw [List.foldl_cons, ih, List.length_modify]
  rw [assignDylibOrdinals, hfold, List.length_map]

theorem assigned_loaded (dylibs : List Dylib) :
    loaded (assignDylibOrdinals dylibs) = loaded dylibs := by
  rw [loaded, loaded, assigned_length]
  apply List.filter_congr
  intro i hi
  by_cases h : i ∈ loaded dylibs
  · obtain ⟨d,hd,hloaded⟩ := mem_loaded.1 h
    obtain ⟨p,hp⟩ := List.mem_iff_getElem?.1 (mem_named_order.2 h)
    rw [assigned_at hd hp, hd]
    rfl
  · rw [assigned_other h]
    cases dylibs[i]? with
    | none => rfl
    | some d =>
      rw [Option.map_some, Option.any_some, Option.any_some, clearLazy]
      split <;> rfl

/-- The load commands stand in the order the dylibs were named. -/
theorem load_commands_assigned (dylibs : List Dylib) :
    loadCommands (assignDylibOrdinals dylibs) = namedOrder dylibs := by
  have hkey : ∀ p i : ℕ, (namedOrder dylibs)[p]? = some i →
      ordinalKey (assignDylibOrdinals dylibs) i = p+1 := by
    intro p i hp
    obtain ⟨d,hd,-⟩ := mem_loaded.1 (mem_sort.1 (List.mem_of_getElem? hp))
    rw [ordinalKey, assigned_at hd hp]
    rfl
  have hperm : (loadCommands (assignDylibOrdinals dylibs)).Perm (namedOrder dylibs) := by
    rw [loadCommands, assigned_loaded]
    exact (sort_perm _ _).trans (sort_perm _ _).symm
  have hsorted : (namedOrder dylibs).Pairwise fun a b =>
      ordinalKey (assignDylibOrdinals dylibs) a < ordinalKey (assignDylibOrdinals dylibs) b := by
    rw [List.pairwise_iff_getElem]
    intro p q hp hq hpq
    rw [hkey p _ (List.getElem?_eq_getElem hp), hkey q _ (List.getElem?_eq_getElem hq)]
    omega
  refine hperm.eq_of_pairwise (fun a b _ hb hab hba => ?_) (sort_sorted _ _)
    (hsorted.imp fun h => h.le)
  have ha : a ∈ namedOrder dylibs := hperm.subset ‹_›
  obtain ⟨p,hp⟩ := List.mem_iff_getElem?.1 ha
  obtain ⟨q,hq⟩ := List.mem_iff_getElem?.1 hb
  have heq : p = q := by
    have := le_antisymm hab hba
    rw [hkey p a hp, hkey q b hq] at this
    omega
  rw [heq, hq, Option.some.injEq] at hp
  exact hp.symm

/-- The ordinal of a dylib leads to it. -/
theorem library_of_ordinal {dylibs : List Dylib} (h : Numbered dylibs) {i : ℕ} {d : Dylib}
    (hd : dylibs[i]? = some d) :
    libraryOf dylibs d.dylibIdx = some (d.library i) ∧ -1 ≤ d.dylibIdx ∧
      d.dylibIdx ≤ dylibs.length := by
  obtain ⟨given,rfl,hloader⟩ := h
  by_cases hi : i ∈ loaded given
  · obtain ⟨g,hg,hloaded⟩ := mem_loaded.1 hi
    obtain ⟨p,hp⟩ := List.mem_iff_getElem?.1 (mem_named_order.2 hi)
    rw [assigned_at hg hp, Option.some.injEq] at hd
    subst hd
    rw [Dylib.isLoaded, Bool.and_eq_true, Bool.not_eq_true', Bool.not_eq_true'] at hloaded
    have hlib : ({ g with dylibIdx := p+1 } : Dylib).library i = .dylib i := by
      simp [Dylib.library, hloaded]
    have hplace : ((p : ℤ)+1-1).toNat = p := by omega
    constructor
    · rw [libraryOf, if_pos (by dsimp only; omega), load_commands_assigned, hlib]
      dsimp only
      rw [hplace]
      exact congrArg (Option.map Library.dylib) hp
    · have hlt : p < (namedOrder given).length := (List.getElem?_eq_some_iff.1 hp).1
      have hle : (namedOrder given).length ≤ given.length := by
        rw [namedOrder, (sort_perm _ _).length_eq, loaded]
        exact (List.length_filter_le _ _).trans_eq List.length_range
      rw [assigned_length]
      dsimp only
      omega
  · rw [assigned_other hi, Option.map_eq_some_iff] at hd
    obtain ⟨g,hg,rfl⟩ := hd
    have hout : g.isLazy = true ∨ g.isLazy = false ∧ g.isBundleLoader = true := by
      have hnot : g.isLoaded ≠ true := fun hl => hi (mem_loaded.2 ⟨g,hg,hl⟩)
      rw [Dylib.isLoaded] at hnot
      cases hlazy : g.isLazy <;> cases hb : g.isBundleLoader <;> simp [hlazy, hb] at hnot ⊢
    rcases hout with hlazy | ⟨hlazy,hb⟩
    · simp [clearLazy, Dylib.library, libraryOf, hlazy]
    · have hidx := hloader g (List.mem_of_getElem? hg) hb
      simp [clearLazy, Dylib.library, libraryOf, hlazy, hb, hidx]

end MoldMacho.DylibOrdinals
