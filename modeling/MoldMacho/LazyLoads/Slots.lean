import Mathlib.Algebra.GroupWithZero.Nat
import Mathlib.Data.List.Flatten
import Mathlib.Data.List.Nodup
import MoldMacho.Chunks.Header
import MoldMacho.Lib.KeyIndex
import MoldMacho.Lib.Rows
import MoldMacho.Symbol
import MoldMacho.Util.Align

/-!
# The slots of the lazy dylibs

A dylib that is loaded lazily has a flag word, a record and a run of slots, one for
each symbol that the image uses of it, or two where a call has its own. They are in
the order of the first uses.
-/

set_option autoImplicit false

namespace MoldMacho.LazyLoads

open Symbols Align Chunks KeyIndex Rows

inductive LazyRef where
  | call
  | load
  | slot
  | cmp
  | unsupported
  deriving DecidableEq

/-- The subsection, the offset in it, the symbol, and how it is referred to. -/
structure LazyUseSite where
  isec : ℕ
  offset : ℕ
  sym : SymbolId
  how : LazyRef
  deriving DecidableEq

inductive LazyUse where
  | call
  | load (reg : ℕ) (site : Option (ℕ × ℕ))
  | cmp
  deriving DecidableEq

structure Target where
  /-- Whether the call helper of a symbol has a slot to itself. -/
  lazyCallOwnSlot : Bool
  lazyHelperSize : LazyUse → ℕ
  /-- The register that a load at an offset fills, and whether it needs a helper of
  its own; none where the source panics as the load is not all in the contents. -/
  lazyLoadSite : List UInt8 → ℕ → Option (ℕ × Bool)
  lazyRegisterName : ℕ → Name

structure Dylib where
  installName : Name
  isWeak : Bool
  isLazy : Bool

/-- What the pass reads of the link. -/
structure Context where
  names : SymbolId → Name
  files : SymbolId → Option FileId
  dylibs : List Dylib
  contents : ℕ → List UInt8
  isecNames : ℕ → Name
  numIsecs : ℕ

def Context.installName (ctx : Context) (d : ℕ) : Name :=
  (ctx.dylibs[d]?.map Dylib.installName).getD []

/-- A symbol, and whether the slot is the one of its call helper alone. -/
abbrev LazySlot := SymbolId × Bool

def lazySlot (E : Target) (id : SymbolId) (how : LazyRef) : LazySlot :=
  (id,E.lazyCallOwnSlot && how == .call)

/-! ## The dylibs used -/

structure Gathered where
  used : List ℕ := []
  byDylib : ℕ → List LazySlot := fun _ => []
  seen : List LazySlot := []

def gatherStep (E : Target) (ctx : Context) (g : Gathered) (u : LazyUseSite) : Gathered :=
  match ctx.files u.sym with
  | some (.dylib d) =>
    let slot := lazySlot E u.sym u.how
    if slot ∈ g.seen then g
    else
      { used := if g.byDylib d = [] then g.used ++ [d] else g.used
        byDylib := fun e => if e = d then g.byDylib d ++ [slot] else g.byDylib e
        seen := slot::g.seen }
  | _ => g

def gather (E : Target) (ctx : Context) (uses : List LazyUseSite) : Gathered :=
  uses.foldl (gatherStep E ctx) {}

/-- A slot is of the symbol of one of the uses, and of its dylib. -/
def Wanted (E : Target) (ctx : Context) (uses : List LazyUseSite) (d : ℕ) (slot : LazySlot) : Prop :=
  ∃ u ∈ uses, ctx.files u.sym = some (.dylib d) ∧ lazySlot E u.sym u.how = slot

/-- What has been gathered from the uses. -/
structure Gathered.Of (E : Target) (ctx : Context) (uses : List LazyUseSite) (g : Gathered) : Prop where
  used_nodup : g.used.Nodup
  used_iff : ∀ d, d ∈ g.used ↔ g.byDylib d ≠ []
  slots_nodup : ∀ d, (g.byDylib d).Nodup
  slot_iff : ∀ d slot, slot ∈ g.byDylib d ↔ Wanted E ctx uses d slot
  seen_iff : ∀ slot, slot ∈ g.seen ↔ ∃ d, slot ∈ g.byDylib d

variable {E : Target} {ctx : Context} {uses : List LazyUseSite}

theorem wanted_concat {u : LazyUseSite} {d : ℕ} {slot : LazySlot} :
    Wanted E ctx (uses ++ [u]) d slot ↔ Wanted E ctx uses d slot ∨
      ctx.files u.sym = some (.dylib d) ∧ lazySlot E u.sym u.how = slot := by
  simp only [Wanted, List.mem_append, List.mem_singleton, or_and_right, exists_or, exists_eq_left]

/-- The dylib of a slot is that of its symbol. -/
theorem Wanted.file {d : ℕ} {slot : LazySlot} (h : Wanted E ctx uses d slot) :
    ctx.files slot.1 = some (.dylib d) := by
  obtain ⟨u,-,hfile,rfl⟩ := h
  exact hfile

theorem wanted_concat_dylib {u : LazyUseSite} {d e : ℕ} {slot : LazySlot}
    (hd : ctx.files u.sym = some (.dylib d)) :
    Wanted E ctx (uses ++ [u]) e slot ↔
      Wanted E ctx uses e slot ∨ e = d ∧ slot = lazySlot E u.sym u.how := by
  rw [wanted_concat, hd, Option.some.injEq, FileId.dylib.injEq, eq_comm (a := d),
    eq_comm (b := slot)]

section Step
variable {g : Gathered} {u : LazyUseSite} {d : ℕ}

/-- A use of a symbol of no dylib changes nothing. -/
theorem gather_other (h : g.Of E ctx uses) (hfile : ∀ d, ctx.files u.sym ≠ some (.dylib d)) :
    (gatherStep E ctx g u).Of E ctx (uses ++ [u]) := by
  have hsame : gatherStep E ctx g u = g := by
    rw [gatherStep]
    split
    · next d hd => exact absurd hd (hfile d)
    · rfl
  rw [hsame]
  exact { h with
    slot_iff := fun d slot => by
      rw [wanted_concat, ← h.slot_iff]
      exact ⟨Or.inl,fun hor => hor.resolve_right fun hd => hfile d hd.1⟩ }

/-- A slot seen before changes nothing. -/
theorem gather_seen (h : g.Of E ctx uses) (hd : ctx.files u.sym = some (.dylib d))
    (hseen : lazySlot E u.sym u.how ∈ g.seen) :
    (gatherStep E ctx g u).Of E ctx (uses ++ [u]) := by
  have hsame : gatherStep E ctx g u = g := by
    rw [gatherStep, hd]
    exact if_pos hseen
  obtain ⟨e,he⟩ := (h.seen_iff _).1 hseen
  have hed : e = d := by
    have hfile := ((h.slot_iff _ _).1 he).file
    rw [lazySlot, hd] at hfile
    exact (FileId.dylib.inj (Option.some.inj hfile)).symm
  subst hed
  rw [hsame]
  exact { h with
    slot_iff := fun d slot => by
      rw [wanted_concat_dylib hd, ← h.slot_iff]
      refine ⟨Or.inl,fun hor => ?_⟩
      rcases hor with hin | ⟨rfl,rfl⟩
      · exact hin
      · exact he }

/-- A new slot is its dylib's last, and the dylib is used from its first slot on. -/
theorem gather_new (h : g.Of E ctx uses) (hd : ctx.files u.sym = some (.dylib d))
    (hseen : lazySlot E u.sym u.how ∉ g.seen) :
    (gatherStep E ctx g u).Of E ctx (uses ++ [u]) := by
  have hnew : ∀ e, lazySlot E u.sym u.how ∉ g.byDylib e := fun e he =>
    hseen ((h.seen_iff _).2 ⟨e,he⟩)
  have hstep : gatherStep E ctx g u =
      { used := if g.byDylib d = [] then g.used ++ [d] else g.used
        byDylib := fun e =>
          if e = d then g.byDylib d ++ [lazySlot E u.sym u.how] else g.byDylib e
        seen := lazySlot E u.sym u.how::g.seen } := by
    rw [gatherStep, hd]
    exact if_neg hseen
  rw [hstep]
  constructor
  case used_nodup =>
    dsimp only
    split
    case isTrue hnil =>
      refine List.nodup_append.2 ⟨h.used_nodup,List.nodup_singleton _,?_⟩
      rintro e he _ hmem rfl
      rw [List.mem_singleton] at hmem
      subst hmem
      exact (h.used_iff e).1 he hnil
    case isFalse => exact h.used_nodup
  case used_iff =>
    intro e
    dsimp only
    by_cases he : e = d
    · subst he
      rw [if_pos rfl]
      refine iff_of_true ?_ (List.append_ne_nil_of_right_ne_nil _ (List.cons_ne_nil _ _))
      split
      case isTrue => simp
      case isFalse hnil => exact (h.used_iff e).2 hnil
    · rw [if_neg he, ← h.used_iff]
      split
      case isTrue => simp [he]
      case isFalse => exact Iff.rfl
  case slots_nodup =>
    intro e
    dsimp only
    split
    case isTrue =>
      refine List.nodup_append.2 ⟨h.slots_nodup d,List.nodup_singleton _,?_⟩
      rintro slot hslot _ hmem rfl
      rw [List.mem_singleton] at hmem
      exact hnew d (hmem ▸ hslot)
    case isFalse => exact h.slots_nodup e
  case slot_iff =>
    intro e slot
    rw [wanted_concat_dylib hd, ← h.slot_iff]
    dsimp only
    by_cases he : e = d
    · subst he
      simp
    · simp [he]
  case seen_iff =>
    intro slot
    rw [List.mem_cons, h.seen_iff]
    dsimp only
    constructor
    · rintro (rfl | ⟨e,he⟩)
      · exact ⟨d,by simp⟩
      · refine ⟨e,?_⟩
        split
        case isTrue hed =>
          subst hed
          exact List.mem_append_left _ he
        case isFalse => exact he
    · rintro ⟨e,he⟩
      split at he
      case isTrue =>
        rcases List.mem_append.1 he with hin | hin
        · exact Or.inr ⟨d,hin⟩
        · exact Or.inl (List.mem_singleton.1 hin)
      case isFalse => exact Or.inr ⟨e,he⟩

end Step

theorem gather_step {g : Gathered} (h : g.Of E ctx uses) (u : LazyUseSite) :
    (gatherStep E ctx g u).Of E ctx (uses ++ [u]) := by
  by_cases hfile : ∃ d, ctx.files u.sym = some (.dylib d)
  · obtain ⟨d,hd⟩ := hfile
    by_cases hseen : lazySlot E u.sym u.how ∈ g.seen
    · exact gather_seen h hd hseen
    · exact gather_new h hd hseen
  · exact gather_other h fun d hd => hfile ⟨d,hd⟩

theorem gather_of (E : Target) (ctx : Context) (uses : List LazyUseSite) :
    (gather E ctx uses).Of E ctx uses := by
  induction uses using List.reverseRecOn with
  | nil =>
    constructor
    case used_nodup => exact List.nodup_nil
    case used_iff => simp [gather]
    case slots_nodup => exact fun _ => List.nodup_nil
    case slot_iff => simp [gather, Wanted]
    case seen_iff => simp [gather]
  | append_singleton uses u ih =>
    rw [gather, List.foldl_append]
    exact gather_step ih u

/-! ## Flags, slots and records -/

structure LazyDylib where
  dylib : ℕ
  /-- The subsection of its flag word. -/
  flag : ℕ
  /-- The symbols of its slots, which follow one another. -/
  syms : List SymbolId
  gotStart : ℕ
  /-- Where its record lies, and its size. -/
  offset : ℕ
  size : ℕ
  deriving DecidableEq

/-- The bytes of a record's words, names and their ends. -/
def recordLength (ctx : Context) (installName : Name) (syms : List SymbolId) : ℕ :=
  24+syms.length*4+installName.length+1+(syms.map fun id => (ctx.names id).length+1).sum

def recordSize (ctx : Context) (installName : Name) (syms : List SymbolId) : ℕ :=
  alignTo (recordLength ctx installName syms) 8 % 2^32

structure Slots where
  flags : ℕ → ℕ := fun _ => 2^32-1
  index : LazySlot → Option ℕ := fun _ => none
  lazyGotIdx : SymbolId → Option ℕ := fun _ => none
  slots : List (SymbolId × Name) := []
  extraLocalSyms : List (Name × ℕ) := []
  numIsecs : ℕ
  dylibs : List LazyDylib := []
  offset : ℕ := 0

/-- The part of a path after its last slash. -/
def leaf (path : Name) : Name := (path.reverse.takeWhile (· != 47)).reverse

def pushSlot (ctx : Context) (s : Slots) (slot : LazySlot) : Slots :=
  { s with
    index := fun k => if k = slot then some s.slots.length else s.index k
    lazyGotIdx := fun id => if id = slot.1 ∧ slot.2 = false then some s.slots.length else s.lazyGotIdx id
    slots := s.slots ++ [(slot.1,ctx.names slot.1 ++ bytes "$lazyGOT")] }

/-- A flag word is a new subsection. -/
def pushFlag (ctx : Context) (s : Slots) (d : ℕ) : Slots :=
  { s with
    flags := fun e => if e = d then s.numIsecs else s.flags e
    extraLocalSyms := s.extraLocalSyms ++
      [(bytes "_lazyLoadFlag$" ++ leaf (ctx.installName d),s.numIsecs)]
    numIsecs := s.numIsecs+1 }

def nextDylib (ctx : Context) (list : List LazySlot) (s : Slots) (d : ℕ) : LazyDylib where
  dylib := d
  flag := s.numIsecs
  syms := list.map Prod.fst
  gotStart := s.slots.length
  offset := s.offset
  size := recordSize ctx (ctx.installName d) (list.map Prod.fst)

def pushDylib (ctx : Context) (byDylib : ℕ → List LazySlot) (s : Slots) (d : ℕ) : Slots :=
  let next := nextDylib ctx (byDylib d) s d
  { (byDylib d).foldl (pushSlot ctx) (pushFlag ctx s d) with
    dylibs := s.dylibs ++ [next]
    offset := s.offset+next.size }

def createLazyLoadSlots (E : Target) (ctx : Context) (uses : List LazyUseSite) : Slots :=
  let g := gather E ctx uses
  g.used.foldl (pushDylib ctx g.byDylib) { numIsecs := ctx.numIsecs }

/-- The symbol whose loads go to a slot. -/
def LazySlot.loadSym (slot : LazySlot) : Option SymbolId := if slot.2 then none else some slot.1

/-- The tables have the slots, in order. -/
structure Slots.Have (ctx : Context) (s : Slots) (all : List LazySlot) : Prop where
  slots_eq : s.slots = all.map fun slot => (slot.1,ctx.names slot.1 ++ bytes "$lazyGOT")
  index_finds : Finds s.index some all
  got_finds : Finds s.lazyGotIdx LazySlot.loadSym all

theorem push_slot {s : Slots} {all : List LazySlot} {slot : LazySlot} (h : s.Have ctx all)
    (hnew : slot ∉ all) : (pushSlot ctx s slot).Have ctx (all ++ [slot]) := by
  have hlen : s.slots.length = all.length := by
    rw [h.slots_eq, List.length_map]
  constructor
  case slots_eq => simp [pushSlot, h.slots_eq]
  case index_finds =>
    simp only [pushSlot, hlen]
    exact h.index_finds.concat rfl fun b hb heq => hnew (Option.some.inj heq ▸ hb)
  case got_finds =>
    obtain ⟨id,own⟩ := slot
    cases own with
    | true => simpa [pushSlot] using h.got_finds.concat_none rfl
    | false =>
      simp only [pushSlot, hlen, and_true]
      refine h.got_finds.concat rfl ?_
      rintro ⟨id',own⟩ hb hkey
      cases own with
      | true => cases hkey
      | false =>
        cases hkey
        exact hnew hb

theorem push_slots {l : List LazySlot} {s : Slots} {all : List LazySlot} (h : s.Have ctx all)
    (hnew : (all ++ l).Nodup) : (l.foldl (pushSlot ctx) s).Have ctx (all ++ l) := by
  induction l generalizing s all with
  | nil =>
    rw [List.append_nil]
    exact h
  | cons slot l ih =>
    rw [List.append_cons] at hnew ⊢
    refine ih (push_slot h ?_) hnew
    intro hmem
    exact (List.nodup_append.1 (List.nodup_append.1 hnew).1).2.2 slot hmem slot
      (List.mem_singleton_self slot) rfl

theorem push_slots_frame (l : List LazySlot) (s : Slots) :
    (l.foldl (pushSlot ctx) s).flags = s.flags ∧
      (l.foldl (pushSlot ctx) s).numIsecs = s.numIsecs := by
  induction l generalizing s with
  | nil => exact ⟨rfl,rfl⟩
  | cons slot l ih => exact ih (pushSlot ctx s slot)

/-- What the tables are once the dylibs have theirs. -/
structure Slots.Of (ctx : Context) (byDylib : ℕ → List LazySlot) (done : List ℕ) (s : Slots) :
    Prop where
  have_slots : s.Have ctx (done.flatMap byDylib)
  dylibs_eq : s.dylibs.map LazyDylib.dylib = done
  got_tiles : Tiles LazyDylib.gotStart (fun r => r.syms.length) 0 s.dylibs s.slots.length
  record_tiles : Tiles LazyDylib.offset LazyDylib.size 0 s.dylibs s.offset
  flag_tiles : Tiles LazyDylib.flag (fun _ => 1) ctx.numIsecs s.dylibs s.numIsecs
  flag_eq : ∀ r ∈ s.dylibs, s.flags r.dylib = r.flag
  syms_eq : ∀ r ∈ s.dylibs, r.syms = (byDylib r.dylib).map Prod.fst
  size_eq : ∀ r ∈ s.dylibs, r.size = recordSize ctx (ctx.installName r.dylib) r.syms
  slot_at : ∀ r ∈ s.dylibs, ∀ (i : ℕ) slot, (byDylib r.dylib)[i]? = some slot →
    (done.flatMap byDylib)[r.gotStart+i]? = some slot

theorem push_dylib {byDylib : ℕ → List LazySlot} {done : List ℕ} {s : Slots} {d : ℕ}
    (h : s.Of ctx byDylib done) (hd : d ∉ done)
    (hnew : ((done ++ [d]).flatMap byDylib).Nodup) :
    (pushDylib ctx byDylib s d).Of ctx byDylib (done ++ [d]) := by
  have hall : (done ++ [d]).flatMap byDylib = done.flatMap byDylib ++ byDylib d := by simp
  rw [hall] at hnew
  have hhave : ((byDylib d).foldl (pushSlot ctx) (pushFlag ctx s d)).Have ctx
      (done.flatMap byDylib ++ byDylib d) :=
    push_slots ⟨h.have_slots.slots_eq,h.have_slots.index_finds,h.have_slots.got_finds⟩ hnew
  have hlen : s.slots.length = (done.flatMap byDylib).length := by
    rw [h.have_slots.slots_eq, List.length_map]
  have hold : ∀ r ∈ s.dylibs, r.dylib ∈ done := fun r hr =>
    h.dylibs_eq ▸ List.mem_map_of_mem hr
  obtain ⟨hflags,hisecs⟩ : (pushDylib ctx byDylib s d).flags = (pushFlag ctx s d).flags ∧
      (pushDylib ctx byDylib s d).numIsecs = (pushFlag ctx s d).numIsecs :=
    push_slots_frame (byDylib d) (pushFlag ctx s d)
  constructor
  case have_slots =>
    rw [hall]
    exact ⟨hhave.slots_eq,hhave.index_finds,hhave.got_finds⟩
  case dylibs_eq => simp [pushDylib, nextDylib, h.dylibs_eq]
  case got_tiles =>
    have hnext : (pushDylib ctx byDylib s d).slots.length =
        s.slots.length+((byDylib d).map Prod.fst).length := by
      rw [List.length_map, hlen, ← List.length_append]
      exact (congrArg List.length hhave.slots_eq).trans (List.length_map _)
    rw [hnext]
    exact h.got_tiles.concat (a := nextDylib ctx (byDylib d) s d) rfl
  case record_tiles => exact h.record_tiles.concat rfl
  case flag_tiles =>
    rw [hisecs]
    exact h.flag_tiles.concat (a := nextDylib ctx (byDylib d) s d) rfl
  all_goals
    intro r hr
    rcases List.mem_append.1 hr with hr | hr
  case flag_eq.inl =>
    have hne : r.dylib ≠ d := fun heq => hd (heq ▸ hold r hr)
    rw [hflags, pushFlag]
    exact (if_neg hne).trans (h.flag_eq r hr)
  case flag_eq.inr =>
    obtain rfl := List.mem_singleton.1 hr
    rw [hflags, pushFlag]
    exact if_pos rfl
  case syms_eq.inl => exact h.syms_eq r hr
  case syms_eq.inr =>
    obtain rfl := List.mem_singleton.1 hr
    rfl
  case size_eq.inl => exact h.size_eq r hr
  case size_eq.inr =>
    obtain rfl := List.mem_singleton.1 hr
    rfl
  case slot_at.inl =>
    intro i slot hslot
    have hin := h.slot_at r hr i slot hslot
    rw [hall, List.getElem?_append_left (List.getElem?_eq_some_iff.1 hin).1, hin]
  case slot_at.inr =>
    obtain rfl := List.mem_singleton.1 hr
    intro i slot hslot
    rw [hall]
    rw [nextDylib, hlen, List.getElem?_append_right (Nat.le_add_right _ _), Nat.add_sub_cancel_left]
    exact hslot

theorem push_dylibs {byDylib : ℕ → List LazySlot} {l done : List ℕ} {s : Slots}
    (h : s.Of ctx byDylib done) (hl : (done ++ l).Nodup)
    (hnew : ((done ++ l).flatMap byDylib).Nodup) :
    (l.foldl (pushDylib ctx byDylib) s).Of ctx byDylib (done ++ l) := by
  induction l generalizing s done with
  | nil =>
    rw [List.append_nil]
    exact h
  | cons d l ih =>
    rw [List.append_cons] at hl hnew ⊢
    refine ih (push_dylib h ?_ ?_) hl hnew
    · intro hd
      exact (List.nodup_append.1 (List.nodup_append.1 hl).1).2.2 d hd d
        (List.mem_singleton_self d) rfl
    · rw [List.flatMap_append] at hnew
      exact (List.nodup_append.1 hnew).1

/-- The slots of the dylibs differ. -/
theorem Gathered.Of.slots_nodup_all {g : Gathered} (h : g.Of E ctx uses) :
    (g.used.flatMap g.byDylib).Nodup := by
  rw [List.nodup_flatMap]
  refine ⟨fun d _ => h.slots_nodup d,h.used_nodup.imp fun {d e} hne => ?_⟩
  intro slot hd he
  have hfile := ((h.slot_iff _ _).1 hd).file
  rw [((h.slot_iff _ _).1 he).file] at hfile
  exact hne (FileId.dylib.inj (Option.some.inj hfile)).symm

theorem create_slots_of (E : Target) (ctx : Context) (uses : List LazyUseSite) :
    (createLazyLoadSlots E ctx uses).Of ctx (gather E ctx uses).byDylib (gather E ctx uses).used := by
  have hg := gather_of E ctx uses
  have hempty : Slots.Of ctx (gather E ctx uses).byDylib [] { numIsecs := ctx.numIsecs } := by
    constructor
    case have_slots => exact ⟨rfl,finds_nil _,finds_nil _⟩
    case dylibs_eq => rfl
    case got_tiles => rfl
    case record_tiles => rfl
    case flag_tiles => rfl
    all_goals exact nofun
  exact push_dylibs hempty hg.used_nodup hg.slots_nodup_all

end MoldMacho.LazyLoads
