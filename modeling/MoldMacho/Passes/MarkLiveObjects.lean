import Mathlib.Order.Bounds.Basic
import MoldMacho.Lib.Marking
import MoldMacho.Passes.ResolveSymbols

/-!
# Loading archive members

The walk from the live objects and the root symbols over the owners of what
they leave undefined. Whichever object the queue hands over next, the walk ends
with the least set of objects that holds these and is closed under such owners.
-/

set_option autoImplicit false

namespace MoldMacho.ResolveSymbols
open MoldMacho.Macho MoldMacho.Symbols MoldMacho.Definitions MoldMacho.Marking

/-- The objects, what each was loaded for, and those left to visit, the last
one queued first. -/
structure Walk where
  objs : List ObjectFile
  whyLoad : ℕ → Option Name
  queue : List ℕ

def isLive (objs : List ObjectFile) (i : ℕ) : Bool := objs[i]?.any ObjectFile.isReachable

section Code
variable (ctx : Context) (syms : SymbolId → Symbol)

/-- Makes live the archive member that defines a symbol something live wants,
if it is not yet. -/
def loadOwner (w : Walk) (id : SymbolId) : Walk :=
  match (syms id).file with
  | some (.obj owner) =>
    match w.objs[owner]? with
    | some obj =>
      if obj.isReachable then w
      else
        { objs := w.objs.set owner { obj with isReachable := true }
          whyLoad := Function.update w.whyLoad owner (some (ctx.symbols.name id))
          queue := owner::w.queue }
    | none => w
  | _ => w

/-- The entry point and the `-u` symbols. -/
def rootSymbols : List SymbolId :=
  ((if ctx.args.hasEntryPoint then [ctx.args.entry] else []) ++
    ctx.args.forcedUndefined).filterMap ctx.symbols.lookup

/-- The symbols that a live object wants loaded. A tentative definition wants no
other one. -/
def wanted (obj : ObjectFile) : List SymbolId :=
  (obj.globals.filter fun entry =>
    entry.msym.isUndef && !(entry.msym.isCommon && (syms entry.id).isCommon)).map Entry.id

def Walk.start : Walk :=
  (rootSymbols ctx).foldl (loadOwner ctx syms)
    { objs := ctx.objs, whyLoad := ctx.whyLoad
      queue := ((List.range ctx.objs.length).filter (isLive ctx.objs)).reverse }

/-- Visits an object out of the queue, which leaves `rest`. -/
def visit (w : Walk) (i : ℕ) (rest : List ℕ) : Walk :=
  ((w.objs[i]?.map (wanted syms)).getD []).foldl (loadOwner ctx syms) { w with queue := rest }

def markLoop : ℕ → Walk → Option Walk
  | 0, _ => none
  | fuel+1, w =>
    match w.queue with
    | [] => some w
    | i::rest => markLoop fuel (visit ctx syms w i rest)

def markLiveObjects (fuel : ℕ) : Option Walk := markLoop ctx syms fuel (Walk.start ctx syms)

/-! ## Any order of the queue -/

/-- Any object of the queue may be visited next. -/
inductive Visits : Walk → Walk → Prop where
  | take {w : Walk} {l r : List ℕ} {i : ℕ} (h : w.queue = l ++ i::r) :
      Visits w (visit ctx syms w i (l ++ r))

/-- A walk to its end, in any order. -/
structure Marked (w : Walk) : Prop where
  run : Relation.ReflTransGen (Visits ctx syms) (Walk.start ctx syms) w
  ended : w.queue = []

/-! ## What loading is for -/

/-- Whether a symbol's owner is an object, and this one. -/
structure Owns (i : ℕ) (id : SymbolId) : Prop where
  file : (syms id).file = some (.obj i)
  valid : i < ctx.objs.length

/-- A set of objects in which nothing is left to load: it holds those live
before and the owners of the root symbols, and of each object in it the owners
of what it leaves undefined, of a tentative definition unless that is all the
symbol has. -/
structure Loaded (live : Set ℕ) : Prop where
  before : ∀ i, isLive ctx.objs i = true → i ∈ live
  roots : ∀ id ∈ rootSymbols ctx, ∀ i, Owns ctx syms i id → i ∈ live
  owners : ∀ i ∈ live, ∀ obj, ctx.objs[i]? = some obj → ∀ entry ∈ obj.globals,
    entry.msym.isUndef = true → (entry.msym.isCommon = true → (syms entry.id).isCommon = false) →
    ∀ j, Owns ctx syms j entry.id → j ∈ live

/-- The objects that live ones load, as the edges of a graph. -/
def ownerOf (id : SymbolId) : Option ℕ :=
  match (syms id).file with
  | some (.obj owner) => if owner < ctx.objs.length then some owner else none
  | _ => none

def loadEdges (i : ℕ) : List ℕ :=
  ((ctx.objs[i]?.map (wanted syms)).getD []).filterMap (ownerOf ctx syms)

end Code

section Facts
variable {ctx : Context} {syms : SymbolId → Symbol}

theorem owner_of_iff {i : ℕ} {id : SymbolId} : ownerOf ctx syms id = some i ↔ Owns ctx syms i id := by
  unfold ownerOf
  constructor
  · intro h
    split at h
    · next owner hfile =>
      split at h
      · next hlt =>
        cases h
        exact ⟨hfile,hlt⟩
      · cases h
    · cases h
  · intro h
    rw [h.file]
    exact if_pos h.valid

theorem mem_wanted {obj : ObjectFile} {id : SymbolId} :
    id ∈ wanted syms obj ↔ ∃ entry ∈ obj.globals, entry.msym.isUndef = true ∧
      (entry.msym.isCommon = true → (syms entry.id).isCommon = false) ∧ entry.id = id := by
  rw [wanted, List.mem_map]
  constructor
  · rintro ⟨entry,hmem,rfl⟩
    obtain ⟨hglobal,hkeep⟩ := List.mem_filter.1 hmem
    obtain ⟨hundef,hcommon⟩ := (Bool.and_eq_true ..).mp hkeep
    refine ⟨entry,hglobal,hundef,?_,rfl⟩
    intro hc
    simpa [hc] using hcommon
  · rintro ⟨entry,hglobal,hundef,hcommon,rfl⟩
    refine ⟨entry,List.mem_filter.2 ⟨hglobal,?_⟩,rfl⟩
    cases hc : entry.msym.isCommon with
    | false => simp [hundef]
    | true => simp [hundef, hcommon hc]

/-- The sets with nothing left to load are those that hold the roots and are
closed under edges. -/
theorem loaded_iff {live : Set ℕ} : Loaded ctx syms live ↔
    {i | isLive ctx.objs i = true ∨ ∃ id ∈ rootSymbols ctx, ownerOf ctx syms id = some i} ⊆ live ∧
      Closed (loadEdges ctx syms) live := by
  constructor
  · intro h
    constructor
    · rintro i (hi | ⟨id,hid,hi⟩)
      · exact h.before i hi
      · exact h.roots id hid i (owner_of_iff.1 hi)
    · intro i hi j hj
      obtain ⟨id,hid,howner⟩ := List.mem_filterMap.1 hj
      cases hobj : ctx.objs[i]? with
      | none =>
        rw [hobj] at hid
        cases hid
      | some obj =>
        rw [hobj] at hid
        obtain ⟨entry,hentry,hundef,hcommon,rfl⟩ := mem_wanted.1 hid
        exact h.owners i hi obj hobj entry hentry hundef hcommon j (owner_of_iff.1 howner)
  · intro h
    constructor
    · exact fun i hi => h.1 (Or.inl hi)
    · exact fun id hid i hi => h.1 (Or.inr ⟨id,hid,owner_of_iff.2 hi⟩)
    · intro i hi obj hobj entry hentry hundef hcommon j hj
      apply h.2 i hi j
      rw [loadEdges, hobj]
      exact List.mem_filterMap.2
        ⟨entry.id,mem_wanted.2 ⟨entry,hentry,hundef,hcommon,rfl⟩,owner_of_iff.2 hj⟩

end Facts

/-! ## The walk as marking -/

section Marks
variable {ctx : Context} {syms : SymbolId → Symbol}

/-- An object less what loading changes of it. -/
def unloaded (obj : ObjectFile) : ObjectFile := { obj with isReachable := false }

/-- The walk only makes objects live. -/
def SameObjs (objs objs' : List ObjectFile) : Prop := objs.map unloaded = objs'.map unloaded

def liveObjs (objs : List ObjectFile) : Finset ℕ :=
  (Finset.range objs.length).filter fun i => isLive objs i = true

theorem is_live_iff {objs : List ObjectFile} {i : ℕ} :
    isLive objs i = true ↔ ∃ obj, objs[i]? = some obj ∧ obj.isReachable = true := by
  rw [isLive, Option.any_eq_true]

theorem is_live_lt {objs : List ObjectFile} {i : ℕ} (h : isLive objs i = true) :
    i < objs.length := by
  obtain ⟨obj,hobj,-⟩ := is_live_iff.1 h
  exact (List.getElem?_eq_some_iff.1 hobj).1

@[simp] theorem mem_live_objs {objs : List ObjectFile} {i : ℕ} :
    i ∈ liveObjs objs ↔ isLive objs i = true := by
  rw [liveObjs, Finset.mem_filter, Finset.mem_range]
  exact ⟨And.right,fun h => ⟨is_live_lt h,h⟩⟩

theorem SameObjs.length {objs objs' : List ObjectFile} (h : SameObjs objs objs') :
    objs.length = objs'.length := by
  simpa using congrArg List.length h

theorem SameObjs.get {objs objs' : List ObjectFile} (h : SameObjs objs objs') {i : ℕ}
    {obj : ObjectFile} (hi : objs[i]? = some obj) :
    ∃ obj', objs'[i]? = some obj' ∧ unloaded obj = unloaded obj' := by
  have hget := congrArg (fun l : List ObjectFile => l[i]?) h
  simp only [List.getElem?_map, hi, Option.map_some] at hget
  obtain ⟨obj',hobj',heq⟩ := Option.map_eq_some_iff.1 hget.symm
  exact ⟨obj',hobj',heq.symm⟩

theorem SameObjs.set {objs objs' : List ObjectFile} (h : SameObjs objs objs') {i : ℕ}
    {obj : ObjectFile} (hi : objs[i]? = some obj) :
    SameObjs (objs.set i { obj with isReachable := true }) objs' := by
  obtain ⟨hlt,rfl⟩ := List.getElem?_eq_some_iff.1 hi
  rw [SameObjs, List.map_set, ← h]
  apply List.ext_getElem?
  intro j
  rw [List.getElem?_set]
  split
  · next hij =>
    subst hij
    simp [hlt, unloaded]
  · rfl

/-- The walk over an object's symbols does not depend on what is loaded. -/
theorem SameObjs.wanted {objs objs' : List ObjectFile} (h : SameObjs objs objs') (i : ℕ) :
    objs[i]?.map (wanted syms) = objs'[i]?.map (wanted syms) := by
  have hget := congrArg (fun l : List ObjectFile => l[i]?.map (ResolveSymbols.wanted syms)) h
  simp only [List.getElem?_map, Option.map_map] at hget
  exact hget

theorem live_objs_set {objs : List ObjectFile} {i : ℕ} {obj : ObjectFile}
    (hi : objs[i]? = some obj) :
    liveObjs (objs.set i { obj with isReachable := true }) = insert i (liveObjs objs) := by
  obtain ⟨hlt,-⟩ := List.getElem?_eq_some_iff.1 hi
  ext j
  rw [Finset.mem_insert, mem_live_objs, mem_live_objs, isLive, isLive, List.getElem?_set]
  by_cases hij : i = j
  · subst hij
    simp [hlt]
  · simp [hij, Ne.symm hij]

/-- What loading a symbol's owner does to a walk: nothing if the owner is no
object or a live one. -/
theorem load_owner_cases (w : Walk) (hsame : SameObjs w.objs ctx.objs) (id : SymbolId) :
    (loadOwner ctx syms w id = w ∧ ∀ i, ownerOf ctx syms id = some i → isLive w.objs i = true) ∨
    ∃ owner obj, ownerOf ctx syms id = some owner ∧ w.objs[owner]? = some obj ∧
      obj.isReachable = false ∧
      loadOwner ctx syms w id =
        { objs := w.objs.set owner { obj with isReachable := true }
          whyLoad := Function.update w.whyLoad owner (some (ctx.symbols.name id))
          queue := owner::w.queue } := by
  unfold loadOwner
  split
  · next owner hfile =>
    split
    · next obj hobj =>
      have howner : ownerOf ctx syms id = some owner := by
        refine owner_of_iff.2 ⟨hfile,?_⟩
        rw [← hsame.length]
        exact (List.getElem?_eq_some_iff.1 hobj).1
      cases hlive : obj.isReachable with
      | true =>
        refine Or.inl ⟨if_pos rfl,?_⟩
        intro i hi
        obtain rfl := Option.some.inj (howner.symm.trans hi)
        exact is_live_iff.2 ⟨obj,hobj,hlive⟩
      | false => exact Or.inr ⟨owner,obj,howner,hobj,hlive,if_neg Bool.false_ne_true⟩
    · next hnone =>
      refine Or.inl ⟨rfl,?_⟩
      intro i hi
      have howns := owner_of_iff.1 hi
      have hii : owner = i := FileId.obj.inj (Option.some.inj (hfile.symm.trans howns.file))
      have hvalid := howns.valid
      rw [← hii, ← hsame.length] at hvalid
      exact absurd hnone (by simp [hvalid])
  · next hfile =>
    refine Or.inl ⟨rfl,?_⟩
    intro i hi
    exact absurd (owner_of_iff.1 hi).file (hfile i)

/-- The marks of a walk, and the visits it has left. -/
def toVisit (w : Walk) : Multiset (Work ℕ) := (w.queue : Multiset ℕ).map Work.expand

def toLook (ctx : Context) (syms : SymbolId → Symbol) (ids : List SymbolId) :
    Multiset (Work ℕ) :=
  ((ids.filterMap (ownerOf ctx syms)).map Work.look : Multiset (Work ℕ))

theorem to_look_none {id : SymbolId} (h : ownerOf ctx syms id = none) :
    toLook ctx syms [id] = 0 := by
  rw [toLook, List.filterMap_cons_none h]
  rfl

theorem to_look_some {id : SymbolId} {owner : ℕ} (h : ownerOf ctx syms id = some owner) :
    toLook ctx syms [id] = {.look owner} := by
  rw [toLook, List.filterMap_cons_some h]
  rfl

variable (syms) in
theorem load_owner_steps (w : Walk) (hsame : SameObjs w.objs ctx.objs) (id : SymbolId) :
    SameObjs (loadOwner ctx syms w id).objs ctx.objs ∧
    Steps (loadEdges ctx syms) ⟨liveObjs w.objs,toLook ctx syms [id] + toVisit w⟩
      ⟨liveObjs (loadOwner ctx syms w id).objs,toVisit (loadOwner ctx syms w id)⟩ := by
  rcases load_owner_cases w hsame id with ⟨hload,hlive⟩ | ⟨owner,obj,howner,hobj,hdead,hload⟩
  · rw [hload]
    refine ⟨hsame,?_⟩
    cases howner : ownerOf ctx syms id with
    | none =>
      rw [to_look_none howner, zero_add]
    | some owner =>
      rw [to_look_some howner, Multiset.singleton_add]
      exact .single (.seen _ _ _ (mem_live_objs.2 (hlive owner howner)))
  · rw [hload]
    refine ⟨hsame.set hobj,?_⟩
    have hnot : owner ∉ liveObjs w.objs := by
      rw [mem_live_objs, isLive, hobj]
      simp [hdead]
    have hvisit : toVisit { w with queue := owner::w.queue } = .expand owner ::ₘ toVisit w := by
      rw [toVisit, ← Multiset.cons_coe, Multiset.map_cons, toVisit]
    rw [live_objs_set hobj, to_look_some howner, Multiset.singleton_add]
    change Steps _ _ ⟨_,toVisit { w with queue := owner::w.queue }⟩
    rw [hvisit]
    exact .single (.mark _ _ _ hnot)

variable (syms) in
theorem load_owners_steps (ids : List SymbolId) (w : Walk) (hsame : SameObjs w.objs ctx.objs) :
    SameObjs (ids.foldl (loadOwner ctx syms) w).objs ctx.objs ∧
    Steps (loadEdges ctx syms) ⟨liveObjs w.objs,toLook ctx syms ids + toVisit w⟩
      ⟨liveObjs (ids.foldl (loadOwner ctx syms) w).objs,
        toVisit (ids.foldl (loadOwner ctx syms) w)⟩ := by
  induction ids generalizing w with
  | nil =>
    refine ⟨hsame,?_⟩
    rw [toLook, List.filterMap_nil, List.map_nil, Multiset.coe_nil, zero_add]
    exact .refl
  | cons id ids ih =>
    obtain ⟨hsame',hone⟩ := load_owner_steps syms w hsame id
    obtain ⟨hlast,hrest⟩ := ih (loadOwner ctx syms w id) hsame'
    refine ⟨hlast,?_⟩
    have hsplit : toLook ctx syms (id::ids) = toLook ctx syms [id] + toLook ctx syms ids := by
      rw [toLook, toLook, toLook, Multiset.coe_add, ← List.map_append, ← List.filterMap_append,
        List.singleton_append]
    have hframe := steps_frame hone (toLook ctx syms ids)
    rw [hsplit, add_right_comm]
    rw [add_comm (toVisit _)] at hframe
    exact hframe.trans hrest

/-- A visit follows the edges of an object. -/
theorem visit_steps {w w' : Walk} (hsame : SameObjs w.objs ctx.objs)
    (h : Visits ctx syms w w') :
    SameObjs w'.objs ctx.objs ∧
    Steps (loadEdges ctx syms) ⟨liveObjs w.objs,toVisit w⟩ ⟨liveObjs w'.objs,toVisit w'⟩ := by
  cases h with
  | @take l r i hqueue =>
    obtain ⟨hlast,hloads⟩ := load_owners_steps syms
      ((w.objs[i]?.map (wanted syms)).getD []) { w with queue := l ++ r } hsame
    refine ⟨hlast,.trans (.single ?_) hloads⟩
    have hvisit : toVisit w = .expand i ::ₘ toVisit { w with queue := l ++ r } := by
      simp only [toVisit, hqueue]
      rw [← Multiset.map_cons, Multiset.cons_coe, Multiset.coe_eq_coe.2 List.perm_middle]
    have hedges : toLook ctx syms ((w.objs[i]?.map (wanted syms)).getD []) =
        ((loadEdges ctx syms i).map Work.look : Multiset (Work ℕ)) := by
      rw [toLook, loadEdges, hsame.wanted]
    rw [hvisit, hedges]
    exact .expand _ _ _

/-! ## The walk ends -/

/-- The visits that are left, at most. -/
def weight (w : Walk) : ℕ := w.objs.countP (fun obj => !obj.isReachable) + w.queue.length

theorem load_owner_weight (w : Walk) (hsame : SameObjs w.objs ctx.objs) (id : SymbolId) :
    weight (loadOwner ctx syms w id) = weight w := by
  rcases load_owner_cases w hsame id with ⟨hload,-⟩ | ⟨owner,obj,-,hobj,hdead,hload⟩
  · rw [hload]
  · obtain ⟨hlt,rfl⟩ := List.getElem?_eq_some_iff.1 hobj
    have hpos : 0 < w.objs.countP fun obj => !obj.isReachable := by
      rw [List.countP_pos_iff]
      exact ⟨w.objs[owner],List.getElem_mem hlt,by simp [hdead]⟩
    rw [hload, weight, weight, List.countP_set hlt]
    simp only [hdead, Bool.not_false, Bool.not_true, if_true, Bool.false_eq_true, if_false,
      List.length_cons]
    omega

variable (syms) in
theorem load_owners_weight (ids : List SymbolId) (w : Walk) (hsame : SameObjs w.objs ctx.objs) :
    weight (ids.foldl (loadOwner ctx syms) w) = weight w := by
  induction ids generalizing w with
  | nil => rfl
  | cons id ids ih =>
    rw [List.foldl_cons, ih _ (load_owner_steps syms w hsame id).1, load_owner_weight w hsame]

theorem visit_weight {w w' : Walk} (hsame : SameObjs w.objs ctx.objs)
    (h : Visits ctx syms w w') : weight w' < weight w := by
  cases h with
  | @take l r i hqueue =>
    have hloads := load_owners_weight syms
      ((w.objs[i]?.map (wanted syms)).getD []) { w with queue := l ++ r } hsame
    rw [visit, hloads, weight, weight, hqueue]
    simp only [List.length_append, List.length_cons]
    omega

theorem visits_end (w : Walk) (hsame : SameObjs w.objs ctx.objs) :
    Acc (fun w' w => Visits ctx syms w w') w := by
  induction hn : weight w using Nat.strong_induction_on generalizing w with
  | h n ih =>
    constructor
    intro w' hvisit
    exact ih (weight w') (hn ▸ visit_weight hsame hvisit) w' (visit_steps hsame hvisit).1 rfl

/-- The loop of the code is one order of the visits. -/
theorem mark_loop_visits {fuel : ℕ} {w done : Walk} (h : markLoop ctx syms fuel w = some done) :
    Relation.ReflTransGen (Visits ctx syms) w done ∧ done.queue = [] := by
  induction fuel generalizing w with
  | zero => cases h
  | succ fuel ih =>
    rw [markLoop] at h
    split at h
    · next hqueue =>
      cases h
      exact ⟨.refl,hqueue⟩
    · next i rest hqueue =>
      obtain ⟨hrun,hended⟩ := ih h
      exact ⟨.head (Visits.take (l := []) hqueue) hrun,hended⟩

theorem mark_loop_some {fuel : ℕ} {w : Walk} (hsame : SameObjs w.objs ctx.objs)
    (hfuel : weight w < fuel) : ∃ done, markLoop ctx syms fuel w = some done := by
  induction fuel generalizing w with
  | zero => exact absurd hfuel (Nat.not_lt_zero _)
  | succ fuel ih =>
    rw [markLoop]
    split
    · exact ⟨w,rfl⟩
    · next i rest hqueue =>
      have hvisit : Visits ctx syms w (visit ctx syms w i rest) := Visits.take (l := []) hqueue
      have hless := visit_weight hsame hvisit
      exact ih (visit_steps hsame hvisit).1 (by omega)

/-! ## The least fixed point -/

theorem start_same : SameObjs (Walk.start ctx syms).objs ctx.objs := by
  have hsame : SameObjs ctx.objs ctx.objs := rfl
  exact (load_owners_steps syms (rootSymbols ctx)
    { objs := ctx.objs, whyLoad := ctx.whyLoad
      queue := ((List.range ctx.objs.length).filter (isLive ctx.objs)).reverse } hsame).1

theorem marked_same {w : Walk} (h : Marked ctx syms w) : SameObjs w.objs ctx.objs := by
  have hrun := h.run
  clear h
  induction hrun with
  | refl => exact start_same
  | tail _ hvisit ih => exact (visit_steps ih hvisit).1

theorem marked_steps {w : Walk} (h : Marked ctx syms w) :
    Steps (loadEdges ctx syms)
      ⟨liveObjs (Walk.start ctx syms).objs,toVisit (Walk.start ctx syms)⟩ ⟨liveObjs w.objs,0⟩ := by
  have hsteps : SameObjs w.objs ctx.objs ∧ Steps (loadEdges ctx syms)
      ⟨liveObjs (Walk.start ctx syms).objs,toVisit (Walk.start ctx syms)⟩
      ⟨liveObjs w.objs,toVisit w⟩ := by
    obtain ⟨hrun,-⟩ := h
    induction hrun with
    | refl => exact ⟨start_same,.refl⟩
    | tail _ hvisit ih =>
      obtain ⟨hsame,hone⟩ := visit_steps ih.1 hvisit
      exact ⟨hsame,ih.2.trans hone⟩
  have hdone : toVisit w = 0 := by
    rw [toVisit, h.ended]
    rfl
  rw [← hdone]
  exact hsteps.2

/-- Loading ends with the least set of objects in which nothing is left to
load. -/
theorem marked_least {w : Walk} (h : Marked ctx syms w) :
    IsLeast {live | Loaded ctx syms live} {i | isLive w.objs i = true} := by
  let queue := ((List.range ctx.objs.length).filter (isLive ctx.objs)).reverse
  obtain ⟨-,hroots⟩ := load_owners_steps syms (rootSymbols ctx)
    { objs := ctx.objs, whyLoad := ctx.whyLoad, queue } rfl
  have hreach := steps_reach_all (fun i => ?_) (hroots.trans (marked_steps h))
  · have hset : {i | isLive w.objs i = true} = Reach (loadEdges ctx syms)
        {i | isLive ctx.objs i = true ∨
          ∃ id ∈ rootSymbols ctx, ownerOf ctx syms id = some i} := by
      have hcoe : {i | isLive w.objs i = true} = (↑(liveObjs w.objs) : Set ℕ) := by
        ext i
        simp
      rw [hcoe, hreach]
      congr 1
      ext i
      simp [toLook, toVisit]
    constructor
    · rw [hset]
      exact loaded_iff.2 ⟨roots_subset_reach _,reach_closed _⟩
    · intro live hlive
      obtain ⟨hsub,hclosed⟩ := loaded_iff.1 hlive
      rw [hset]
      exact reach_least hsub hclosed
  · have hlt : isLive ctx.objs i = true → i < ctx.objs.length := is_live_lt
    simp [toLook, toVisit, queue]
    exact hlt

end Marks

end MoldMacho.ResolveSymbols
