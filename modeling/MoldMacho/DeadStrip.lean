import Mathlib.Algebra.Order.Group.Multiset
import Mathlib.Data.Finset.Card
import Mathlib.Data.List.Basic
import Mathlib.Tactic.Abel
import MoldMacho.InputSections
import MoldMacho.Lib.Marking

/-!
# Dead stripping

Marking from the roots runs on many tasks. A task visits the sections of
its batch, descends a few levels into each, banks what lies deeper, and
hands the bank over as the batch of a new task. The serial walk and the
live-support pass follow the same edges one section at a time.
-/

set_option autoImplicit false

namespace MoldMacho.DeadStrip
open MoldMacho.InputSections MoldMacho.Marking

/-! Edges. An index out of its arena, at which the code would stop, has no
edge. -/

def symbolSection (ctx : Context) (id : ℕ) : Option ℕ := do
  (← ctx.symbols[id]?).inputSection

def relocEdge (ctx : Context) (file : ObjectFile) (rel : Reloc) : Option ℕ :=
  match rel.target with
  | .sym idx => do symbolSection ctx (← file.symbols[idx]?)
  | .section target => some target

/-- The LSDAs and the personality routine of one unwind record, with the
symbol naming it. -/
def recordEdges (ctx : Context) (rec : UnwindRecord) : List (ℕ × Option ℕ) :=
  let fde := rec.fde.bind fun i => ctx.fdes[i]?
  let cie := fde.bind fun f => ctx.cies[f.cie]?
  let personality := rec.personality.or (cie.bind fun c => c.personality)
  rec.lsda.toList.map (fun l => (l.1, none)) ++
    (fde.bind fun f => f.lsda).toList.map (fun l => (l.1, none)) ++
    (personality.bind fun p => (symbolSection ctx p).map fun t => (t, some p)).toList

def forEachUnwindEdge (ctx : Context) (isec : InputSection) : List (ℕ × Option ℕ) :=
  (isec.unwindRecords ctx).flatMap (recordEdges ctx)

/-- The subsections that subsection `id` references, in the order the code
calls back with them. -/
def forEachEdge (ctx : Context) (id : ℕ) : List ℕ :=
  match ctx.isecs[id]? with
  | none => []
  | some isec =>
    match ctx.objs[isec.file]? with
    | none => []
    | some file =>
      (isec.rels file).filterMap (relocEdge ctx file) ++
        (forEachUnwindEdge ctx isec).map Prod.fst

/-- Edges as the marking follows them, through the table of replacements. -/
def edges (ctx : Context) (redirects : ℕ → ℕ) (id : ℕ) : List ℕ :=
  (forEachEdge ctx id).map redirects

def gcBatch : ℕ := 16

/-- A call of `visit_section`: the targets it has yet to take, and its
depth. -/
structure Frame where
  targets : List ℕ
  depth : ℕ

/-- A task running `visit_batch`: its calls, innermost first, the work it
has banked, and the rest of its batch. -/
structure Task where
  frames : List Frame := []
  next : List ℕ := []
  batch : List ℕ := []

/-- Whether to descend into a section just visited or to bank it. -/
def descend (ctx : Context) (target depth : ℕ) (t : Task) : Task :=
  if depth < 3 then { t with frames := ⟨forEachEdge ctx target, depth+1⟩::t.frames }
  else { t with next := t.next ++ [target] }

/-- What a task does next, and the tasks it becomes. A task looks at one
visited bit at a time, so tasks can come in between any two. -/
def taskStep (ctx : Context) (redirects : ℕ → ℕ) (visited : Finset ℕ) :
    Task → Finset ℕ × List Task
  | ⟨⟨target::rest, depth⟩::frames, next, batch⟩ =>
    if redirects target ∈ visited then (visited, [⟨⟨rest, depth⟩::frames, next, batch⟩])
    else (insert (redirects target) visited,
      [descend ctx (redirects target) depth ⟨⟨rest, depth⟩::frames, next, batch⟩])
  | ⟨⟨[], _⟩::frames, next, batch⟩ => (visited, [⟨frames, next, batch⟩])
  | ⟨[], next, batch⟩ =>
    if gcBatch ≤ next.length then (visited, [⟨[], [], batch⟩, ⟨[], [], next⟩])
    else
      match batch with
      | id::batch => (visited, [⟨[⟨forEachEdge ctx id, 0⟩], next, batch⟩])
      | [] => (visited, if next = [] then [] else [⟨[], [], next⟩])

structure State where
  visited : Finset ℕ
  tasks : List Task

/-- Any task may run next. -/
inductive Step (ctx : Context) (redirects : ℕ → ℕ) : State → State → Prop where
  | run (visited : Finset ℕ) (l r : List Task) (t : Task) :
      Step ctx redirects ⟨visited, l ++ t::r⟩
        ⟨(taskStep ctx redirects visited t).1, l ++ (taskStep ctx redirects visited t).2 ++ r⟩

/-- `par_chunks`, of batches. -/
def parChunks (roots : List ℕ) : List (List ℕ) :=
  if roots = [] then [] else roots.take gcBatch :: parChunks (roots.drop gcBatch)
termination_by roots.length
decreasing_by
  have := List.length_pos_of_ne_nil ‹_›
  simp [gcBatch]
  omega

/-- `mark` opens a task for each batch of the roots. -/
def start (visited : Finset ℕ) (roots : List ℕ) : State :=
  ⟨visited, (parChunks roots).map fun batch => { batch := batch }⟩

/-- `enqueue` of `collect_root_set`. -/
def enqueue (redirects : ℕ → ℕ) (s : Finset ℕ × List ℕ) (id : ℕ) : Finset ℕ × List ℕ :=
  if redirects id ∈ s.1 then s else (insert (redirects id) s.1, s.2 ++ [redirects id])

/-- The marked roots and their list, of the sections `collect_root_set`
enqueues. -/
def collectRootSet (redirects : ℕ → ℕ) (ids : List ℕ) : Finset ℕ × List ℕ :=
  ids.foldl (enqueue redirects) (∅, [])

/-! The serial walk. -/

/-- Visits targets in order; the second part is what was found. -/
def visitTargets (redirects : ℕ → ℕ) : List ℕ → Finset ℕ → Finset ℕ × List ℕ
  | [], visited => (visited, [])
  | target::rest, visited =>
    if redirects target ∈ visited then visitTargets redirects rest visited
    else
      let (visited, found) := visitTargets redirects rest (insert (redirects target) visited)
      (visited, redirects target::found)

/-- Every section some edge leads to. -/
def targets (ctx : Context) (redirects : ℕ → ℕ) : Finset ℕ :=
  ((List.range ctx.isecs.length).flatMap (edges ctx redirects)).toFinset

theorem edges_targets (ctx : Context) (redirects : ℕ → ℕ) (id : ℕ) :
    ∀ y ∈ edges ctx redirects id, y ∈ targets ctx redirects := by
  intro y hy
  have hid : id < ctx.isecs.length := by
    by_contra hlt
    simp [edges, forEachEdge, List.getElem?_eq_none (Nat.le_of_not_lt hlt)] at hy
  simp only [targets, List.mem_toFinset, List.mem_flatMap, List.mem_range]
  exact ⟨id,hid,hy⟩

theorem visit_targets_count (redirects : ℕ → ℕ) (t : Finset ℕ) (ts : List ℕ) (visited : Finset ℕ)
    (ht : ∀ y ∈ ts, redirects y ∈ t) :
    (t \ (visitTargets redirects ts visited).1).card +
      (visitTargets redirects ts visited).2.length = (t \ visited).card := by
  induction ts generalizing visited with
  | nil => simp [visitTargets]
  | cons y ts ih =>
    have hts : ∀ z ∈ ts, redirects z ∈ t := fun z hz => ht z (by simp [hz])
    by_cases hy : redirects y ∈ visited
    · simpa [visitTargets, hy] using ih visited hts
    · have hone : (t \ insert (redirects y) visited).card + 1 = (t \ visited).card := by
        rw [Finset.sdiff_insert]
        exact Finset.card_erase_add_one (by simp [hy, ht y])
      have := ih (insert (redirects y) visited) hts
      simp only [visitTargets, hy, if_false, List.length_cons]
      omega

/-- `walk`, breadth first. -/
def walk (ctx : Context) (redirects : ℕ → ℕ) (visited : Finset ℕ) (queue : List ℕ) : Finset ℕ :=
  match queue with
  | [] => visited
  | id::queue =>
    let s := visitTargets redirects (forEachEdge ctx id) visited
    walk ctx redirects s.1 (queue ++ s.2)
termination_by (targets ctx redirects \ visited).card + queue.length
decreasing_by
  have := visit_targets_count redirects (targets ctx redirects) (forEachEdge ctx id) visited
    (fun y hy => edges_targets ctx redirects id _ (List.mem_map_of_mem hy))
  simp
  omega

/-! Live support and the sweep. -/

def isLiveSupport (ctx : Context) (isec : InputSection) : Bool :=
  isec.isAlive && ((ctx.objs[isec.file]?.bind fun file => file.sectHdrs[isec.shndx]?).any
    fun hdr => hdr.flags &&& 0x08000000 != 0)

/-- The turn of live-support section `id`. -/
def supportStep (ctx : Context) (redirects : ℕ → ℕ) (visited : Finset ℕ) (id : ℕ) : Finset ℕ :=
  if (edges ctx redirects id).any (· ∈ visited) ∧ redirects id ∉ visited then
    walk ctx redirects (insert (redirects id) visited) [redirects id]
  else visited

def liveSupport (ctx : Context) : List ℕ :=
  (List.range ctx.isecs.length).filter fun id => ctx.isecs[id]?.any (isLiveSupport ctx)

def markLiveSupport (ctx : Context) (redirects : ℕ → ℕ) (visited : Finset ℕ) : Finset ℕ :=
  (liveSupport ctx).foldl (supportStep ctx redirects) visited

/-- `sweep`, of the sections. -/
def sweep (visited : Finset ℕ) (isecs : List InputSection) : List InputSection :=
  isecs.mapIdx fun id isec => { isec with isAlive := decide (id ∈ visited) && isec.isAlive }

/-! The work a state owes. -/

def expands (ids : List ℕ) : Multiset (Work ℕ) := ↑(ids.map Work.expand)

def Frame.work (redirects : ℕ → ℕ) (f : Frame) : Multiset (Work ℕ) :=
  ↑(f.targets.map fun target => Work.look (redirects target))

def Task.work (redirects : ℕ → ℕ) (t : Task) : Multiset (Work ℕ) :=
  (t.frames.map (Frame.work redirects)).sum + expands t.next + expands t.batch

def work (redirects : ℕ → ℕ) (ts : List Task) : Multiset (Work ℕ) :=
  (ts.map (Task.work redirects)).sum

@[simp] theorem expands_nil : expands [] = 0 := rfl

@[simp] theorem expands_cons (id : ℕ) (ids : List ℕ) :
    expands (id::ids) = {.expand id} + expands ids := rfl

@[simp] theorem expands_append (ids ids' : List ℕ) :
    expands (ids ++ ids') = expands ids + expands ids' := by
  simp [expands, ← Multiset.coe_add]

@[simp] theorem frame_work_nil (redirects : ℕ → ℕ) (depth : ℕ) :
    Frame.work redirects ⟨[], depth⟩ = 0 := rfl

@[simp] theorem frame_work_cons (redirects : ℕ → ℕ) (target depth : ℕ) (rest : List ℕ) :
    Frame.work redirects ⟨target::rest, depth⟩ =
      {.look (redirects target)} + Frame.work redirects ⟨rest, depth⟩ := rfl

theorem expand_step (ctx : Context) (redirects : ℕ → ℕ) (visited : Finset ℕ) (id depth : ℕ)
    (w : Multiset (Work ℕ)) :
    Marking.Step (edges ctx redirects) ⟨visited, {.expand id} + w⟩
      ⟨visited, Frame.work redirects ⟨forEachEdge ctx id, depth⟩ + w⟩ := by
  have h : Marking.Step (edges ctx redirects) _ _ := .expand visited id w
  simpa [Frame.work, edges, Function.comp_def] using h

/-- Whether a section just visited is descended into or banked, the task
owes the expansion of it, done or not. -/
theorem descend_work (ctx : Context) (redirects : ℕ → ℕ) (visited : Finset ℕ)
    (target depth : ℕ) (t : Task) :
    Steps (edges ctx redirects) ⟨visited, {.expand target} + t.work redirects⟩
      ⟨visited, (descend ctx target depth t).work redirects⟩ := by
  by_cases h : depth < 3
  · have hs := expand_step ctx redirects visited target (depth+1) (t.work redirects)
    simpa [descend, h, Task.work, add_assoc] using Relation.ReflTransGen.single hs
  · have hw : {.expand target} + t.work redirects = (descend ctx target depth t).work redirects := by
      simp only [descend, h, if_false, Task.work, expands_append, expands_cons, expands_nil]
      abel
    rw [hw]

/-- A step of a task is some steps of the marker: none where work only
changes hands. -/
theorem task_step_work (ctx : Context) (redirects : ℕ → ℕ) (visited : Finset ℕ) (t : Task) :
    Steps (edges ctx redirects) ⟨visited, t.work redirects⟩
      ⟨(taskStep ctx redirects visited t).1,
        work redirects (taskStep ctx redirects visited t).2⟩ := by
  fun_cases taskStep with
  | case1 target rest depth frames next batch h =>
    have hs : Marking.Step (edges ctx redirects) _ _ := .seen visited (redirects target)
      (Task.work redirects ⟨⟨rest, depth⟩::frames, next, batch⟩) h
    simpa [work, Task.work, add_assoc] using Relation.ReflTransGen.single hs
  | case2 target rest depth frames next batch h =>
    have hs : Marking.Step (edges ctx redirects) _ _ := .mark visited (redirects target)
      (Task.work redirects ⟨⟨rest, depth⟩::frames, next, batch⟩) h
    have hd := descend_work ctx redirects (insert (redirects target) visited) (redirects target)
      depth ⟨⟨rest, depth⟩::frames, next, batch⟩
    have := hd.head hs
    simpa [work, Task.work, add_assoc] using this
  | case3 => simp [work, Task.work, Relation.ReflTransGen.refl]
  | case4 => simp [work, Task.work, add_comm, Relation.ReflTransGen.refl]
  | case5 next h id batch =>
    have hs := expand_step ctx redirects visited id 0 (expands next + expands batch)
    have hw : Task.work redirects ⟨[], next, id::batch⟩ =
        {.expand id} + (expands next + expands batch) := by
      simp [Task.work, add_left_comm]
    rw [hw]
    simpa [work, Task.work, add_assoc] using Relation.ReflTransGen.single hs
  | case6 next h =>
    cases next with
    | nil => simp [work, Task.work, Relation.ReflTransGen.refl]
    | cons id next => simp [work, Task.work, Relation.ReflTransGen.refl]

theorem work_split (redirects : ℕ → ℕ) (l ts r : List Task) :
    work redirects (l ++ ts ++ r) = work redirects ts + (work redirects l + work redirects r) := by
  simp only [work, List.map_append, List.sum_append]
  abel

theorem step_work {ctx : Context} {redirects : ℕ → ℕ} {s s' : State}
    (h : Step ctx redirects s s') :
    Steps (edges ctx redirects) ⟨s.visited, work redirects s.tasks⟩
      ⟨s'.visited, work redirects s'.tasks⟩ := by
  cases h with
  | run visited l r t =>
    have ht := steps_frame (task_step_work ctx redirects visited t)
      (work redirects l + work redirects r)
    have hw := work_split redirects l [t] r
    rw [List.append_assoc, List.singleton_append] at hw
    rw [hw, work_split]
    simpa [work] using ht

theorem run_work {ctx : Context} {redirects : ℕ → ℕ} {s s' : State}
    (h : Relation.ReflTransGen (Step ctx redirects) s s') :
    Steps (edges ctx redirects) ⟨s.visited, work redirects s.tasks⟩
      ⟨s'.visited, work redirects s'.tasks⟩ := by
  induction h with
  | refl => exact .refl
  | tail _ hs ih => exact ih.trans (step_work hs)

theorem start_work (redirects : ℕ → ℕ) (visited : Finset ℕ) (roots : List ℕ) :
    work redirects (start visited roots).tasks = expands roots := by
  unfold start
  fun_induction parChunks roots with
  | case1 => rfl
  | case2 roots h ih =>
    have hroots : roots.take gcBatch ++ roots.drop gcBatch = roots :=
      List.take_append_drop gcBatch roots
    simp only [work, List.map_cons, List.sum_cons] at ih ⊢
    rw [ih]
    conv_rhs => rw [← hroots, expands_append]
    simp [Task.work]

/-! The roots. -/

theorem enqueue_roots (redirects : ℕ → ℕ) (ids : List ℕ) (s : Finset ℕ × List ℕ)
    (hs : ∀ x, x ∈ s.2 ↔ x ∈ s.1) :
    (∀ x, x ∈ (ids.foldl (enqueue redirects) s).2 ↔ x ∈ (ids.foldl (enqueue redirects) s).1) ∧
      ∀ x, x ∈ (ids.foldl (enqueue redirects) s).1 ↔ x ∈ s.1 ∨ ∃ id ∈ ids, redirects id = x := by
  induction ids generalizing s with
  | nil => simpa using hs
  | cons id ids ih =>
    have he : ∀ x, x ∈ (enqueue redirects s id).1 ↔ x ∈ s.1 ∨ redirects id = x := by
      intro x
      by_cases h : redirects id ∈ s.1
      · grind [enqueue]
      · grind [enqueue]
    have hs' : ∀ x, x ∈ (enqueue redirects s id).2 ↔ x ∈ (enqueue redirects s id).1 := by
      intro x
      by_cases h : redirects id ∈ s.1
      · simp [enqueue, h, hs]
      · simp [enqueue, h, hs, or_comm]
    have hi := ih (enqueue redirects s id) hs'
    constructor
    · exact hi.1
    · intro x
      simp only [List.foldl_cons, hi.2, he, List.mem_cons, exists_eq_or_imp, or_assoc]

theorem roots_marked (redirects : ℕ → ℕ) (ids : List ℕ) :
    (↑(collectRootSet redirects ids).1 : Set ℕ) = {x | ∃ id ∈ ids, redirects id = x} := by
  ext x
  have h := (enqueue_roots redirects ids (∅, []) (by simp)).2 x
  simpa [collectRootSet] using h

theorem mem_expands_roots (redirects : ℕ → ℕ) (ids : List ℕ) (a : Work ℕ) :
    a ∈ expands (collectRootSet redirects ids).2 ↔
      ∃ x ∈ (collectRootSet redirects ids).1, a = .expand x := by
  have h := (enqueue_roots redirects ids (∅, []) (by simp)).1
  simp only [expands, Multiset.mem_coe, List.mem_map]
  constructor
  · intro ha
    obtain ⟨x,hx,rfl⟩ := ha
    exact ⟨x,(h x).1 hx,rfl⟩
  · intro ha
    obtain ⟨x,hx,rfl⟩ := ha
    exact ⟨x,(h x).2 hx,rfl⟩

/-- What the subsections the roots are found in lead to. -/
def live (ctx : Context) (redirects : ℕ → ℕ) (ids : List ℕ) : Set ℕ :=
  Reach (edges ctx redirects) {x | ∃ id ∈ ids, redirects id = x}

theorem mark_live {ctx : Context} {redirects : ℕ → ℕ} {ids : List ℕ} {s : State}
    (h : Relation.ReflTransGen (Step ctx redirects)
      (start (collectRootSet redirects ids).1 (collectRootSet redirects ids).2) s)
    (hs : s.tasks = []) : (↑s.visited : Set ℕ) = live ctx redirects ids := by
  have hw := run_work h
  rw [start_work, hs] at hw
  rw [live, ← roots_marked]
  exact steps_reach _ _ (mem_expands_roots redirects ids) hw

/-! The serial walk. -/

theorem visit_targets_steps (ctx : Context) (redirects : ℕ → ℕ) (ts : List ℕ)
    (visited : Finset ℕ) (w : Multiset (Work ℕ)) :
    Steps (edges ctx redirects) ⟨visited, Frame.work redirects ⟨ts, 0⟩ + w⟩
      ⟨(visitTargets redirects ts visited).1,
        expands (visitTargets redirects ts visited).2 + w⟩ := by
  induction ts generalizing visited w with
  | nil => simp [visitTargets, Relation.ReflTransGen.refl]
  | cons y ts ih =>
    rw [frame_work_cons, add_assoc]
    by_cases h : redirects y ∈ visited
    · have hs : Marking.Step (edges ctx redirects) _ _ := .seen visited (redirects y)
        (Frame.work redirects ⟨ts, 0⟩ + w) h
      simpa [visitTargets, h] using (ih visited w).head hs
    · have hs : Marking.Step (edges ctx redirects) _ _ := .mark visited (redirects y)
        (Frame.work redirects ⟨ts, 0⟩ + w) h
      have hi := ih (insert (redirects y) visited) ({.expand (redirects y)} + w)
      have hw : Frame.work redirects ⟨ts, 0⟩ + ({.expand (redirects y)} + w) =
          .expand (redirects y) ::ₘ (Frame.work redirects ⟨ts, 0⟩ + w) := by
        rw [← Multiset.singleton_add]
        abel
      rw [hw] at hi
      have := hi.head hs
      simpa [visitTargets, h, add_left_comm, add_assoc] using this

theorem walk_steps (ctx : Context) (redirects : ℕ → ℕ) (visited : Finset ℕ) (queue : List ℕ) :
    Steps (edges ctx redirects) ⟨visited, expands queue⟩
      ⟨walk ctx redirects visited queue, 0⟩ := by
  fun_induction walk ctx redirects visited queue with
  | case1 => exact .refl
  | case2 visited id queue s ih =>
    have he := expand_step ctx redirects visited id 0 (expands queue)
    have hv := visit_targets_steps ctx redirects (forEachEdge ctx id) visited (expands queue)
    have hq : expands (queue ++ s.2) = expands s.2 + expands queue := by
      rw [expands_append, add_comm]
    rw [hq] at ih
    exact (hv.head he).trans ih

theorem walk_live (ctx : Context) (redirects : ℕ → ℕ) (ids : List ℕ) :
    (↑(walk ctx redirects (collectRootSet redirects ids).1
      (collectRootSet redirects ids).2) : Set ℕ) = live ctx redirects ids := by
  rw [live, ← roots_marked]
  exact steps_reach _ _ (mem_expands_roots redirects ids) (walk_steps ctx redirects _ _)

/-! Live support. -/

theorem support_closed (ctx : Context) (redirects : ℕ → ℕ) (visited : Finset ℕ) (id : ℕ)
    (h : Closed (edges ctx redirects) ↑visited) :
    Closed (edges ctx redirects) ↑(supportStep ctx redirects visited id) := by
  unfold supportStep
  split
  · exact steps_closed h (walk_steps ctx redirects _ [redirects id])
  · exact h

theorem live_support_closed (ctx : Context) (redirects : ℕ → ℕ) (visited : Finset ℕ)
    (h : Closed (edges ctx redirects) ↑visited) :
    Closed (edges ctx redirects) ↑(markLiveSupport ctx redirects visited) := by
  unfold markLiveSupport
  induction liveSupport ctx generalizing visited with
  | nil => exact h
  | cons id ids ih => exact ih _ (support_closed ctx redirects visited id h)

/-! Marking ends. -/

def Task.targets (redirects : ℕ → ℕ) (t : Task) : List ℕ :=
  t.frames.flatMap fun f => f.targets.map redirects

/-- What a task may still visit of its own, and what any section may lead
to. -/
def unvisited (ctx : Context) (redirects : ℕ → ℕ) (s : State) : Finset ℕ :=
  (targets ctx redirects ∪ (s.tasks.flatMap (Task.targets redirects)).toFinset) \ s.visited

/-- An upper bound of a task's steps, and of those of the tasks it hands
its work to, while nothing new is visited. -/
def Task.weight (ctx : Context) (t : Task) : ℕ :=
  (t.frames.map fun f => f.targets.length+1).sum +
    (t.next.map fun id => (forEachEdge ctx id).length+4).sum +
    (t.batch.map fun id => (forEachEdge ctx id).length+2).sum + 1

def weight (ctx : Context) (ts : List Task) : ℕ := (ts.map (Task.weight ctx)).sum

theorem hand_over_weight (ctx : Context) (next : List ℕ) :
    (next.map fun id => (forEachEdge ctx id).length+2).sum + 2*next.length =
      (next.map fun id => (forEachEdge ctx id).length+4).sum := by
  induction next with
  | nil => rfl
  | cons id next ih =>
    simp only [List.map_cons, List.sum_cons, List.length_cons]
    omega

theorem descend_targets (ctx : Context) (redirects : ℕ → ℕ) (target depth : ℕ) (t : Task) :
    ∀ y ∈ (descend ctx target depth t).targets redirects,
      y ∈ targets ctx redirects ∨ y ∈ t.targets redirects := by
  intro y hy
  by_cases h : depth < 3
  · simp only [descend, h, if_true, Task.targets, List.flatMap_cons, List.mem_append] at hy
    cases hy with
    | inl hy => exact .inl (edges_targets ctx redirects target y hy)
    | inr hy => exact .inr hy
  · simp only [descend, h, if_false] at hy
    exact .inr hy

theorem task_step_targets (ctx : Context) (redirects : ℕ → ℕ) (visited : Finset ℕ) (t : Task) :
    ∀ t' ∈ (taskStep ctx redirects visited t).2, ∀ y ∈ t'.targets redirects,
      y ∈ targets ctx redirects ∨ y ∈ t.targets redirects := by
  fun_cases taskStep with
  | case1 => simp [Task.targets]; grind
  | case2 target rest depth frames next batch h =>
    intro t' ht' y hy
    rw [List.mem_singleton] at ht'
    subst ht'
    have := descend_targets ctx redirects _ _ _ y hy
    grind [Task.targets]
  | case3 => simp [Task.targets]; grind
  | case4 => simp [Task.targets]
  | case5 next h id batch =>
    intro t' ht' y hy
    rw [List.mem_singleton] at ht'
    subst ht'
    have : y ∈ edges ctx redirects id := by simpa [Task.targets, edges] using hy
    exact .inl (edges_targets ctx redirects id y this)
  | case6 next h =>
    cases next with
    | nil => simp
    | cons id next => simp [Task.targets]

/-- A step visits a new section or brings the task nearer its end. -/
theorem task_step_progress (ctx : Context) (redirects : ℕ → ℕ) (visited : Finset ℕ) (t : Task) :
    ((taskStep ctx redirects visited t).1 = visited ∧
      weight ctx (taskStep ctx redirects visited t).2 < t.weight ctx) ∨
    ∃ y ∈ t.targets redirects, y ∉ visited ∧
      (taskStep ctx redirects visited t).1 = insert y visited := by
  fun_cases taskStep with
  | case1 target rest depth frames next batch h =>
    left
    simp [weight, Task.weight]
  | case2 target rest depth frames next batch h =>
    right
    exact ⟨redirects target,by simp [Task.targets],h,rfl⟩
  | case3 =>
    left
    simp [weight, Task.weight]
  | case4 next batch h =>
    left
    have := hand_over_weight ctx next
    simp [weight, Task.weight, gcBatch] at h ⊢
    omega
  | case5 next h id batch =>
    left
    simp [weight, Task.weight]
    omega
  | case6 next h =>
    left
    have := hand_over_weight ctx next
    cases next with
    | nil => simp [weight, Task.weight]
    | cons id next =>
      simp [weight, Task.weight] at this ⊢
      omega

theorem step_unvisited (ctx : Context) (redirects : ℕ → ℕ) (visited : Finset ℕ) (l r : List Task)
    (t : Task) :
    unvisited ctx redirects ⟨visited, l ++ (taskStep ctx redirects visited t).2 ++ r⟩ ⊆
      unvisited ctx redirects ⟨visited, l ++ t::r⟩ := by
  intro y hy
  have ht := task_step_targets ctx redirects visited t
  simp only [unvisited, Finset.mem_sdiff, Finset.mem_union, List.mem_toFinset, List.mem_flatMap,
    List.mem_append, List.mem_cons] at hy ⊢
  grind

/-- `(unvisited, weight)` drops at each step. -/
theorem step_measure {ctx : Context} {redirects : ℕ → ℕ} {s s' : State}
    (h : Step ctx redirects s s') :
    Prod.Lex (· < ·) (· < ·) ((unvisited ctx redirects s').card, weight ctx s'.tasks)
      ((unvisited ctx redirects s).card, weight ctx s.tasks) := by
  cases h with
  | run visited l r t =>
    have hsub := step_unvisited ctx redirects visited l r t
    cases task_step_progress ctx redirects visited t with
    | inl h =>
      rw [h.1]
      have hw : weight ctx (l ++ (taskStep ctx redirects visited t).2 ++ r) <
          weight ctx (l ++ t::r) := by
        simp only [weight, List.map_append, List.sum_append, List.map_cons, List.sum_cons] at h ⊢
        omega
      have hc := Finset.card_le_card hsub
      exact Prod.lex_iff.2 (by simp only; omega)
    | inr h =>
      obtain ⟨y,hy,hnew,hv⟩ := h
      apply Prod.Lex.left
      apply Finset.card_lt_card
      rw [hv]
      constructor
      · intro z hz
        apply hsub
        simp only [unvisited, Finset.mem_sdiff, Finset.mem_insert] at hz ⊢
        grind
      · intro hle
        have hmem : y ∈ unvisited ctx redirects ⟨visited, l ++ t::r⟩ := by
          simp only [unvisited, Finset.mem_sdiff, Finset.mem_union, List.mem_toFinset]
          grind
        have := hle hmem
        simp [unvisited] at this

theorem mark_terminates (ctx : Context) (redirects : ℕ → ℕ) :
    WellFounded fun s' s => Step ctx redirects s s' := by
  have hlex := (Prod.lex Nat.lt_wfRel Nat.lt_wfRel).wf
  have hinv := InvImage.wf (fun s : State =>
    ((unvisited ctx redirects s).card, weight ctx s.tasks)) hlex
  exact Subrelation.wf (fun h => step_measure h) hinv

theorem task_step {ctx : Context} {redirects : ℕ → ℕ} {s : State} (h : s.tasks ≠ []) :
    ∃ s', Step ctx redirects s s' := by
  cases s with
  | mk visited tasks =>
    cases tasks with
    | nil => contradiction
    | cons t tasks => exact ⟨_,.run visited [] tasks t⟩

theorem sweep_alive {visited : Finset ℕ} {isecs : List InputSection} {id : ℕ}
    {isec : InputSection} (h : (sweep visited isecs)[id]? = some isec) (ha : isec.isAlive) :
    id ∈ visited ∧ isecs[id]?.any (·.isAlive) := by
  simp only [sweep, List.getElem?_mapIdx, Option.map_eq_some_iff] at h
  obtain ⟨old,hold,hnew⟩ := h
  subst hnew
  simpa [hold] using ha

theorem live_closed (ctx : Context) (redirects : ℕ → ℕ) (ids : List ℕ) :
    Closed (edges ctx redirects) (live ctx redirects ids) :=
  reach_closed _

/-- Marking: the states any interleaving of the tasks reaches. -/
def Marked (ctx : Context) (redirects : ℕ → ℕ) (ids : List ℕ) (s : State) : Prop :=
  Relation.ReflTransGen (Step ctx redirects)
    (start (collectRootSet redirects ids).1 (collectRootSet redirects ids).2) s

/-- Marking runs to its end, where the visited sections are those the roots
lead to, as in the serial walk. A section left alive after the live-support
pass was alive, and what its edges lead to has been visited. -/
theorem dead_strip_exact {ctx : Context} {redirects : ℕ → ℕ} {ids : List ℕ} {s : State}
    (h : Marked ctx redirects ids s) :
    Acc (fun b a => Step ctx redirects a b) s ∧
    (s.tasks ≠ [] → ∃ s', Step ctx redirects s s') ∧
    (s.tasks = [] →
      (↑s.visited : Set ℕ) = live ctx redirects ids ∧
      s.visited = walk ctx redirects (collectRootSet redirects ids).1
        (collectRootSet redirects ids).2 ∧
      let visited := markLiveSupport ctx redirects s.visited
      ∀ id isec, (sweep visited ctx.isecs)[id]? = some isec → isec.isAlive →
        ctx.isecs[id]?.any (·.isAlive) ∧
          ∀ target ∈ forEachEdge ctx id, redirects target ∈ visited) := by
  constructor
  · exact (mark_terminates ctx redirects).apply s
  constructor
  · exact task_step
  intro hs
  have hlive := mark_live h hs
  constructor
  · exact hlive
  constructor
  · rw [← Finset.coe_inj, hlive, walk_live]
  intro visited id isec hid halive
  have hclosed : Closed (edges ctx redirects) ↑visited := by
    apply live_support_closed
    rw [hlive]
    exact live_closed ctx redirects ids
  have hswept := sweep_alive hid halive
  constructor
  · exact hswept.2
  · intro target ht
    have := hclosed id hswept.1 (redirects target) (List.mem_map_of_mem ht)
    exact_mod_cast this

/-- Two sections, the first referring to the second. -/
def pair : Context where
  isecs := [{ file := 0, nrels := 1 }, { file := 0 }]
  objs := [{ relocs := [{ offset := 0, target := .section 1 }] }]

theorem dead_strip_exact_pair :
    (↑({0, 1} : Finset ℕ) : Set ℕ) = live pair id [0] := by
  have step : ∀ visited t, Step pair id ⟨visited, [t]⟩
      ⟨(taskStep pair id visited t).1, (taskStep pair id visited t).2⟩ := by
    intro visited t
    have h : Step pair id ⟨visited, [] ++ [t]⟩ _ := .run visited [] [] t
    simpa using h
  have run : Marked pair id [0] ⟨{1, 0}, []⟩ := by
    have hstart : start (collectRootSet id [0]).1 (collectRootSet id [0]).2 =
        ⟨{0}, [⟨[], [], [0]⟩]⟩ := by
      simp [start, collectRootSet, enqueue, parChunks, gcBatch]
    rw [Marked, hstart]
    exact .head (step {0} ⟨[], [], [0]⟩) (.head (step {0} ⟨[⟨[1], 0⟩], [], []⟩)
      (.head (step {1, 0} ⟨[⟨[], 1⟩, ⟨[], 0⟩], [], []⟩)
      (.head (step {1, 0} ⟨[⟨[], 0⟩], [], []⟩) (.single (step {1, 0} ⟨[], [], []⟩)))))
  have h := ((dead_strip_exact run).2.2 rfl).1
  rw [Finset.pair_comm]
  exact h

end MoldMacho.DeadStrip
