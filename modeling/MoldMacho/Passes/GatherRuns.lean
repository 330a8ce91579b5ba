import Mathlib.Data.List.Induction
import MoldMacho.Passes.GatherSections

/-!
# Runs of the workers

At any point of a run, whatever the workers took and in whatever order they
looked up the table, each block is still to be taken, a worker's, or gathered.
-/

set_option autoImplicit false

namespace MoldMacho.GatherRuns
open MoldMacho.OutputSectionNames MoldMacho.AssignInputSections MoldMacho.GatherSections

section Run
variable {ι : Type} [DecidableEq ι] (ctx : Context) (moves : ℕ → Option Move)

/-- A block all gone through. -/
structure Finished (table : OutputSectionTable) (b : ℕ) (result : List InputSection × Groups) :
    Prop where
  isecs : result.1 = (blockItems ctx b).map (visited ctx moves)
  grouped : Grouped ctx moves table (blockItems ctx b) result.2
  nodup : (result.2.map Prod.fst).Nodup

structure RunOk (c : Config ι) : Prop where
  tableOk : TableOk ctx c.table
  keys : ∀ entry ∈ c.table.byKey, ∃ x ∈ items ctx, placeable x.2 ∧ entry.1 = keyOf ctx moves x
  caches : ∀ i, CacheOk c.table (c.caches i)
  pending : c.pending.Nodup
  /-- No cache has groups of a block to be taken yet. -/
  stale : ∀ i n b g, (c.caches i).groups n = some (b,g) → b ∉ c.pending
  jobs : ∀ i job, c.jobs i = some job → job.block ∉ c.pending ∧
    ∃ done, JobOk ctx moves c.table (c.caches i) job done
  blocks : ∀ b < blockCount ctx, b ∈ c.pending ∨
    (∃ i job, c.jobs i = some job ∧ job.block = b) ∨ Finished ctx moves c.table b (c.results b)

variable {ctx moves}

theorem job_extends {table table' : OutputSectionTable} (h : Extends table table')
    {cache : WorkerCache} {job : Job} {done : List (ℕ × InputSection)}
    (hj : JobOk ctx moves table cache job done) : JobOk ctx moves table' cache job done :=
  ⟨hj.items,hj.isecs,grouped_extends h hj.grouped,hj.indexed,last_extends h hj.last⟩

theorem block_items_subset (b : ℕ) {x : ℕ × InputSection} (h : x ∈ blockItems ctx b) :
    x ∈ items ctx := List.mem_of_mem_drop (List.mem_of_mem_take h)

omit [DecidableEq ι] in
theorem run_ok_initial : RunOk ctx moves (initial ctx : Config ι) where
  tableOk := table_ok_empty
  keys := by simp [initial]
  caches i := List.nil_subset _
  pending := List.nodup_range
  stale := by simp [initial]
  jobs := by simp [initial]
  blocks b hb := Or.inl (List.mem_range.2 hb)

theorem run_ok_take {c : Config ι} (h : RunOk ctx moves c) {i : ι} {b : ℕ}
    (hi : c.jobs i = none) (hb : b ∈ c.pending) : RunOk ctx moves (take ctx c i b) where
  tableOk := h.tableOk
  keys := h.keys
  caches := h.caches
  pending := h.pending.erase b
  stale j n b' g hg hin := h.stale j n b' g hg (List.mem_of_mem_erase hin)
  jobs j job hjob := by
    simp only [take] at hjob ⊢
    by_cases hij : j = i
    · subst hij
      rw [Function.update_self] at hjob
      obtain rfl := Option.some.inj hjob
      refine ⟨h.pending.not_mem_erase,[],rfl,rfl,⟨by simp,by simp,by simp⟩,?_,by simp [LastOk]⟩
      intro n g
      simp only [List.map_nil, List.getElem?_nil, reduceCtorEq, iff_false]
      exact fun hg => h.stale j n b g hg hb
    · rw [Function.update_of_ne hij] at hjob
      obtain ⟨hout,hok⟩ := h.jobs j job hjob
      exact ⟨fun hin => hout (List.mem_of_mem_erase hin),hok⟩
  blocks b' hb' := by
    simp only [take]
    rcases h.blocks b' hb' with hin | ⟨j,job,hjob,hblock⟩ | hdone
    · by_cases hbb : b' = b
      · subst hbb
        exact Or.inr (Or.inl ⟨i,_,Function.update_self ..,rfl⟩)
      · exact Or.inl ((List.mem_erase_of_ne hbb).2 hin)
    · have hij : j ≠ i := by
        rintro rfl
        rw [hi] at hjob
        cases hjob
      exact Or.inr (Or.inl ⟨j,job,by rw [Function.update_of_ne hij, hjob],hblock⟩)
    · exact Or.inr (Or.inr hdone)

theorem run_ok_proceed {c : Config ι} (h : RunOk ctx moves c) {i : ι} {job : Job}
    {x : ℕ × InputSection} {left : List (ℕ × InputSection)} (hi : c.jobs i = some job)
    (hleft : job.left = x::left) : RunOk ctx moves (proceed ctx moves c i job x left) := by
  obtain ⟨hout,done,hj⟩ := h.jobs i job hi
  have hv := visit_visited h.tableOk (h.caches i) hj hleft
  rcases hvisit : visit ctx moves x { job with left } (c.caches i) c.table with
    ⟨job',cache',table'⟩
  rw [hvisit] at hv
  dsimp only at hv
  obtain ⟨htable,hgrows,hcache,hfresh,hstale,⟨hblock,_⟩,hok⟩ := hv
  have hx : x ∈ items ctx := block_items_subset job.block (by rw [hj.items, hleft]; simp)
  rw [proceed, hvisit]
  refine ⟨htable,?_,?_,h.pending,?_,?_,?_⟩
  · intro entry he
    rcases hfresh entry he with he | ⟨hp,hkey⟩
    · exact h.keys entry he
    · exact ⟨x,hx,hp,hkey⟩
  · intro j
    dsimp only
    by_cases hij : j = i
    · subst hij
      rw [Function.update_self]
      exact hcache
    · rw [Function.update_of_ne hij]
      exact List.Subset.trans (h.caches j) hgrows.keys
  · intro j n b g hg
    dsimp only at hg
    by_cases hij : j = i
    · subst hij
      rw [Function.update_self] at hg
      rcases hstale n b g hg with rfl | hg
      · exact hout
      · exact h.stale j n b g hg
    · rw [Function.update_of_ne hij] at hg
      exact h.stale j n b g hg
  · intro j job'' hjob
    dsimp only at hjob ⊢
    by_cases hij : j = i
    · subst hij
      rw [Function.update_self] at hjob
      obtain rfl := Option.some.inj hjob
      rw [hblock, Function.update_self]
      exact ⟨hout,_,hok⟩
    · rw [Function.update_of_ne hij] at hjob
      rw [Function.update_of_ne hij]
      obtain ⟨hout',done',hok'⟩ := h.jobs j job'' hjob
      exact ⟨hout',done',job_extends hgrows hok'⟩
  · intro b hb
    dsimp only
    rcases h.blocks b hb with hin | ⟨j,job'',hjob,hblock'⟩ | hdone
    · exact Or.inl hin
    · by_cases hij : j = i
      · subst hij
        rw [hi] at hjob
        obtain rfl := Option.some.inj hjob
        exact Or.inr (Or.inl ⟨j,job',Function.update_self ..,hblock.trans hblock'⟩)
      · exact Or.inr (Or.inl ⟨j,job'',by rw [Function.update_of_ne hij, hjob],hblock'⟩)
    · exact Or.inr (Or.inr ⟨hdone.isecs,grouped_extends hgrows hdone.grouped,hdone.nodup⟩)

theorem indexed_nodup {cache : WorkerCache} {b : ℕ} {numbers : List ℕ}
    (h : Indexed cache b numbers) : numbers.Nodup := by
  rw [List.nodup_iff_getElem?_ne_getElem?]
  intro g g' hlt hlen heq
  have hg' := List.getElem?_eq_getElem hlen
  exact hlt.ne (indexed_injective h (heq.trans hg') hg')

theorem run_ok_finish {c : Config ι} (h : RunOk ctx moves c) {i : ι} {job : Job}
    (hi : c.jobs i = some job) (hleft : job.left = []) : RunOk ctx moves (finish c i job) where
  tableOk := h.tableOk
  keys := h.keys
  caches := h.caches
  pending := h.pending
  stale := h.stale
  jobs j job' hjob := by
    simp only [finish] at hjob ⊢
    by_cases hij : j = i
    · subst hij
      rw [Function.update_self] at hjob
      cases hjob
    · rw [Function.update_of_ne hij] at hjob
      exact h.jobs j job' hjob
  blocks b hb := by
    simp only [finish]
    obtain ⟨_,done,hj⟩ := h.jobs i job hi
    have hdone : blockItems ctx job.block = done := by rw [hj.items, hleft, List.append_nil]
    by_cases hbj : b = job.block
    · subst hbj
      rw [Function.update_self]
      refine Or.inr (Or.inr ⟨?_,?_,indexed_nodup hj.indexed⟩)
      · rw [hdone]
        exact hj.isecs
      · rw [hdone]
        exact hj.grouped
    · rcases h.blocks b hb with hin | ⟨j,job',hjob,hblock⟩ | hdone'
      · exact Or.inl hin
      · have hij : j ≠ i := by
          rintro rfl
          rw [hi] at hjob
          obtain rfl := Option.some.inj hjob
          exact hbj hblock.symm
        exact Or.inr (Or.inl ⟨j,job',by rw [Function.update_of_ne hij, hjob],hblock⟩)
      · rw [Function.update_of_ne hbj]
        exact Or.inr (Or.inr hdone')

theorem run_ok_step {c c' : Config ι} (h : RunOk ctx moves c) (hs : Step ctx moves c c') :
    RunOk ctx moves c' := by
  cases hs with
  | take hi hb => exact run_ok_take h hi hb
  | proceed hi hleft => exact run_ok_proceed h hi hleft
  | finish hi hleft => exact run_ok_finish h hi hleft

theorem run_ok {done : Config ι} (h : Run ctx moves done) : RunOk ctx moves done := by
  have hsteps := h.steps
  clear h
  induction hsteps with
  | refl => exact run_ok_initial
  | tail _ hs ih => exact run_ok_step ih hs

/-- Once the workers are done every block is gathered. -/
theorem run_finished {done : Config ι} (h : Run ctx moves done) {b : ℕ} (hb : b < blockCount ctx) :
    Finished ctx moves done.table b (done.results b) := by
  rcases (run_ok h).blocks b hb with hin | ⟨i,job,hjob,_⟩ | hdone
  · rw [h.taken] at hin
    cases hin
  · rw [h.ended i] at hjob
    cases hjob
  · exact hdone

/-! ## Schedules -/

variable (ctx moves)

/-- The next step of a worker, if it has one. -/
def workerStep (c : Config ι) (i : ι) : Config ι :=
  match c.jobs i, c.pending with
  | none, [] => c
  | none, b::_ => take ctx c i b
  | some job, _ =>
    match job.left with
    | [] => finish c i job
    | x::left => proceed ctx moves c i job x left

/-- What the workers do when it is each one's turn as listed. -/
def schedule (turns : List ι) : Config ι := turns.foldl (workerStep ctx moves) (initial ctx)

theorem worker_step (c : Config ι) (i : ι) :
    Relation.ReflTransGen (Step ctx moves) c (workerStep ctx moves c i) := by
  rw [workerStep]
  split
  · exact Relation.ReflTransGen.refl
  · next b _ hi hb => exact Relation.ReflTransGen.single (Step.take hi (by rw [hb]; simp))
  · next job _ hi =>
    split
    · next hleft => exact Relation.ReflTransGen.single (Step.finish hi hleft)
    · next x left hleft => exact Relation.ReflTransGen.single (Step.proceed hi hleft)

theorem schedule_steps (turns : List ι) :
    Relation.ReflTransGen (Step ctx moves) (initial ctx) (schedule ctx moves turns) := by
  induction turns using List.reverseRecOn with
  | nil => exact Relation.ReflTransGen.refl
  | append_singleton turns i ih =>
    rw [schedule, List.foldl_append]
    exact ih.trans (worker_step ctx moves _ i)

end Run

end MoldMacho.GatherRuns
