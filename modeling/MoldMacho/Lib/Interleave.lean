import Mathlib.Algebra.GroupWithZero.Nat
import Mathlib.Logic.Function.Basic
import Mathlib.Logic.Relation
import Mathlib.Order.MinMax
import Mathlib.Algebra.Order.BigOperators.Group.Finset

/-!
# Tasks that access shared slots in any order

Each task has a list of blocks, each on one slot. A block is carried out by
atomic accesses to its slot: an access sees the slot's value, leaves another
and either ends the block or goes on to the block's next stage. The accesses of
different tasks interleave in any order.
-/

set_option autoImplicit false

namespace MoldMacho.Interleave

variable {ι σ β τ V : Type}

structure Tasks (σ β τ V : Type) where
  slot : β → σ
  access : β → τ → V → V × Option τ

/-- What each task has left, its first block at a stage, the slots, and the
accesses made, the last one first. -/
structure Config (ι σ β τ V : Type) where
  left : ι → List (β × τ)
  slots : σ → V
  log : List (ι × σ × τ)

variable [DecidableEq ι] [DecidableEq σ]

/-- What is left of a block after an access, before the rest. -/
def after (b : β) (next : Option τ) (rest : List (β × τ)) : List (β × τ) :=
  match next with
  | some t => (b,t)::rest
  | none => rest

def perform (T : Tasks σ β τ V) (c : Config ι σ β τ V) (i : ι) (b : β) (t : τ)
    (rest : List (β × τ)) : Config ι σ β τ V where
  left := Function.update c.left i (after b (T.access b t (c.slots (T.slot b))).2 rest)
  slots := Function.update c.slots (T.slot b) (T.access b t (c.slots (T.slot b))).1
  log := (i,T.slot b,t)::c.log

inductive Step (T : Tasks σ β τ V) : Config ι σ β τ V → Config ι σ β τ V → Prop where
  | access {c : Config ι σ β τ V} {i : ι} {b : β} {t : τ} {rest : List (β × τ)}
      (h : c.left i = (b,t)::rest) : Step T c (perform T c i b t rest)

/-- A run of all the tasks to their ends. -/
structure Run (T : Tasks σ β τ V) (start done : Config ι σ β τ V) : Prop where
  steps : Relation.ReflTransGen (Step T) start done
  ended : ∀ i, done.left i = []

def initial (tasks : ι → List (β × τ)) (slots : σ → V) : Config ι σ β τ V where
  left := tasks
  slots := slots
  log := []

section Perform
variable (T : Tasks σ β τ V) (c : Config ι σ β τ V) (i : ι) (b : β) (t : τ) (rest : List (β × τ))

@[simp] theorem perform_left_self :
    (perform T c i b t rest).left i = after b (T.access b t (c.slots (T.slot b))).2 rest :=
  Function.update_self ..

@[simp] theorem perform_left_ne {j : ι} (h : j ≠ i) : (perform T c i b t rest).left j = c.left j :=
  Function.update_of_ne h ..

@[simp] theorem perform_slots_self :
    (perform T c i b t rest).slots (T.slot b) = (T.access b t (c.slots (T.slot b))).1 :=
  Function.update_self ..

@[simp] theorem perform_slots_ne {s : σ} (h : s ≠ T.slot b) :
    (perform T c i b t rest).slots s = c.slots s :=
  Function.update_of_ne h ..

end Perform

/-! ## A slot of one task

If every other task finds nothing to do on a slot, the slot ends as the one
task alone leaves it. -/

/-- The accesses of a list of blocks on one slot, made one after another. -/
inductive Solo (T : Tasks σ β τ V) : List (β × τ) → V → V → Prop where
  | nil (v : V) : Solo T [] v v
  | cons {b : β} {t : τ} {rest : List (β × τ)} {v w : V}
      (h : Solo T (after b (T.access b t v).2 rest) (T.access b t v).1 w) :
      Solo T ((b,t)::rest) v w

omit [DecidableEq σ] in
theorem solo_unique {T : Tasks σ β τ V} {blocks : List (β × τ)} {v w w' : V}
    (h : Solo T blocks v w) (h' : Solo T blocks v w') : w = w' := by
  induction h with
  | nil v => cases h'; rfl
  | cons _ ih => cases h' with | cons h' => exact ih h'

/-- A task's blocks find nothing to do on slot `s` whenever its value is one
that `P` holds of. -/
def Idle (T : Tasks σ β τ V) (P : V → Prop) (s : σ) (blocks : List (β × τ)) : Prop :=
  ∀ bt ∈ blocks, T.slot bt.1 = s → ∀ v, P v → T.access bt.1 bt.2 v = (v,none)

section Owner
variable {T : Tasks σ β τ V} {P : V → Prop} {s : σ}

omit [DecidableEq σ] in
theorem idle_cons {b : β} {t : τ} {rest : List (β × τ)} (h : Idle T P s ((b,t)::rest)) :
    Idle T P s rest := fun bt hbt => h bt (List.mem_cons_of_mem _ hbt)

/-- A task that finds nothing to do on a slot goes on so. -/
theorem perform_idle {c : Config ι σ β τ V} {i : ι} {b : β} {t : τ} {rest : List (β × τ)}
    (hleft : c.left i = (b,t)::rest) (hc : P (c.slots s)) (j : ι) (hj : Idle T P s (c.left j)) :
    Idle T P s ((perform T c i b t rest).left j) := by
  by_cases hij : j = i
  · subst hij
    rw [hleft] at hj
    rw [perform_left_self]
    cases hn : (T.access b t (c.slots (T.slot b))).2 with
    | none => exact idle_cons hj
    | some t' =>
      intro bt hbt hslot v hv
      rcases List.mem_cons.1 hbt with rfl | hbt
      · have hidle := hj _ List.mem_cons_self hslot (c.slots s) hc
        rw [show T.slot b = s from hslot, hidle] at hn
        cases hn
      · exact idle_cons hj bt hbt hslot v hv
  · rw [perform_left_ne _ _ _ _ _ _ hij]
    exact hj

/-- What a task has left on slot `s`. -/
def leftOn (T : Tasks σ β τ V) (s : σ) (blocks : List (β × τ)) : List (β × τ) :=
  blocks.filter fun bt => T.slot bt.1 = s

theorem left_on_after (b : β) (next : Option τ) (rest : List (β × τ)) :
    leftOn T s (after b next rest) =
      if T.slot b = s then after b next (leftOn T s rest) else leftOn T s rest := by
  cases next with
  | none => simp [after]
  | some t => by_cases h : T.slot b = s <;> simp [after, leftOn, h]

variable (hP : ∀ b t v, T.slot b = s → P v → P (T.access b t v).1)
include hP

theorem perform_keeps {c : Config ι σ β τ V} (i : ι) (b : β) (t : τ) (rest : List (β × τ))
    (hc : P (c.slots s)) : P ((perform T c i b t rest).slots s) := by
  by_cases hs : s = T.slot b
  · subst hs
    rw [perform_slots_self]
    exact hP b t _ rfl hc
  · rw [perform_slots_ne _ _ _ _ _ _ hs]
    exact hc

theorem run_solo {c done : Config ι σ β τ V} (h : Run T c done) (i : ι)
    (hidle : ∀ j, j ≠ i → Idle T P s (c.left j)) (hc : P (c.slots s)) :
    Solo T (leftOn T s (c.left i)) (c.slots s) (done.slots s) := by
  obtain ⟨hsteps,hended⟩ := h
  induction hsteps using Relation.ReflTransGen.head_induction_on with
  | refl =>
    rw [hended i]
    exact Solo.nil _
  | @head c next hstep _ ih =>
    cases hstep with
    | @access j b t rest hleft =>
      have hnext := ih (fun k hk => perform_idle hleft hc k (hidle k hk))
        (perform_keeps hP j b t rest hc)
      by_cases hj : j = i
      · subst hj
        rw [hleft]
        rw [perform_left_self, left_on_after] at hnext
        by_cases hs : T.slot b = s
        · subst hs
          rw [if_pos rfl, perform_slots_self] at hnext
          simp only [leftOn, List.filter_cons, decide_true, if_true]
          exact Solo.cons hnext
        · rw [if_neg hs, perform_slots_ne _ _ _ _ _ _ (Ne.symm hs)] at hnext
          simpa only [leftOn, List.filter_cons, hs, decide_false, Bool.false_eq_true, if_false]
            using hnext
      · rw [perform_left_ne _ _ _ _ _ _ (Ne.symm hj)] at hnext
        by_cases hs : T.slot b = s
        · have hkeep : (perform T c j b t rest).slots s = c.slots s := by
            have hb := hidle j hj (b,t) (by rw [hleft]; exact List.mem_cons_self) hs _ hc
            subst hs
            rw [perform_slots_self, hb]
          rwa [hkeep] at hnext
        · rwa [perform_slots_ne _ _ _ _ _ _ (Ne.symm hs)] at hnext

/-- Every access the run makes to slot `s` by a task idle on it is one that
does nothing: at a stage its blocks had at the start. -/
theorem run_log {c done : Config ι σ β τ V} (h : Run T c done) {j : ι} {t : τ}
    (hidle : Idle T P s (c.left j)) (hc : P (c.slots s)) (hlog : (j,s,t) ∈ done.log) :
    (j,s,t) ∈ c.log ∨ ∃ bt ∈ c.left j, T.slot bt.1 = s ∧ bt.2 = t := by
  obtain ⟨hsteps,_⟩ := h
  induction hsteps using Relation.ReflTransGen.head_induction_on with
  | refl => exact Or.inl hlog
  | @head c next hstep _ ih =>
    cases hstep with
    | @access i b u rest hleft =>
      rcases ih (perform_idle hleft hc j hidle) (perform_keeps hP i b u rest hc) with h | h
      · rcases List.mem_cons.1 h with heq | h
        · obtain ⟨rfl,rfl,rfl⟩ : j = i ∧ s = T.slot b ∧ t = u := by simpa using heq
          exact Or.inr ⟨(b,t),by rw [hleft]; exact List.mem_cons_self,rfl,rfl⟩
        · exact Or.inl h
      · obtain ⟨bt,hbt,hs,ht⟩ := h
        refine Or.inr ⟨bt,?_,hs,ht⟩
        by_cases hij : j = i
        · subst hij
          rw [perform_left_self] at hbt
          rw [hleft]
          cases hn : (T.access b u (c.slots (T.slot b))).2 with
          | none =>
            rw [hn] at hbt
            exact List.mem_cons_of_mem _ hbt
          | some u' =>
            rw [hn] at hbt
            rcases List.mem_cons.1 hbt with rfl | hbt
            · have hb := hidle (b,u) (by rw [hleft]; exact List.mem_cons_self) hs _ hc
              rw [show T.slot b = s from hs, hb] at hn
              cases hn
            · exact List.mem_cons_of_mem _ hbt
        · rwa [perform_left_ne _ _ _ _ _ _ hij] at hbt

end Owner

/-! ## Racing for the least value

Each block lowers its slot to its own value if that is less: an atomic
minimum. -/

section Race
variable [LinearOrder V]

def race (slot : β → σ) (value : β → V) : Tasks σ β Unit V where
  slot := slot
  access b _ v := (min v (value b),none)

variable {slot : β → σ} {value : β → V}

theorem race_step {c : Config ι σ β Unit V} (i : ι) (b : β) (t : Unit) (rest : List (β × Unit))
    (s : σ) : (perform (race slot value) c i b t rest).slots s =
      if s = slot b then min (c.slots s) (value b) else c.slots s := by
  by_cases hs : s = slot b
  · subst hs
    rw [if_pos rfl]
    exact perform_slots_self (race slot value) c i b t rest
  · rw [if_neg hs]
    exact perform_slots_ne (race slot value) c i b t rest hs

theorem race_le {c done : Config ι σ β Unit V} (h : Run (race slot value) c done) (s : σ) :
    done.slots s ≤ c.slots s := by
  obtain ⟨hsteps,_⟩ := h
  induction hsteps using Relation.ReflTransGen.head_induction_on with
  | refl => exact le_refl _
  | @head c next hstep _ ih =>
    cases hstep with
    | @access i b t rest hleft =>
      rw [race_step] at ih
      split at ih
      · exact ih.trans (min_le_left _ _)
      · exact ih

/-- The slot ends at most at each value that races for it. -/
theorem race_le_value {c done : Config ι σ β Unit V} (h : Run (race slot value) c done) {i : ι}
    {bt : β × Unit} (hbt : bt ∈ c.left i) : done.slots (slot bt.1) ≤ value bt.1 := by
  obtain ⟨hsteps,hended⟩ := h
  induction hsteps using Relation.ReflTransGen.head_induction_on with
  | refl =>
    rw [hended i] at hbt
    cases hbt
  | @head c next hstep htail ih =>
    cases hstep with
    | @access j b t rest hleft =>
      have hle := race_le ⟨htail,hended⟩ (slot b)
      rw [race_step, if_pos rfl] at hle
      by_cases hij : i = j
      · subst hij
        rw [hleft] at hbt
        rcases List.mem_cons.1 hbt with rfl | hbt
        · exact hle.trans (min_le_right _ _)
        · apply ih
          rw [perform_left_self]
          exact hbt
      · apply ih
        rw [perform_left_ne _ _ _ _ _ _ hij]
        exact hbt

/-- The slot ends as it began or at a value that races for it. -/
theorem race_eq {c done : Config ι σ β Unit V} (h : Run (race slot value) c done) (s : σ) :
    done.slots s = c.slots s ∨
      ∃ i, ∃ bt ∈ c.left i, slot bt.1 = s ∧ done.slots s = value bt.1 := by
  obtain ⟨hsteps,_⟩ := h
  induction hsteps using Relation.ReflTransGen.head_induction_on with
  | refl => exact Or.inl rfl
  | @head c next hstep _ ih =>
    cases hstep with
    | @access j b t rest hleft =>
      rcases ih with h | ⟨i,bt,hbt,hs,hv⟩
      · rw [race_step] at h
        split at h
        · next hs =>
          rcases min_choice (c.slots s) (value b) with hm | hm
          · exact Or.inl (h.trans hm)
          · exact Or.inr ⟨j,(b,t),by rw [hleft]; exact List.mem_cons_self,hs.symm,h.trans hm⟩
        · exact Or.inl h
      · refine Or.inr ⟨i,bt,?_,hs,hv⟩
        by_cases hij : i = j
        · subst hij
          rw [perform_left_self] at hbt
          rw [hleft]
          exact List.mem_cons_of_mem _ hbt
        · rwa [perform_left_ne _ _ _ _ _ _ hij] at hbt

end Race

/-! ## Runs end

If each further stage of a block weighs less than the one before, every choice
of steps leads to the end. -/

section Ends
variable {T : Tasks σ β τ V} (weight : τ → ℕ)

def blocksWeight (blocks : List (β × τ)) : ℕ := (blocks.map fun bt => weight bt.2 + 1).sum

variable (hweight : ∀ b t v t', (T.access b t v).2 = some t' → weight t' < weight t)
include hweight

omit [DecidableEq σ] in
theorem after_weight (b : β) (t : τ) (v : V) (rest : List (β × τ)) :
    blocksWeight weight (after b (T.access b t v).2 rest) < blocksWeight weight ((b,t)::rest) := by
  cases hn : (T.access b t v).2 with
  | none => simp only [after, blocksWeight, List.map_cons, List.sum_cons]; omega
  | some t' =>
    have := hweight b t v t' hn
    simp only [after, blocksWeight, List.map_cons, List.sum_cons]
    omega

theorem exists_run (n : ℕ) (c : Config ℕ σ β τ V) (hn : ∀ i, n ≤ i → c.left i = []) :
    ∃ done, Run T c done := by
  generalize hm : ∑ i ∈ Finset.range n, blocksWeight weight (c.left i) = m
  induction m using Nat.strong_induction_on generalizing c with
  | h m ih =>
    by_cases hended : ∀ i, c.left i = []
    · exact ⟨c,Relation.ReflTransGen.refl,hended⟩
    · obtain ⟨i,hi⟩ := not_forall.1 hended
      obtain ⟨⟨b,t⟩,rest,hleft⟩ := List.exists_cons_of_ne_nil hi
      have hin : i < n := by
        by_contra hge
        exact hi (hn i (not_lt.1 hge))
      have hless : ∑ j ∈ Finset.range n, blocksWeight weight ((perform T c i b t rest).left j) <
          m := by
        rw [← hm]
        apply Finset.sum_lt_sum
        · intro j _
          by_cases hij : j = i
          · subst hij
            rw [perform_left_self, hleft]
            exact (after_weight weight hweight b t _ rest).le
          · rw [perform_left_ne _ _ _ _ _ _ hij]
        · refine ⟨i,Finset.mem_range.2 hin,?_⟩
          rw [perform_left_self, hleft]
          exact after_weight weight hweight b t _ rest
      obtain ⟨done,hrun⟩ := ih _ hless (perform T c i b t rest) (by
        intro j hj
        rw [perform_left_ne _ _ _ _ _ _ (hin.trans_le hj).ne']
        exact hn j hj) rfl
      exact ⟨done,hrun.steps.head (Step.access hleft),hrun.ended⟩

end Ends

end MoldMacho.Interleave
