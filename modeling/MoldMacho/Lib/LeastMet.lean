import Mathlib.Data.List.Basic
import Mathlib.Order.Lattice

/-!
# The first of the least

A walk over elements keeps one with the least key it has met, and of those the
first. Which it keeps depends on their order where two have the least key; what
the key is does not.
-/

set_option autoImplicit false

namespace MoldMacho.LeastMet

variable {α κ : Type} [LinearOrder κ] (key : α → κ)

def meet (best : Option α) (a : α) : Option α :=
  match best with
  | none => some a
  | some b => if key a < key b then some a else some b

def leastMet (l : List α) : Option α := l.foldl (meet key) none

variable {key} {l l' : List α} {a b : α}

theorem meet_from (l : List α) (b : α) :
    ∃ a ∈ b::l, l.foldl (meet key) (some b) = some a ∧ ∀ c ∈ b::l, key a ≤ key c := by
  induction l generalizing b with
  | nil => exact ⟨b,by simp⟩
  | cons d l ih =>
    by_cases h : key d < key b
    · obtain ⟨a,ha,hmet,hleast⟩ := ih d
      refine ⟨a,List.mem_cons_of_mem b ha,?_,?_⟩
      · show l.foldl (meet key) (if key d < key b then some d else some b) = some a
        rw [if_pos h, hmet]
      · rw [List.forall_mem_cons]
        exact ⟨le_trans (hleast d List.mem_cons_self) (le_of_lt h),hleast⟩
    · obtain ⟨a,ha,hmet,hleast⟩ := ih b
      rw [List.forall_mem_cons] at hleast
      refine ⟨a,?_,?_,?_⟩
      · rcases List.mem_cons.1 ha with rfl | ha
        · exact List.mem_cons_self
        · exact List.mem_cons_of_mem b (List.mem_cons_of_mem d ha)
      · show l.foldl (meet key) (if key d < key b then some d else some b) = some a
        rw [if_neg h, hmet]
      · rw [List.forall_mem_cons, List.forall_mem_cons]
        exact ⟨hleast.1,le_trans hleast.1 (not_lt.1 h),hleast.2⟩

theorem least_met_none : leastMet key l = none ↔ l = [] := by
  cases l with
  | nil => simp [leastMet]
  | cons b l =>
    obtain ⟨a,-,hmet,-⟩ := @meet_from α κ _ key l b
    show l.foldl (meet key) (some b) = none ↔ _
    simp [hmet]

theorem least_met_mem (h : leastMet key l = some a) : a ∈ l ∧ ∀ b ∈ l, key a ≤ key b := by
  cases l with
  | nil => simp [leastMet] at h
  | cons b l =>
    obtain ⟨a',ha,hmet,hleast⟩ := @meet_from α κ _ key l b
    change l.foldl (meet key) (some b) = some a at h
    rw [hmet] at h
    cases h
    exact ⟨ha,hleast⟩

/-- A walk that begins with one that has the least key keeps it. -/
theorem least_met_first (h : ∀ b ∈ l, key a ≤ key b) : leastMet key (a::l) = some a := by
  show l.foldl (meet key) (some a) = some a
  induction l with
  | nil => rfl
  | cons b l ih =>
    rw [List.forall_mem_cons] at h
    show l.foldl (meet key) (if key b < key a then some b else some a) = some a
    rw [if_neg (not_lt.2 h.1)]
    exact ih h.2

/-- Walks over the same elements keep one with the same key. -/
theorem least_met_key (h : ∀ a, a ∈ l ↔ a ∈ l') :
    (leastMet key l).map key = (leastMet key l').map key := by
  cases hl : leastMet key l with
  | none =>
    have hnil : l = [] := least_met_none.1 hl
    subst l
    have hnil' : l' = [] := List.eq_nil_iff_forall_not_mem.2 fun a ha => nomatch (h a).2 ha
    rw [hnil']
    rfl
  | some a =>
    obtain ⟨ha,hleast⟩ := least_met_mem hl
    cases hl' : leastMet key l' with
    | none =>
      rw [least_met_none.1 hl'] at h
      exact nomatch (h a).1 ha
    | some a' =>
      obtain ⟨ha',hleast'⟩ := least_met_mem hl'
      rw [Option.map_some, Option.map_some, Option.some_inj]
      exact le_antisymm (hleast a' ((h a').2 ha')) (hleast' a ((h a).1 ha))

end MoldMacho.LeastMet
