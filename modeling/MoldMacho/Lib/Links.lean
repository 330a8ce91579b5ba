import Mathlib.Algebra.Order.Group.Nat
import Mathlib.Data.Finset.Card
import Mathlib.Data.Nat.Find
import Mathlib.Logic.Function.Basic
import Mathlib.Data.Nat.Notation

/-!
# Following links

Elements that may have a link to another. Where no cycle forms, following the
links from an element ends at one without, and linking the ends of two elements
keeps it so.
-/

set_option autoImplicit false

namespace MoldMacho.Links

variable {α : Type}

/-- Follows links to an element without one, so many steps at most. -/
def follow (next : α → Option α) : ℕ → α → Option α
  | 0, _ => none
  | fuel+1, a =>
    match next a with
    | none => some a
    | some b => follow next fuel b

/-- Where the links from an element end. -/
inductive Ends (next : α → Option α) : α → α → Prop
  | done {a : α} (h : next a = none) : Ends next a a
  | step {a b r : α} (h : next a = some b) (hr : Ends next b r) : Ends next a r

/-- No links form a cycle. -/
def Forest (next : α → Option α) : Prop := ∀ a, ∃ r, Ends next a r

variable {next : α → Option α} {a b l r r' w : α}

theorem follow_ends {fuel : ℕ} (h : follow next fuel a = some r) : Ends next a r := by
  induction fuel generalizing a with
  | zero => cases h
  | succ fuel ih =>
    rw [follow] at h
    cases ha : next a with
    | none =>
      rw [ha] at h
      obtain rfl := Option.some.inj h
      exact .done ha
    | some b =>
      rw [ha] at h
      exact .step ha (ih h)

theorem Ends.follow (h : Ends next a r) : ∃ fuel, ∀ more, follow next (fuel+more) a = some r := by
  induction h with
  | done h =>
    refine ⟨1,fun more => ?_⟩
    rw [Nat.add_comm, Links.follow, h]
  | step h _ ih =>
    obtain ⟨fuel,hfuel⟩ := ih
    refine ⟨fuel+1,fun more => ?_⟩
    rw [Nat.succ_add, Links.follow, h]
    exact hfuel more

theorem follow_more {fuel more : ℕ} (h : follow next fuel a = some r) :
    follow next (fuel+more) a = some r := by
  induction fuel generalizing a with
  | zero => cases h
  | succ fuel ih =>
    rw [Nat.succ_add, follow]
    rw [follow] at h
    cases ha : next a with
    | none =>
      rw [ha] at h
      exact h
    | some b =>
      rw [ha] at h
      exact ih h

theorem Ends.last (h : Ends next a r) : next r = none := by
  induction h with
  | done h => exact h
  | step _ _ ih => exact ih

theorem Ends.unique (h : Ends next a r) (h' : Ends next a r') : r = r' := by
  induction h with
  | done h =>
    cases h' with
    | done _ => rfl
    | step hs _ =>
      rw [h] at hs
      cases hs
  | step h _ ih =>
    cases h' with
    | done hd =>
      rw [h] at hd
      cases hd
    | step hs hr =>
      rw [h] at hs
      obtain rfl := Option.some.inj hs
      exact ih hr

/-- Linking elements without a link to ones that stay without closes no cycle. -/
theorem Forest.extend {next' : α → Option α} (h : Forest next)
    (hnext : ∀ a, next' a = next a ∨ next a = none ∧ ∃ w, next' a = some w ∧ next' w = none) :
    Forest next' := by
  intro a
  obtain ⟨r,hr⟩ := h a
  induction hr with
  | @done a ha =>
    rcases hnext a with hsame | ⟨-,w,hw,hlast⟩
    · exact ⟨a,.done (hsame.trans ha)⟩
    · exact ⟨w,.step hw (.done hlast)⟩
  | @step a b r ha _ ih =>
    obtain ⟨r',hr'⟩ := ih
    rcases hnext a with hsame | ⟨hnone,-⟩
    · exact ⟨r',.step (hsame.trans ha) hr'⟩
    · rw [ha] at hnone
      cases hnone

/-- The elements that links lead through from one, by the links left to the end. -/
theorem follow_chain {k : ℕ} (h : follow next (k+1) a = some r) (hk : follow next k a = none) {m : ℕ}
    (hm : m < k) : ∃ p, next p ≠ none ∧ follow next (m+2) p = some r ∧ follow next (m+1) p = none := by
  induction k generalizing a with
  | zero => cases hm
  | succ k ih =>
    cases ha : next a with
    | none =>
      rw [follow, ha] at hk
      cases hk
    | some b =>
      rcases Nat.lt_succ_iff_lt_or_eq.1 hm with hlt | rfl
      · rw [follow, ha] at h hk
        exact ih h hk hlt
      · exact ⟨a,by rw [ha]; exact Option.some_ne_none b,h,hk⟩

/-- If the elements with links are those below `n`, links are followed in so many
steps. -/
theorem follow_bound {next : ℕ → Option ℕ} {a r n : ℕ}
    (hn : ∀ i j, next i = some j → i < n) (h : Ends next a r) : follow next (n+1) a = some r := by
  obtain ⟨fuel,hfuel⟩ := h.follow
  have hex : ∃ k, follow next (k+1) a = some r := ⟨fuel,hfuel 1⟩
  obtain ⟨hk,hmin⟩ : follow next (Nat.find hex + 1) a = some r ∧
      follow next (Nat.find hex) a = none := by
    refine ⟨Nat.find_spec hex,?_⟩
    cases hf : Nat.find hex with
    | zero => rfl
    | succ k =>
      have hlt := @Nat.find_min _ _ hex k (by omega)
      rw [Option.eq_none_iff_forall_ne_some]
      intro r' hr'
      exact hlt (hr'.trans (congrArg some ((follow_ends hr').unique h)))
  have hle : Nat.find hex ≤ n := by
    have hchain (m : ℕ) (hm : m < Nat.find hex) := follow_chain hk hmin hm
    choose! p hp using hchain
    have hmaps : ∀ m ∈ Finset.range (Nat.find hex), p m ∈ Finset.range n := by
      intro m hm
      obtain ⟨j,hj⟩ := Option.ne_none_iff_exists'.1 (hp m (Finset.mem_range.1 hm)).1
      exact Finset.mem_range.2 (hn _ j hj)
    have hne {m m' : ℕ} (hm' : m' < Nat.find hex) (hm : m < Nat.find hex) (hlt : m < m') :
        p m ≠ p m' := by
      intro heq
      obtain ⟨d,rfl⟩ := Nat.exists_eq_add_of_lt hlt
      have hsome := @follow_more _ _ _ _ _ d (heq ▸ (hp m hm).2.1)
      have hnone := (hp _ hm').2.2
      rw [show m + 2 + d = m + d + 1 + 1 by omega, hnone] at hsome
      cases hsome
    have hinj : Set.InjOn p (Finset.range (Nat.find hex)) := by
      intro m hm m' hm' heq
      rcases Nat.lt_trichotomy m m' with hlt | rfl | hlt
      · exact absurd heq (hne (by simpa using hm') (by simpa using hm) hlt)
      · rfl
      · exact absurd heq.symm (hne (by simpa using hm) (by simpa using hm') hlt)
    simpa using Finset.card_le_card_of_injOn p hmaps hinj
  obtain ⟨more,rfl⟩ := Nat.exists_eq_add_of_le hle
  rw [Nat.add_right_comm]
  exact follow_more hk

variable [DecidableEq α]

/-- Linking an element without a link to another such one. -/
theorem ends_link (hl : next l = none) (hw : next w = none) (hne : l ≠ w) (h : Ends next a r) :
    Ends (Function.update next l (some w)) a (if r = l then w else r) := by
  induction h with
  | @done a h =>
    by_cases ha : a = l
    · subst ha
      rw [if_pos rfl]
      have hlast : Function.update next a (some w) w = none := by
        rw [Function.update_of_ne (Ne.symm hne), hw]
      exact .step (Function.update_self _ _ _) (.done hlast)
    · rw [if_neg ha]
      exact .done (by rw [Function.update_of_ne ha, h])
  | @step a b r h _ ih =>
    have ha : a ≠ l := by
      rintro rfl
      rw [hl] at h
      cases h
    exact .step (by rw [Function.update_of_ne ha, h]) ih

theorem Forest.link (h : Forest next) (hl : next l = none) (hw : next w = none) (hne : l ≠ w) :
    Forest (Function.update next l (some w)) := by
  intro a
  obtain ⟨r,hr⟩ := h a
  exact ⟨_,ends_link hl hw hne hr⟩

end MoldMacho.Links
