import Mathlib.Data.Nat.Notation
import Mathlib.Data.List.Pairwise

/-!
# The first of each key

A walk over numbered elements with keys, in order, keeps the first of each key and
folds the others onto it.
-/

set_option autoImplicit false

namespace MoldMacho.FirstOfKey

variable {κ : Type} [DecidableEq κ]

/-- The elements that are not the first of their key, each with the one that is;
`first` has the keys seen before. -/
def foldOnto (first : List (κ × ℕ)) : List (ℕ × κ) → List (ℕ × ℕ)
  | [] => []
  | (i,k)::rest =>
    match first.lookup k with
    | some w => (i,w)::foldOnto first rest
    | none => foldOnto ((k,i)::first) rest

/-- `w` is the first element of key `k`. -/
def First (l : List (ℕ × κ)) (k : κ) (w : ℕ) : Prop := (w,k) ∈ l ∧ ∀ j, (j,k) ∈ l → w ≤ j

variable {l : List (ℕ × κ)} {first : List (κ × ℕ)} {i w w' : ℕ} {k k' : κ}

theorem mem_fold_onto (hl : l.Pairwise fun a b => a.1 < b.1)
    (hfirst : ∀ k w, first.lookup k = some w → ∀ e ∈ l, w < e.1) (h : (i,w) ∈ foldOnto first l) :
    ∃ k, (i,k) ∈ l ∧ w < i ∧ (first.lookup k = some w ∨ first.lookup k = none ∧ First l k w) := by
  induction l generalizing first with
  | nil => cases h
  | cons e l ih =>
    obtain ⟨j,k'⟩ := e
    obtain ⟨hj,hl⟩ := List.pairwise_cons.1 hl
    rw [foldOnto] at h
    cases hk : first.lookup k' with
    | some v =>
      rw [hk] at h
      have hrest : ∀ k w, first.lookup k = some w → ∀ e ∈ l, w < e.1 := fun k w hw e he =>
        hfirst k w hw e (List.mem_cons_of_mem _ he)
      rcases List.mem_cons.1 h with heq | h
      · obtain ⟨rfl,rfl⟩ := Prod.mk.inj heq
        exact ⟨k',List.mem_cons_self,hfirst _ _ hk _ List.mem_cons_self,Or.inl hk⟩
      · obtain ⟨k,hmem,hlt,hw⟩ := ih hl hrest h
        refine ⟨k,List.mem_cons_of_mem _ hmem,hlt,?_⟩
        rcases hw with hw | ⟨hnone,hw,hleast⟩
        · exact Or.inl hw
        · refine Or.inr ⟨hnone,List.mem_cons_of_mem _ hw,?_⟩
          intro j' hj'
          rcases List.mem_cons.1 hj' with heq | hj'
          · obtain ⟨rfl,rfl⟩ := Prod.mk.inj heq
            rw [hk] at hnone
            cases hnone
          · exact hleast j' hj'
    | none =>
      rw [hk] at h
      have hrest : ∀ k w, ((k',j)::first).lookup k = some w → ∀ e ∈ l, w < e.1 := by
        intro k w hw e he
        rw [List.lookup_cons] at hw
        split at hw
        · obtain rfl := Option.some.inj hw
          exact hj e he
        · exact hfirst k w hw e (List.mem_cons_of_mem _ he)
      obtain ⟨k,hmem,hlt,hw⟩ := ih hl hrest h
      refine ⟨k,List.mem_cons_of_mem _ hmem,hlt,?_⟩
      rw [List.lookup_cons] at hw
      by_cases heq : k = k'
      · subst heq
        -- the element that brings the key in is its first
        rw [beq_self_eq_true] at hw
        rcases hw with hw | ⟨hnone,-⟩
        · obtain rfl := Option.some.inj hw
          refine Or.inr ⟨hk,List.mem_cons_self,?_⟩
          intro j' hj'
          rcases List.mem_cons.1 hj' with heq | hj'
          · exact Nat.le_of_eq (Prod.mk.inj heq).1.symm
          · exact Nat.le_of_lt (hj _ hj')
        · cases hnone
      · rw [beq_eq_false_iff_ne.2 heq] at hw
        rcases hw with hw | ⟨hnone,hw,hleast⟩
        · exact Or.inl hw
        · refine Or.inr ⟨hnone,List.mem_cons_of_mem _ hw,?_⟩
          intro j' hj'
          rcases List.mem_cons.1 hj' with h' | hj'
          · exact absurd (Prod.mk.inj h').2 heq
          · exact hleast j' hj'

/-- What is folded comes after the first of its key. -/
theorem fold_first (hl : l.Pairwise fun a b => a.1 < b.1) (h : (i,w) ∈ foldOnto [] l) :
    w < i ∧ ∃ k, (i,k) ∈ l ∧ First l k w := by
  obtain ⟨k,hmem,hlt,hw⟩ := mem_fold_onto hl (by simp) h
  rcases hw with hw | ⟨-,hw⟩
  · cases hw
  · exact ⟨hlt,k,hmem,hw⟩

theorem key_unique (hl : l.Pairwise fun a b => a.1 < b.1) (h : (i,k) ∈ l) (h' : (i,k') ∈ l) :
    k = k' := by
  have hne : l.Pairwise fun a b => a.1 = b.1 → a = b := hl.imp fun h heq => absurd heq (Nat.ne_of_lt h)
  have : Std.Symm fun a b : ℕ × κ => a.1 = b.1 → a = b := ⟨fun _ _ h heq => (h heq.symm).symm⟩
  by_cases heq : ((i,k) : ℕ × κ) = (i,k')
  · exact (Prod.mk.inj heq).2
  · exact (Prod.mk.inj (hne.forall h h' heq rfl)).2

/-- The first of a key is not folded. -/
theorem first_kept (hl : l.Pairwise fun a b => a.1 < b.1) (h : (i,w) ∈ foldOnto [] l) :
    ∀ v, (w,v) ∉ foldOnto [] l := by
  intro v hv
  obtain ⟨-,k,-,hw⟩ := fold_first hl h
  obtain ⟨hlt,k',hk',hv⟩ := fold_first hl hv
  obtain rfl := key_unique hl hw.1 hk'
  exact absurd (hw.2 v hv.1) (Nat.not_le.2 hlt)

end MoldMacho.FirstOfKey
