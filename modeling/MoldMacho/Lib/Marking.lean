import Mathlib.Data.Finset.Insert
import Mathlib.Data.Multiset.AddSub
import Mathlib.Logic.Relation

/-!
# Marking a graph

A marker owns a set of marked vertices and a bag of work: vertices whose
edges it has yet to follow, and targets it has yet to look at. However the
bag is cut up and whichever piece of work comes next, an emptied bag leaves
exactly the vertices reachable from the first ones marked.
-/

set_option autoImplicit false

namespace MoldMacho.Marking

variable {α : Type*} (edges : α → List α)

/-- The vertices reachable from `roots`. -/
def Reach (roots : Set α) : Set α :=
  {y | ∃ x ∈ roots, Relation.ReflTransGen (fun a b => b ∈ edges a) x y}

def Closed (s : Set α) : Prop := ∀ x ∈ s, ∀ y ∈ edges x, y ∈ s

variable {edges}

theorem roots_subset_reach (roots : Set α) : roots ⊆ Reach edges roots := by
  intro x hx
  exact ⟨x,hx,.refl⟩

theorem reach_closed (roots : Set α) : Closed edges (Reach edges roots) := by
  intro y hy z hz
  cases hy with
  | intro x hx => exact ⟨x,hx.1,hx.2.tail hz⟩

theorem reach_least {roots s : Set α} (hr : roots ⊆ s) (hs : Closed edges s) :
    Reach edges roots ⊆ s := by
  intro y hy
  cases hy with
  | intro x hx =>
    have path := hx.2
    induction path with
    | refl => exact hr hx.1
    | tail _ hz ih => exact hs _ (ih ⟨hx.1,‹_›⟩) _ hz

/-- A piece of work: a marked vertex to expand, or a target to look at. -/
inductive Work (α : Type*) where
  | expand (x : α)
  | look (y : α)

/-- A marker: what is marked and the work left. -/
structure Marker (α : Type*) where
  marked : Finset α
  work : Multiset (Work α)

variable [DecidableEq α]

variable (edges) in
/-- One step takes any piece of work out of the bag. -/
inductive Step : Marker α → Marker α → Prop where
  | expand (v : Finset α) (x : α) (w : Multiset (Work α)) :
      Step ⟨v, .expand x ::ₘ w⟩ ⟨v, ((edges x).map Work.look : Multiset (Work α))+w⟩
  | seen (v : Finset α) (y : α) (w : Multiset (Work α)) (h : y ∈ v) :
      Step ⟨v, .look y ::ₘ w⟩ ⟨v, w⟩
  | mark (v : Finset α) (y : α) (w : Multiset (Work α)) (h : y ∉ v) :
      Step ⟨v, .look y ::ₘ w⟩ ⟨insert y v, .expand y ::ₘ w⟩

/-- Any number of steps. -/
abbrev Steps (edges : α → List α) : Marker α → Marker α → Prop :=
  Relation.ReflTransGen (Step edges)

/-- Work that others own does not matter to a step. -/
theorem Step.frame {m m' : Marker α} (h : Step edges m m') (w : Multiset (Work α)) :
    Step edges ⟨m.marked, m.work+w⟩ ⟨m'.marked, m'.work+w⟩ := by
  cases h with
  | expand v x w' =>
    have hs : Step edges _ _ := .expand v x (w'+w)
    simpa [Multiset.add_assoc] using hs
  | seen v y w' hy =>
    have hs : Step edges _ _ := .seen v y (w'+w) hy
    simpa using hs
  | mark v y w' hy =>
    have hs : Step edges _ _ := .mark v y (w'+w) hy
    simpa using hs

theorem steps_frame {m m' : Marker α} (h : Steps edges m m') (w : Multiset (Work α)) :
    Steps edges ⟨m.marked, m.work+w⟩ ⟨m'.marked, m'.work+w⟩ := by
  induction h with
  | refl => exact .refl
  | tail _ hs ih => exact ih.tail (hs.frame w)

variable (edges) in
/-- Nothing marked loses an edge: its target is marked, or is still to be
looked at, or the vertex is still to be expanded. -/
def Covered (m : Marker α) : Prop :=
  ∀ x ∈ m.marked, ∀ y ∈ edges x, y ∈ m.marked ∨ .look y ∈ m.work ∨ .expand x ∈ m.work

/-- Nothing outside `s` is marked or about to be. -/
def Within (s : Set α) (m : Marker α) : Prop :=
  ↑m.marked ⊆ s ∧ (∀ x, .expand x ∈ m.work → x ∈ s) ∧ ∀ y, .look y ∈ m.work → y ∈ s

theorem Step.marked_subset {m m' : Marker α} (h : Step edges m m') : m.marked ⊆ m'.marked := by
  cases h with
  | expand => exact subset_rfl
  | seen => exact subset_rfl
  | mark => exact Finset.subset_insert _ _

theorem steps_marked_subset {m m' : Marker α} (h : Steps edges m m') :
    m.marked ⊆ m'.marked := by
  induction h with
  | refl => exact subset_rfl
  | tail _ hs ih => exact ih.trans hs.marked_subset

theorem Step.covered {m m' : Marker α} (h : Step edges m m') (hc : Covered edges m) :
    Covered edges m' := by
  cases h with
  | expand v x w =>
    intro a ha b hb
    have hab := hc a ha b hb
    by_cases hx : a = x
    · subst hx
      simp [hb]
    · simp [hx] at hab ⊢
      grind
  | seen v y w hy =>
    intro a ha b hb
    have hab := hc a ha b hb
    simp at hab ⊢
    grind
  | mark v y w hy =>
    intro a ha b hb
    by_cases hy' : a = y
    · simp [hy']
    · have hav : a ∈ v := by simpa [hy'] using ha
      have hab := hc a hav b hb
      simp at hab ⊢
      grind

theorem Step.within {s : Set α} (hs : Closed edges s) {m m' : Marker α}
    (h : Step edges m m') (hw : Within s m) : Within s m' := by
  cases h with
  | expand v x w =>
    have hx : x ∈ s := hw.2.1 x (by simp)
    constructor
    · exact hw.1
    · constructor
      · intro a ha
        exact hw.2.1 a (by simpa using Or.inr ha)
      · intro b hb
        simp at hb
        cases hb with
        | inl hb => exact hs x hx b hb
        | inr hb => exact hw.2.2 b (by simp [hb])
  | seen v y w hy =>
    constructor
    · exact hw.1
    · exact ⟨fun a ha => hw.2.1 a (by simp [ha]), fun b hb => hw.2.2 b (by simp [hb])⟩
  | mark v y w hy =>
    have hys : y ∈ s := hw.2.2 y (by simp)
    constructor
    · simpa [Set.insert_subset_iff] using ⟨hys,hw.1⟩
    · constructor
      · intro a ha
        simp at ha
        cases ha with
        | inl ha => exact ha ▸ hys
        | inr ha => exact hw.2.1 a (by simp [ha])
      · intro b hb
        exact hw.2.2 b (by simpa using Or.inr hb)

theorem steps_covered {m m' : Marker α} (h : Steps edges m m') (hc : Covered edges m) :
    Covered edges m' := by
  induction h with
  | refl => exact hc
  | tail _ hs ih => exact hs.covered ih

theorem steps_within {s : Set α} (hs : Closed edges s) {m m' : Marker α}
    (h : Steps edges m m') (hw : Within s m) : Within s m' := by
  induction h with
  | refl => exact hw
  | tail _ hstep ih => exact hstep.within hs ih

omit [DecidableEq α] in
/-- Once the work is done the marked vertices are closed under edges. -/
theorem covered_closed {m : Marker α} (h : Covered edges m) (hw : m.work = 0) :
    Closed edges (↑m.marked : Set α) := by
  intro x hx y hy
  have := h x hx y hy
  simpa [hw] using this

/-- What was to be looked at is marked, or is still to be looked at. -/
def Kept (s : Set α) (m : Marker α) : Prop := ∀ y ∈ s, y ∈ m.marked ∨ .look y ∈ m.work

theorem Step.kept {s : Set α} {m m' : Marker α} (h : Step edges m m') (hk : Kept s m) :
    Kept s m' := by
  intro y hy
  have hym := hk y hy
  cases h with
  | expand v x w =>
    rw [Multiset.mem_cons, Multiset.mem_add] at *
    rcases hym with hm | hl | hl
    · exact .inl hm
    · cases hl
    · exact .inr (.inr hl)
  | seen v z w hz =>
    rw [Multiset.mem_cons] at hym
    rcases hym with hm | hl | hl
    · exact .inl hm
    · cases hl
      exact .inl hz
    · exact .inr hl
  | mark v z w hz =>
    rw [Multiset.mem_cons] at *
    rcases hym with hm | hl | hl
    · exact .inl (Finset.mem_insert_of_mem hm)
    · cases hl
      exact .inl (Finset.mem_insert_self _ _)
    · exact .inr (.inr hl)

theorem steps_kept {s : Set α} {m m' : Marker α} (h : Steps edges m m') (hk : Kept s m) :
    Kept s m' := by
  induction h with
  | refl => exact hk
  | tail _ hs ih => exact hs.kept ih

/-- With everything marked still to be expanded, an emptied bag leaves exactly
what is reachable from it and from what was to be looked at. -/
theorem steps_reach_all {m : Marker α} {v : Finset α}
    (hm : ∀ x, .expand x ∈ m.work ↔ x ∈ m.marked) (h : Steps edges m ⟨v, 0⟩) :
    (↑v : Set α) = Reach edges {x | x ∈ m.marked ∨ .look x ∈ m.work} := by
  apply Set.Subset.antisymm
  · have start : Within (Reach edges {x | x ∈ m.marked ∨ .look x ∈ m.work}) m := by
      constructor
      · exact fun x hx => roots_subset_reach _ (.inl hx)
      · exact ⟨fun x hx => roots_subset_reach _ (.inl ((hm x).1 hx)),
          fun y hy => roots_subset_reach _ (.inr hy)⟩
    exact (steps_within (reach_closed _) h start).1
  · apply reach_least
    · intro x hx
      rcases hx with hx | hx
      · exact steps_marked_subset h hx
      · have start : Kept {y | .look y ∈ m.work} m := fun y hy => .inr hy
        simpa using steps_kept h start x hx
    · have start : Covered edges m := by
        intro x hx y hy
        exact .inr (.inr ((hm x).2 hx))
      exact covered_closed (steps_covered h start) rfl

/-- From `roots` marked and to be expanded, an emptied bag leaves exactly
what is reachable from them. -/
theorem steps_reach (roots : Finset α) {v : Finset α} (w : Multiset (Work α))
    (hw : ∀ a, a ∈ w ↔ ∃ x ∈ roots, a = .expand x)
    (h : Steps edges ⟨roots, w⟩ ⟨v, 0⟩) : (↑v : Set α) = Reach edges ↑roots := by
  have hreach := steps_reach_all (m := ⟨roots,w⟩) (fun x => by simp [hw]) h
  simpa [hw] using hreach

/-- A closed set with one vertex more, to be expanded, is closed again
once the work is done. -/
theorem steps_closed {v v' : Finset α} {x : α} (hv : Closed edges (↑v : Set α))
    (h : Steps edges ⟨insert x v, {.expand x}⟩ ⟨v', 0⟩) : Closed edges (↑v' : Set α) := by
  have start : Covered edges ⟨insert x v, {.expand x}⟩ := by
    intro a ha y hy
    by_cases hax : a = x
    · simp [hax]
    · have hav : a ∈ v := by simpa [hax] using ha
      have hyv : y ∈ v := by exact_mod_cast hv a hav y hy
      simp [hyv]
  exact covered_closed (steps_covered h start) rfl

end MoldMacho.Marking
