import Mathlib.Data.Nat.Notation
import Mathlib.Order.Lattice
import Mathlib.Order.Basic

/-!
# Least labels of walks

A walk over a graph has a length, and is labelled with it and with the tag of
its last edge; labels compare by length first. An assignment of labels that
walks realize and that no edge improves gives each vertex the least of all its
walks' labels, whatever way it was found.
-/

set_option autoImplicit false

namespace MoldMacho.LeastLabels

variable {α τ κ : Type}

/-- A way from a root, and its length. -/
inductive Walk (root : α → Prop) (edge : α → α → ℕ → τ → Prop) : α → ℕ → Prop
  | root {a : α} (h : root a) : Walk root edge a 0
  | step {a b : α} {length hops : ℕ} {tag : τ} (h : Walk root edge a length)
      (he : edge a b hops tag) : Walk root edge b (length+hops)

/-- A label of a vertex: that of a walk to it along an edge at least. -/
def Labelled (root : α → Prop) (edge : α → α → ℕ → τ → Prop) (b : α) (k : ℕ × τ) : Prop :=
  ∃ a length hops, Walk root edge a length ∧ edge a b hops k.2 ∧ k.1 = length+hops

section Least
variable [LinearOrder κ] {root : α → Prop} {edge : α → α → ℕ → τ → Prop} (lab : ℕ × τ → κ)
variable {key : α → Option (ℕ × τ)}

/-- A vertex's label is no more than that of an edge into it, from a walk of a
length. -/
def Settled (edge : α → α → ℕ → τ → Prop) (key : α → Option (ℕ × τ)) (a : α) (length : ℕ) : Prop :=
  ∀ b hops tag, edge a b hops tag → ∃ k, key b = some k ∧ lab k ≤ lab (length+hops,tag)

/-- The least of a vertex's labels, none if it has none. -/
def Least (root : α → Prop) (edge : α → α → ℕ → τ → Prop) (b : α) : Option (ℕ × τ) → Prop
  | some k => Labelled root edge b k ∧ ∀ k', Labelled root edge b k' → lab k ≤ lab k'
  | none => ∀ k, ¬ Labelled root edge b k

variable {lab}

theorem least_congr {root' : α → Prop} {edge' : α → α → ℕ → τ → Prop} {b : α}
    {k : Option (ℕ × τ)} (h : ∀ k, Labelled root edge b k ↔ Labelled root' edge' b k) :
    Least lab root edge b k ↔ Least lab root' edge' b k := by
  cases k with
  | none => simp only [Least, h]
  | some k => simp only [Least, h]

variable (hmono : ∀ m n tag, m ≤ n → lab (m,tag) ≤ lab (n,tag))
variable (hfirst : ∀ k k', lab k ≤ lab k' → k.1 ≤ k'.1)
include hmono hfirst

omit hfirst in
theorem Settled.of_le {a : α} {m n : ℕ} (h : Settled lab edge key a m) (hmn : m ≤ n) :
    Settled lab edge key a n := by
  intro b hops tag he
  obtain ⟨k,hk,hle⟩ := h b hops tag he
  exact ⟨k,hk,hle.trans (hmono _ _ _ (Nat.add_le_add_right hmn hops))⟩

/-- Labels that walks realize and no edge improves are the least. -/
theorem least_of_settled (hreal : ∀ b k, key b = some k → Labelled root edge b k)
    (hroot : ∀ a, root a → Settled lab edge key a 0)
    (hkey : ∀ a k, key a = some k → Settled lab edge key a k.1) (b : α) :
    Least lab root edge b (key b) := by
  have hwalk : ∀ a length, Walk root edge a length → Settled lab edge key a length := by
    intro a length h
    induction h with
    | root h => exact hroot _ h
    | @step a b length hops tag _ he ih =>
      obtain ⟨k,hk,hle⟩ := ih b hops tag he
      exact (hkey b k hk).of_le hmono (hfirst _ _ hle)
  have hall : ∀ k', Labelled root edge b k' → ∃ k, key b = some k ∧ lab k ≤ lab k' := by
    rintro ⟨n,tag⟩ ⟨a,length,hops,hw,he,rfl⟩
    exact hwalk a length hw b hops tag he
  cases hb : key b with
  | some k =>
    refine ⟨hreal b k hb,fun k' hk' => ?_⟩
    obtain ⟨k'',hk'',hle⟩ := hall k' hk'
    rw [hb] at hk''
    rwa [Option.some.inj hk'']
  | none =>
    intro k hk
    obtain ⟨k',hk',-⟩ := hall k hk
    rw [hb] at hk'
    cases hk'

end Least

end MoldMacho.LeastLabels
