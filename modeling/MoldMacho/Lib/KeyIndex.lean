import Mathlib.Data.List.Induction
import Mathlib.Data.Nat.Notation

/-!
# An index of a list by keys

Items of a list that grows at its end, each found by its key, if it has one. No two
have the same.
-/

set_option autoImplicit false

namespace MoldMacho.KeyIndex

variable {κ α : Type} {key : α → Option κ} {index : κ → Option ℕ} {items : List α} {a : α} {k : κ}

def Finds (index : κ → Option ℕ) (key : α → Option κ) (items : List α) : Prop :=
  ∀ k (i : ℕ), index k = some i ↔ ∃ a, items[i]? = some a ∧ key a = some k

theorem finds_nil (key : α → Option κ) : Finds (fun _ => none) key [] := by
  intro k i
  simp

theorem concat_get {i : ℕ} {b : α} :
    (items ++ [a])[i]? = some b ↔ items[i]? = some b ∨ i = items.length ∧ a = b := by
  rcases Nat.lt_trichotomy i items.length with hi | rfl | hi
  · rw [List.getElem?_append_left hi]
    exact (or_iff_left fun h => Nat.ne_of_lt hi h.1).symm
  · rw [List.getElem?_concat_length, List.getElem?_eq_none (Nat.le_refl _)]
    simp
  · rw [List.getElem?_append_right (Nat.le_of_lt hi), List.getElem?_eq_none (Nat.le_of_lt hi),
      List.getElem?_eq_none (by rw [List.length_singleton]; omega)]
    exact iff_of_false nofun fun h => h.elim nofun fun h => Nat.ne_of_gt hi h.1

namespace Finds

theorem concat [DecidableEq κ] (h : Finds index key items) (ha : key a = some k)
    (hk : ∀ b ∈ items, key b ≠ some k) :
    Finds (fun k' => if k' = k then some items.length else index k') key (items ++ [a]) := by
  intro k' i
  simp only [concat_get, or_and_right, exists_or]
  by_cases hk' : k' = k
  · subst hk'
    have hno : ¬∃ b, items[i]? = some b ∧ key b = some k' := fun ⟨b,hb,hkey⟩ =>
      hk b (List.mem_of_getElem? hb) hkey
    rw [if_pos rfl, or_iff_right hno, Option.some.injEq]
    constructor
    · rintro rfl
      exact ⟨a,⟨rfl,rfl⟩,ha⟩
    · rintro ⟨b,⟨hi,-⟩,-⟩
      exact hi.symm
  · rw [if_neg hk', h k' i]
    refine (or_iff_left ?_).symm
    rintro ⟨b,⟨-,rfl⟩,hkey⟩
    rw [ha] at hkey
    exact hk' (Option.some.inj hkey).symm

theorem concat_none (h : Finds index key items) (ha : key a = none) :
    Finds index key (items ++ [a]) := by
  intro k i
  simp only [concat_get, or_and_right, exists_or]
  rw [h k i]
  refine (or_iff_left ?_).symm
  rintro ⟨b,⟨-,rfl⟩,hkey⟩
  rw [ha] at hkey
  cases hkey

theorem get (h : Finds index key items) {i : ℕ} (hi : index k = some i) :
    ∃ a, items[i]? = some a ∧ key a = some k := (h k i).1 hi

end Finds

/-- No two of the items have a key in common. -/
def Distinct (key : α → Option κ) (items : List α) : Prop :=
  items.Pairwise fun a b => ∀ k, key a = some k → key b ≠ some k

theorem Finds.distinct (h : Finds index key items) : Distinct key items := by
  rw [Distinct, List.pairwise_iff_getElem]
  intro i j hi hj hij k hki hkj
  have hindex := (h k i).2 ⟨_,List.getElem?_eq_getElem hi,hki⟩
  rw [(h k j).2 ⟨_,List.getElem?_eq_getElem hj,hkj⟩] at hindex
  exact Nat.ne_of_gt hij (Option.some.inj hindex)

/-- The index filled in a walk over the items. -/
def fill [DecidableEq κ] (key : α → Option κ) (items : List α) : κ → Option ℕ :=
  items.zipIdx.foldl (fun f a k => if key a.1 = some k then some a.2 else f k) fun _ => none

end MoldMacho.KeyIndex
