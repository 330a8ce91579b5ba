import Mathlib.Data.List.Nodup
import Mathlib.Order.Lattice
import Mathlib.Order.Basic
import Mathlib.Data.List.Pairwise

/-!
# Stable sorting by a key
-/

set_option autoImplicit false

namespace MoldMacho.StableSort

variable {α κ : Type} [LinearOrder κ]

def sortBy (key : α → κ) (l : List α) : List α := l.mergeSort fun a b => decide (key a ≤ key b)

theorem le_trans_total (key : α → κ) :
    (∀ a b c, decide (key a ≤ key b) = true → decide (key b ≤ key c) = true →
      decide (key a ≤ key c) = true) ∧
    ∀ a b, (decide (key a ≤ key b) || decide (key b ≤ key a)) = true := by
  constructor
  · intro a b c hab hbc
    simp only [decide_eq_true_eq] at *
    exact hab.trans hbc
  · intro a b
    simp only [Bool.or_eq_true, decide_eq_true_eq]
    exact le_total _ _

theorem sort_perm (key : α → κ) (l : List α) : (sortBy key l).Perm l := List.mergeSort_perm l _

theorem mem_sort {key : α → κ} {l : List α} {a : α} : a ∈ sortBy key l ↔ a ∈ l :=
  List.mem_mergeSort

theorem sort_sorted (key : α → κ) (l : List α) :
    (sortBy key l).Pairwise fun a b => key a ≤ key b := by
  have h := List.pairwise_mergeSort (le_trans_total key).1 (le_trans_total key).2 l
  exact h.imp (by simp)

/-- The elements of a key are those of the list, in its order. -/
theorem sort_filter [DecidableEq κ] (key : α → κ) (l : List α) (k : κ) :
    (sortBy key l).filter (fun a => key a = k) = l.filter fun a => key a = k := by
  have hle : (l.filter fun a => key a = k).Pairwise fun a b => decide (key a ≤ key b) = true := by
    rw [List.pairwise_iff_forall_sublist]
    intro a b hab
    have ha := List.of_mem_filter (hab.subset List.mem_cons_self)
    have hb := List.of_mem_filter (hab.subset (List.mem_cons_of_mem _ List.mem_cons_self))
    simp only [decide_eq_true_eq] at ha hb ⊢
    exact (ha.trans hb.symm).le
  have hsub := List.sublist_mergeSort (le_trans_total key).1 (le_trans_total key).2 hle
    List.filter_sublist
  have hfilter := hsub.filter fun a => key a = k
  rw [List.filter_filter] at hfilter
  have hlen := ((sort_perm key l).filter fun a => key a = k).length_eq
  have hsame : (l.filter fun a => key a = k).Sublist
      ((sortBy key l).filter fun a => key a = k) := by
    simpa [sortBy] using hfilter
  exact (hsame.eq_of_length hlen.symm).symm

theorem sort_const (k : κ) (l : List α) : sortBy (fun _ => k) l = l :=
  List.mergeSort_of_pairwise (List.pairwise_of_forall fun _ _ => decide_eq_true (le_refl k))

section TwoKeys
variable {κ' : Type} [LinearOrder κ'] (first : α → κ') (second : α → κ) (l : List α)

/-- A sort by a first key after one by a second orders by both. -/
theorem sort_twice_sorted [DecidableEq κ'] :
    (sortBy first (sortBy second l)).Pairwise fun a b =>
      first a < first b ∨ first a = first b ∧ second a ≤ second b := by
  apply List.pairwise_of_forall_sublist
  intro a b hab
  rcases lt_or_eq_of_le ((sort_sorted first _).forall_sublist hab) with hlt | heq
  · exact Or.inl hlt
  · have hsub := hab.filter fun c => decide (first c = first a)
    rw [sort_filter, List.filter_cons_of_pos (by simp), List.filter_cons_of_pos (by simp [heq]),
      List.filter_nil] at hsub
    exact Or.inr ⟨heq,(sort_sorted second l).forall_sublist (hsub.trans List.filter_sublist)⟩

theorem sort_twice_filter [DecidableEq κ] [DecidableEq κ'] (k : κ') (k' : κ) :
    (sortBy first (sortBy second l)).filter (fun a => first a = k ∧ second a = k') =
      l.filter fun a => first a = k ∧ second a = k' := by
  have hsplit : ∀ l : List α, l.filter (fun a => decide (first a = k ∧ second a = k')) =
      (l.filter fun a => first a = k).filter fun a => second a = k' := by
    intro l
    rw [List.filter_filter]
    congr 1
    ext a
    rw [Bool.decide_and, Bool.and_comm]
  rw [hsplit, hsplit, sort_filter, List.filter_comm, sort_filter, List.filter_comm]

end TwoKeys

variable [DecidableEq α]

theorem nodup_pair_once {l : List α} {a b : α} (hl : l.Nodup) (h : [a,b].Sublist l)
    (h' : [b,a].Sublist l) : False := by
  have hidx : l.Pairwise fun a b => l.idxOf a < l.idxOf b := by
    rw [List.pairwise_iff_getElem]
    intro i j hi hj hij
    rw [hl.idxOf_getElem, hl.idxOf_getElem]
    exact hij
  exact absurd (hidx.forall_sublist h) (Nat.lt_asymm (hidx.forall_sublist h'))

omit [DecidableEq α] in
theorem pair_sublist {l : List α} {a b : α} (ha : a ∈ l) (hb : b ∈ l) (hne : a ≠ b) :
    [a,b].Sublist l ∨ [b,a].Sublist l := by
  have hpair : l.Pairwise fun a b => [a,b].Sublist l ∨ [b,a].Sublist l :=
    List.pairwise_of_forall_sublist fun h => Or.inl h
  have : Std.Symm fun a b => [a,b].Sublist l ∨ [b,a].Sublist l := { symm _ _ h := h.symm }
  exact hpair.forall ha hb hne

/-- Elements of one key stay in their order. -/
theorem sort_stable (key : α → κ) {l : List α} {r : α → α → Prop} (h : l.Pairwise r)
    (hl : l.Nodup) :
    (sortBy key l).Pairwise fun a b => key a < key b ∨ key a = key b ∧ r a b := by
  have hnodup : (sortBy key l).Nodup := (sort_perm key l).nodup_iff.2 hl
  apply List.pairwise_of_forall_sublist
  intro a b hab
  rcases lt_or_eq_of_le ((sort_sorted key l).forall_sublist hab) with hlt | heq
  · exact Or.inl hlt
  · have hne : a ≠ b := by simpa using hab.nodup hnodup
    have ha : a ∈ l := mem_sort.1 (hab.subset (by simp))
    have hb : b ∈ l := mem_sort.1 (hab.subset (by simp))
    rcases pair_sublist ha hb hne with h1 | h1
    · exact Or.inr ⟨heq,h.forall_sublist h1⟩
    · have hback : [b,a].Sublist (sortBy key l) :=
        List.pair_sublist_mergeSort (le_trans_total key).1 (le_trans_total key).2
          (decide_eq_true heq.ge) h1
      exact (nodup_pair_once hnodup hab hback).elim

/-- The places in a list in order tell which of two elements comes first. -/
theorem idxOf_lt_iff {l : List α} {r : α → α → Prop} (h : l.Pairwise r)
    (hr : ∀ a b, r a b → ¬ r b a) {a b : α} (ha : a ∈ l) (hb : b ∈ l) :
    l.idxOf a < l.idxOf b ↔ r a b := by
  have hlt := List.pairwise_iff_getElem.1 h
  have hia := List.idxOf_lt_length_of_mem ha
  have hib := List.idxOf_lt_length_of_mem hb
  constructor
  · intro hab
    simpa using hlt _ _ hia hib hab
  · intro hab
    rcases Nat.lt_trichotomy (l.idxOf a) (l.idxOf b) with h | h | h
    · exact h
    · have heq : a = b := (List.idxOf_inj ha).1 h
      exact absurd hab (heq ▸ fun h => hr _ _ h h)
    · exact absurd hab (hr _ _ (by simpa using hlt _ _ hib hia h))

end MoldMacho.StableSort
