import Mathlib.Data.List.Basic
import Mathlib.Order.Defs.LinearOrder
import Mathlib.Order.Lattice

/-!
# The last entry at or before a key

A lookup in a list of entries ordered by a key, each of which covers the
keys up to the next one. The lookup comes out the same when the list is cut
into pages with an index over them, and, up to entries that agree, when
runs of entries are merged.
-/

set_option autoImplicit false

namespace MoldMacho.Lookup

variable {α β κ : Type} [LinearOrder κ]

/-- The last entry whose key is at most `k`. -/
def lastAt (key : α → κ) (k : κ) (l : List α) : Option α := (l.filter (key · ≤ k)).getLast?

theorem last_at_append (key : α → κ) (k : κ) (l m : List α) :
    lastAt key k (l ++ m) = (lastAt key k m).or (lastAt key k l) := by
  rw [lastAt, List.filter_append, List.getLast?_append]
  rfl

theorem last_at_cons (key : α → κ) (k : κ) (a : α) (l : List α) :
    lastAt key k (a::l) = (lastAt key k l).or (if key a ≤ k then some a else none) := by
  rw [← List.singleton_append, last_at_append]
  congr 1
  by_cases h : key a ≤ k <;> simp [lastAt, h]

theorem last_at_map (g : β → α) (key : α → κ) (k : κ) (l : List β) :
    lastAt key k (l.map g) = (lastAt (fun b => key (g b)) k l).map g := by
  rw [lastAt, List.filter_map, List.getLast?_map]
  rfl

/-- Only which keys are at most the one looked up matters. -/
theorem last_at_congr {κ' : Type} [LinearOrder κ'] {key : α → κ} {key' : α → κ'} {k : κ} {k' : κ'}
    {l : List α} (h : ∀ a ∈ l, key a ≤ k ↔ key' a ≤ k') : lastAt key k l = lastAt key' k' l := by
  rw [lastAt, lastAt]
  congr 1
  apply List.filter_congr
  intro a ha
  simp [h a ha]

theorem last_at_mem {key : α → κ} {k : κ} {l : List α} {a : α} (h : lastAt key k l = some a) :
    a ∈ l ∧ key a ≤ k := by
  have hm := List.mem_of_getLast? h
  rw [List.mem_filter, decide_eq_true_eq] at hm
  exact hm

theorem last_at_none {key : α → κ} {k : κ} {l : List α} :
    lastAt key k l = none ↔ ∀ a ∈ l, k < key a := by
  simp [lastAt]

theorem last_at_some {key : α → κ} {k : κ} {l : List α} {a : α} (ha : a ∈ l) (hk : key a ≤ k) :
    ∃ b, lastAt key k l = some b := by
  rw [← Option.isSome_iff_exists, lastAt, List.getLast?_isSome]
  apply List.ne_nil_of_mem
  rw [List.mem_filter]
  exact ⟨ha,by simpa using hk⟩

/-- Past what is found, an ordered list has only greater keys. -/
theorem last_at_split {key : α → κ} {k : κ} {l : List α} {a : α} (h : lastAt key k l = some a) :
    ∃ l₁ l₂, l = l₁ ++ a::l₂ ∧ ∀ b ∈ l₂, k < key b := by
  induction l with
  | nil => simp [lastAt] at h
  | cons c l ih =>
    rw [last_at_cons, Option.or_eq_some_iff] at h
    cases h with
    | inl h =>
      obtain ⟨l₁,l₂,rfl,hl⟩ := ih h
      exact ⟨c::l₁,l₂,rfl,hl⟩
    | inr h =>
      obtain ⟨hn,hc⟩ := h
      split at hc
      case isFalse => contradiction
      case isTrue hk =>
        obtain rfl := Option.some.inj hc
        refine ⟨[],l,rfl,?_⟩
        intro b hb
        exact last_at_none.1 hn b hb

/-! Pages. -/

/-- The last page that starts at or before the key has the entry, if each
page starts at its least key. -/
theorem last_at_pages (key : α → κ) (k : κ) (entries : β → List α) (start : β → κ) (pages : List β)
    (hmin : ∀ p ∈ pages, ∀ a ∈ entries p, start p ≤ key a)
    (hstart : ∀ p ∈ pages, ∃ a ∈ entries p, key a = start p) :
    lastAt key k (pages.flatMap entries) =
      (lastAt start k pages).bind fun p => lastAt key k (entries p) := by
  induction pages with
  | nil => rfl
  | cons p pages ih =>
    rw [List.flatMap_cons, last_at_append, last_at_cons,
      ih (fun q hq => hmin q (by simp [hq])) (fun q hq => hstart q (by simp [hq]))]
    cases hl : lastAt start k pages with
    | some q =>
      obtain ⟨hq,hk⟩ := last_at_mem hl
      obtain ⟨a,ha,hs⟩ := hstart q (by simp [hq])
      obtain ⟨b,hb⟩ : ∃ b, lastAt key k (entries q) = some b := last_at_some ha (hs ▸ hk)
      simp [hb]
    | none =>
      by_cases hp : start p ≤ k
      · simp [hp]
      · have hn : lastAt key k (entries p) = none := by
          rw [last_at_none]
          intro a ha
          exact (not_le.1 hp).trans_le (hmin p (by simp) a ha)
        simp [hp, hn]

/-! Merging. -/

/-- A list without the entries that are `same` as the last one kept. -/
def dedupFrom (same : α → α → Bool) (last : α) : List α → List α
  | [] => []
  | a::l => if same a last then dedupFrom same last l else a::dedupFrom same a l

def dedupBy (same : α → α → Bool) : List α → List α
  | [] => []
  | a::l => a::dedupFrom same a l

theorem dedup_from_sublist (same : α → α → Bool) (last : α) (l : List α) :
    (dedupFrom same last l).Sublist l := by
  induction l generalizing last with
  | nil => exact List.Sublist.refl []
  | cons a l ih =>
    rw [dedupFrom]
    split
    case isTrue => exact (ih last).cons a
    case isFalse => exact (ih a).cons_cons a

theorem dedup_by_sublist (same : α → α → Bool) (l : List α) : (dedupBy same l).Sublist l := by
  cases l with
  | nil => exact List.Sublist.refl []
  | cons a l => exact (dedup_from_sublist same a l).cons_cons a

/-- What is found once runs are merged is the entry itself, or the one it
was merged into. -/
theorem last_at_dedup_from {key : α → κ} {k : κ} (same : α → α → Bool) {last : α} {l : List α}
    (hs : (last::l).Pairwise (key · ≤ key ·)) {a : α} (h : lastAt key k (last::l) = some a) :
    ∃ b, lastAt key k (last::dedupFrom same last l) = some b ∧ (b = a ∨ same a b) := by
  induction l generalizing last with
  | nil => exact ⟨a,h,.inl rfl⟩
  | cons c l ih =>
    obtain ⟨hlast,hl⟩ := List.pairwise_cons.1 hs
    have hskip : (last::l).Pairwise (key · ≤ key ·) :=
      List.pairwise_cons.2 ⟨fun b hb => hlast b (by simp [hb]),hl.of_cons⟩
    rw [last_at_cons] at h
    cases hc : lastAt key k (c::l) with
    | none =>
      rw [hc, Option.none_or] at h
      have hnone : lastAt key k (dedupFrom same last (c::l)) = none := by
        rw [last_at_none] at hc ⊢
        intro b hb
        exact hc b ((dedup_from_sublist same last (c::l)).subset hb)
      refine ⟨a,?_,.inl rfl⟩
      rw [last_at_cons, hnone, Option.none_or, h]
    | some d =>
      rw [hc, Option.some_or, Option.some.injEq] at h
      subst h
      rw [dedupFrom]
      split
      case isFalse =>
        obtain ⟨b,hb,hab⟩ := ih hl hc
        refine ⟨b,?_,hab⟩
        rw [last_at_cons, hb, Option.some_or]
      case isTrue hsame =>
        rw [last_at_cons] at hc
        cases hd : lastAt key k l with
        | some e =>
          rw [hd, Option.some_or] at hc
          apply ih hskip
          rw [last_at_cons, hd, Option.some_or, hc]
        | none =>
          -- `c` itself is the entry, merged into `last`
          rw [hd, Option.none_or] at hc
          split at hc
          case isFalse => contradiction
          case isTrue hk =>
            obtain rfl := Option.some.inj hc
            have hnone : lastAt key k (dedupFrom same last l) = none := by
              rw [last_at_none] at hd ⊢
              intro b hb
              exact hd b ((dedup_from_sublist same last l).subset hb)
            refine ⟨last,?_,.inr hsame⟩
            rw [last_at_cons, hnone, Option.none_or, if_pos ((hlast c (by simp)).trans hk)]

theorem last_at_dedup {key : α → κ} {k : κ} (same : α → α → Bool) {l : List α}
    (hs : l.Pairwise (key · ≤ key ·)) {a : α} (h : lastAt key k l = some a) :
    ∃ b, lastAt key k (dedupBy same l) = some b ∧ (b = a ∨ same a b) := by
  cases l with
  | nil => simp [lastAt] at h
  | cons c l => exact last_at_dedup_from same hs h

theorem dedup_from_lt {last : ℕ} {l : List ℕ} (hs : (last::l).Pairwise (· ≤ ·)) :
    (last::dedupFrom (· == ·) last l).Pairwise (· < ·) ∧
      ∀ a, a ∈ last::dedupFrom (· == ·) last l ↔ a ∈ last::l := by
  induction l generalizing last with
  | nil => simp [dedupFrom]
  | cons b l ih =>
    obtain ⟨hlast,hl⟩ := List.pairwise_cons.1 hs
    rw [dedupFrom]
    split
    case isTrue hsame =>
      obtain rfl : b = last := by simpa using hsame
      obtain ⟨hlt,hmem⟩ := ih hl
      exact ⟨hlt,fun a => by rw [hmem]; simp⟩
    case isFalse hdiff =>
      obtain ⟨hlt,hmem⟩ := ih hl
      have hne : b ≠ last := by simpa using hdiff
      have hb : last < b := Nat.lt_of_le_of_ne (hlast b List.mem_cons_self) hne.symm
      constructor
      · refine List.pairwise_cons.2 ⟨fun a ha => ?_,hlt⟩
        rcases List.mem_cons.1 ((hmem a).1 ha) with rfl | ha
        · exact hb
        · exact hb.trans_le ((List.pairwise_cons.1 hl).1 a ha)
      · intro a
        rw [List.mem_cons, hmem, ← List.mem_cons]

/-- Merging the equal numbers of a sorted list leaves each once. -/
theorem dedup_by_lt {l : List ℕ} (hs : l.Pairwise (· ≤ ·)) :
    (dedupBy (· == ·) l).Pairwise (· < ·) ∧ ∀ a, a ∈ dedupBy (· == ·) l ↔ a ∈ l := by
  cases l with
  | nil => simp [dedupBy]
  | cons b l => exact dedup_from_lt hs

end MoldMacho.Lookup
