import Mathlib.Data.Finset.Card
import Mathlib.Data.Fintype.Card
import Mathlib.Data.Nat.ModEq
import Mathlib.Logic.Function.Basic

/-!
# Linear probing

A table of slots, some with a key, where a key is looked for from its home
slot on, around the end of the table, up to its own slot or a vacant one.
-/

set_option autoImplicit false

namespace MoldMacho.LinearProbing

/-- The first of `n` slots from slot `i` on at which to stop. -/
def scan (stop : ℕ → Bool) (len : ℕ) : ℕ → ℕ → Option ℕ
  | 0, _ => none
  | n+1, i => if stop i then some i else scan stop len n ((i+1)%len)

section Scan
variable {stop : ℕ → Bool} {len : ℕ}

theorem step_slot (i d : ℕ) : ((i+1)%len+d)%len = (i+(d+1))%len := by
  rw [Nat.mod_add_mod]
  congr 1
  omega

theorem scan_some {n i j : ℕ} (hi : i < len) (h : scan stop len n i = some j) :
    ∃ d < n, j = (i+d)%len ∧ stop j ∧ ∀ e < d, stop ((i+e)%len) = false := by
  induction n generalizing i with
  | zero => cases h
  | succ n ih =>
    rw [scan] at h
    split at h
    case isTrue hs =>
      obtain rfl := Option.some.inj h
      exact ⟨0,Nat.succ_pos n,(Nat.mod_eq_of_lt hi).symm,hs,by simp⟩
    case isFalse hs =>
      obtain ⟨d,hd,rfl,hstop,hbefore⟩ := ih (Nat.mod_lt _ (by omega)) h
      refine ⟨d+1,by omega,step_slot i d,hstop,?_⟩
      intro e he
      cases e with
      | zero => simpa [Nat.mod_eq_of_lt hi] using hs
      | succ e =>
        rw [← step_slot]
        exact hbefore e (by omega)

theorem scan_eq {n i d : ℕ} (hi : i < len) (hd : d < n) (hstop : stop ((i+d)%len))
    (hbefore : ∀ e < d, stop ((i+e)%len) = false) : scan stop len n i = some ((i+d)%len) := by
  induction n generalizing i d with
  | zero => omega
  | succ n ih =>
    rw [scan]
    cases d with
    | zero =>
      have hz : (i+0)%len = i := Nat.mod_eq_of_lt hi
      rw [hz] at hstop ⊢
      rw [if_pos hstop]
    | succ d =>
      have hnow := hbefore 0 (Nat.succ_pos d)
      rw [Nat.add_zero, Nat.mod_eq_of_lt hi] at hnow
      rw [if_neg (by rw [hnow]; exact Bool.false_ne_true), ← step_slot i d]
      refine ih (d := d) (Nat.mod_lt _ (by omega)) (by omega) (by rwa [step_slot]) ?_
      intro e he
      rw [step_slot]
      exact hbefore (e+1) (by omega)

/-- Every slot is met on the way around. -/
theorem slot_met {i j : ℕ} (hi : i < len) (hj : j < len) : ∃ d < len, (i+d)%len = j := by
  by_cases h : i ≤ j
  · refine ⟨j-i,by omega,?_⟩
    rw [show i+(j-i) = j by omega, Nat.mod_eq_of_lt hj]
  · refine ⟨j+len-i,by omega,?_⟩
    rw [show i+(j+len-i) = j+len by omega, Nat.add_mod_right, Nat.mod_eq_of_lt hj]

theorem slots_apart {i d e : ℕ} (hd : d < len) (he : e < len) (h : (i+d)%len = (i+e)%len) :
    d = e := by
  have h' : Nat.ModEq len d e := Nat.ModEq.add_left_cancel' i h
  rwa [Nat.ModEq, Nat.mod_eq_of_lt hd, Nat.mod_eq_of_lt he] at h'

theorem scan_stops {i j : ℕ} (hi : i < len) (hj : j < len) (hstop : stop j) :
    ∃ k, scan stop len len i = some k := by
  obtain ⟨d,hd,rfl⟩ := slot_met hi hj
  induction d using Nat.strong_induction_on with
  | h d ih =>
    by_cases hbefore : ∀ e < d, stop ((i+e)%len) = false
    · exact ⟨_,scan_eq hi hd hstop hbefore⟩
    · push Not at hbefore
      obtain ⟨e,he,hs⟩ := hbefore
      exact ih e he (by omega) (Nat.mod_lt _ (by omega)) (by simpa using hs)

theorem scan_congr {stop' : ℕ → Bool} (h : ∀ i < len, stop i = stop' i) {n i : ℕ} (hi : i < len) :
    scan stop len n i = scan stop' len n i := by
  induction n generalizing i with
  | zero => rfl
  | succ n ih => rw [scan, scan, h i hi, ih (Nat.mod_lt _ (by omega))]

end Scan

section Table
variable {κ : Type} [DecidableEq κ] {len : ℕ} {home : κ → ℕ} {table : ℕ → Option κ}

/-- Each key is in one slot, with no vacant one on its way. -/
structure Probed (len : ℕ) (home : κ → ℕ) (table : ℕ → Option κ) : Prop where
  reach : ∀ i < len, ∀ k, table i = some k →
    ∃ d < len, i = (home k+d)%len ∧ ∀ e < d, table ((home k+e)%len) ≠ none
  once : ∀ i < len, ∀ j < len, ∀ k, table i = some k → table j = some k → i = j

/-- Where a search for a key stops. -/
def stops (table : ℕ → Option κ) (k : κ) (i : ℕ) : Bool := table i = none ∨ table i = some k

omit [DecidableEq κ] in
theorem probed_empty : Probed len home fun _ => none where
  reach := by simp
  once := by simp

theorem scan_found (h : Probed len home table) {i : ℕ} {k : κ} (hhome : home k < len)
    (hi : i < len) (hk : table i = some k) :
    scan (stops table k) len len (home k) = some i := by
  obtain ⟨d,hd,rfl,hbefore⟩ := h.reach i hi k hk
  refine scan_eq hhome hd (by simp [stops, hk]) ?_
  intro e he
  simp only [stops, decide_eq_false_iff_not, not_or]
  refine ⟨hbefore e he,fun hke => ?_⟩
  have hsame := h.once _ (Nat.mod_lt _ (by omega)) _ hi k hke hk
  exact he.ne (slots_apart (by omega) hd hsame)

/-- A search that stops at the key only. -/
theorem scan_key (h : Probed len home table) {i : ℕ} {k : κ} (hhome : home k < len)
    (hi : i < len) (hk : table i = some k) :
    scan (fun j => table j = some k) len len (home k) = some i := by
  obtain ⟨d,hd,rfl,_⟩ := h.reach i hi k hk
  refine scan_eq hhome hd (by simp [hk]) ?_
  intro e he
  rw [decide_eq_false_iff_not]
  intro hke
  have hsame := h.once _ (Nat.mod_lt _ (by omega)) _ hi k hke hk
  exact he.ne (slots_apart (by omega) hd hsame)

/-- A key that is not in the table leads to a vacant slot and may go there. -/
theorem scan_vacant (h : Probed len home table) {k : κ} (hhome : home k < len)
    (hk : ∀ i < len, table i ≠ some k) (hvacant : ∃ i < len, table i = none) :
    ∃ i < len, scan (stops table k) len len (home k) = some i ∧ table i = none ∧
      Probed len home (Function.update table i (some k)) := by
  obtain ⟨v,hv,hnone⟩ := hvacant
  obtain ⟨i,hscan⟩ := scan_stops hhome hv (by simp [stops, hnone] : stops table k v)
  obtain ⟨d,hd,hid,hstop,hbefore⟩ := scan_some hhome hscan
  have hi : i < len := hid ▸ Nat.mod_lt _ (by omega)
  have hfree : table i = none := by
    simp only [stops, decide_eq_true_eq] at hstop
    exact hstop.resolve_right (hk i hi)
  have hkeep : ∀ j, table j ≠ none → Function.update table i (some k) j ≠ none := by
    intro j hj
    by_cases hji : j = i
    · simp [hji]
    · rwa [Function.update_of_ne hji]
  refine ⟨i,hi,hscan,hfree,?_,?_⟩
  · intro j hj k' hk'
    by_cases hji : j = i
    · subst hji
      rw [Function.update_self] at hk'
      obtain rfl := Option.some.inj hk'
      refine ⟨d,hd,hid,?_⟩
      intro e he
      have hb := hbefore e he
      simp only [stops, decide_eq_false_iff_not, not_or] at hb
      exact hkeep _ hb.1
    · rw [Function.update_of_ne hji] at hk'
      obtain ⟨d',hd',hjd,hb⟩ := h.reach j hj k' hk'
      exact ⟨d',hd',hjd,fun e he => hkeep _ (hb e he)⟩
  · intro j hj j' hj' k' hkj hkj'
    by_cases hji : j = i <;> by_cases hji' : j' = i
    · rw [hji, hji']
    · subst hji
      rw [Function.update_self] at hkj
      rw [Function.update_of_ne hji'] at hkj'
      obtain rfl := Option.some.inj hkj
      exact absurd hkj' (hk j' hj')
    · subst hji'
      rw [Function.update_self] at hkj'
      rw [Function.update_of_ne hji] at hkj
      obtain rfl := Option.some.inj hkj'
      exact absurd hkj (hk j hj)
    · rw [Function.update_of_ne hji] at hkj
      rw [Function.update_of_ne hji'] at hkj'
      exact h.once j hj j' hj' k' hkj hkj'

/-- With fewer keys than slots one is vacant. -/
theorem exists_vacant (h : Probed len home table) {keys : List κ}
    (hkeys : ∀ i < len, ∀ k, table i = some k → k ∈ keys) (hlen : keys.length < len) :
    ∃ i < len, table i = none := by
  by_contra hfull
  push Not at hfull
  have hsome : ∀ i : Fin len, ∃ k, table i = some k := fun i =>
    Option.ne_none_iff_exists'.1 (hfull i i.isLt)
  choose key hkey using hsome
  have hinj : Function.Injective key := by
    intro i j hij
    exact Fin.ext (h.once i i.isLt j j.isLt (key i) (hkey i) (hij ▸ hkey j))
  have hle : (Finset.univ.image key).card ≤ keys.toFinset.card := by
    apply Finset.card_le_card
    intro k hk
    obtain ⟨i,_,rfl⟩ := Finset.mem_image.1 hk
    exact List.mem_toFinset.2 (hkeys i i.isLt _ (hkey i))
  rw [Finset.card_image_of_injective _ hinj, Finset.card_univ, Fintype.card_fin] at hle
  have := List.toFinset_card_le keys
  omega

end Table

end MoldMacho.LinearProbing
