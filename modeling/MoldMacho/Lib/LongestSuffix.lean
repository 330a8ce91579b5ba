import Mathlib.Data.List.Basic
import Mathlib.Data.List.Infix

/-!
# The longest suffix in a set of words

Of a text that is read a letter at a time, the longest suffix that is in a set of
words closed under prefixes. It is found from the one before the letter: it is that
with the letter, or the longest one of its tail with the letter.
-/

set_option autoImplicit false

namespace MoldMacho.LongestSuffix

variable {α : Type} {W : List α → Prop} {s u v w : List α} {c : α}

/-- `u` is the longest suffix of `s` among the words. -/
structure IsLongest (W : List α → Prop) (s u : List α) : Prop where
  mem : W u
  suffix : u <:+ s
  longest : ∀ v, W v → v <:+ s → v <:+ u

def PrefixClosed (W : List α → Prop) : Prop := ∀ u c, W (u ++ [c]) → W u

theorem IsLongest.self (h : W s) : IsLongest W s s := ⟨h,List.suffix_refl s,fun _ _ hv => hv⟩

/-- A word is a suffix of the text if it is one of its longest suffix. -/
theorem IsLongest.suffix_iff (h : IsLongest W s u) (hw : W w) : w <:+ s ↔ w <:+ u :=
  ⟨h.longest w hw,fun hsuffix => hsuffix.trans h.suffix⟩

theorem suffix_concat_iff : w <:+ s ++ [c] ↔ w = [] ∨ ∃ v, w = v ++ [c] ∧ v <:+ s := by
  constructor
  · intro h
    rcases List.eq_nil_or_concat' w with rfl | ⟨v,c',rfl⟩
    · exact .inl rfl
    · obtain ⟨skipped,heq⟩ := h
      rw [← List.append_assoc] at heq
      obtain ⟨rfl,hlast⟩ := List.append_inj' heq rfl
      exact .inr ⟨v,by rw [hlast],List.suffix_append skipped v⟩
  · rintro (rfl | ⟨v,rfl,skipped,rfl⟩)
    · exact List.nil_suffix
    · exact ⟨skipped,by simp⟩

/-- The letter read, only the longest suffix before matters. -/
theorem IsLongest.concat_iff (hclosed : PrefixClosed W) (h : IsLongest W s u) :
    IsLongest W (s ++ [c]) w ↔ IsLongest W (u ++ [c]) w := by
  have hsame : ∀ v, W v → (v <:+ s ++ [c] ↔ v <:+ u ++ [c]) := by
    intro v hv
    rw [suffix_concat_iff, suffix_concat_iff]
    apply or_congr_right
    apply exists_congr
    intro v'
    apply and_congr_right
    rintro rfl
    exact h.suffix_iff (hclosed v' c hv)
  constructor
  · rintro ⟨hmem,hsuffix,hlongest⟩
    exact ⟨hmem,(hsame w hmem).1 hsuffix,fun v hv hsuf => hlongest v hv ((hsame v hv).2 hsuf)⟩
  · rintro ⟨hmem,hsuffix,hlongest⟩
    exact ⟨hmem,(hsame w hmem).2 hsuffix,fun v hv hsuf => hlongest v hv ((hsame v hv).1 hsuf)⟩

/-- Not itself a word, a text has the longest suffix of its tail. -/
theorem is_longest_tail (h : ¬W s) : IsLongest W s w ↔ IsLongest W s.tail w := by
  have hsame : ∀ v, W v → (v <:+ s ↔ v <:+ s.tail) := by
    intro v hv
    cases s with
    | nil => exact Iff.rfl
    | cons a s =>
      rw [List.suffix_cons_iff, List.tail_cons]
      apply or_iff_right
      rintro rfl
      exact h hv
  constructor
  · rintro ⟨hmem,hsuffix,hlongest⟩
    exact ⟨hmem,(hsame w hmem).1 hsuffix,fun v hv hsuf => hlongest v hv ((hsame v hv).2 hsuf)⟩
  · rintro ⟨hmem,hsuffix,hlongest⟩
    exact ⟨hmem,(hsame w hmem).2 hsuffix,fun v hv hsuf => hlongest v hv ((hsame v hv).1 hsuf)⟩

/-- Where the letter leads out of the words, the search goes on from the longest
suffix of the tail. -/
theorem IsLongest.back (hclosed : PrefixClosed W) (hout : ¬W (u ++ [c])) (hne : u ≠ [])
    (hlink : IsLongest W u.tail v) : IsLongest W (u ++ [c]) w ↔ IsLongest W (v ++ [c]) w := by
  rw [is_longest_tail hout, List.tail_append_of_ne_nil hne]
  exact hlink.concat_iff hclosed

theorem IsLongest.nil (hnil : W []) (hout : ¬W [c]) : IsLongest W [c] [] := by
  rw [is_longest_tail hout]
  exact IsLongest.self hnil

end MoldMacho.LongestSuffix
