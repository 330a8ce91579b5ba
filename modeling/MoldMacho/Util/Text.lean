import Mathlib.Data.List.TakeWhile
import Mathlib.Data.List.DropRight

/-!
# Texts of bytes

Lines of a text, the halves of a line at a separator, and a line less the white
space around it.
-/

set_option autoImplicit false

namespace MoldMacho.Text

/-- Splits at the first `sep`. -/
def splitOnce : List UInt8 → UInt8 → Option (List UInt8 × List UInt8)
  | [], _ => none
  | b::bytes, sep =>
    if b = sep then some ([],bytes) else (splitOnce bytes sep).map (Prod.map (b::·) id)

def isSpace (c : UInt8) : Bool := [0x20,0x09,0x0a,0x0b,0x0c,0x0d].contains c

/-- The bytes without the white space they start and end with. -/
def trimSpace (bytes : List UInt8) : List UInt8 := (bytes.dropWhile isSpace).rdropWhile isSpace

/-- Without the byte `last` at the end. -/
def stripLast (last : UInt8) (bytes : List UInt8) : List UInt8 :=
  if bytes.getLast? = some last then bytes.dropLast else bytes

/-- The lines of a text, the last one ended or not. -/
def lines (text : List UInt8) : List (List UInt8) :=
  if text = [] then [] else ((stripLast 0x0a text).splitOn 0x0a).map (stripLast 0x0d)

variable {a b bytes : List UInt8} {sep : UInt8}

theorem split_once_none : splitOnce bytes sep = none ↔ sep ∉ bytes := by
  induction bytes with
  | nil => simp [splitOnce]
  | cons c bytes ih =>
    rw [splitOnce]
    by_cases h : c = sep
    · simp [h]
    · rw [if_neg h, Option.map_eq_none_iff, ih, List.mem_cons, not_or,
        and_iff_right fun heq => h heq.symm]

theorem split_once_append (h : sep ∉ a) : splitOnce (a ++ sep::b) sep = some (a,b) := by
  induction a with
  | nil => simp [splitOnce]
  | cons c a ih =>
    rw [List.mem_cons, not_or] at h
    rw [List.cons_append, splitOnce, if_neg fun heq => h.1 heq.symm, ih h.2]
    rfl

theorem split_once_some (h : splitOnce bytes sep = some (a,b)) : sep ∉ a ∧ bytes = a ++ sep::b := by
  induction bytes generalizing a with
  | nil => cases h
  | cons c bytes ih =>
    rw [splitOnce] at h
    by_cases hc : c = sep
    · rw [if_pos hc] at h
      cases h
      exact ⟨List.not_mem_nil,by rw [hc]; rfl⟩
    · rw [if_neg hc] at h
      obtain ⟨⟨a',b'⟩,hsplit,heq⟩ := Option.map_eq_some_iff.1 h
      cases heq
      obtain ⟨hnot,hbytes⟩ := ih hsplit
      exact ⟨by simpa using ⟨fun heq => hc heq.symm,hnot⟩,by rw [hbytes]; rfl⟩

theorem drop_spaces {lead : List UInt8} (h : ∀ c ∈ lead, isSpace c = true) (l : List UInt8) :
    (lead ++ l).dropWhile isSpace = l.dropWhile isSpace := by
  rw [List.dropWhile_append, List.dropWhile_eq_nil_iff.2 h, if_pos List.isEmpty_nil]

theorem rdrop_spaces {trail : List UInt8} (h : ∀ c ∈ trail, isSpace c = true) (l : List UInt8) :
    (l ++ trail).rdropWhile isSpace = l.rdropWhile isSpace := by
  rw [List.rdropWhile, List.rdropWhile, List.reverse_append, drop_spaces (by simpa using h)]

/-- White space around the bytes is no part of what is left of them. -/
theorem trim_space_pad {lead trail : List UInt8} (hlead : ∀ c ∈ lead, isSpace c = true)
    (htrail : ∀ c ∈ trail, isSpace c = true) :
    trimSpace (lead ++ bytes ++ trail) = trimSpace bytes := by
  rw [trimSpace, trimSpace, List.append_assoc, drop_spaces hlead, List.dropWhile_append]
  by_cases hall : ∀ c ∈ bytes, isSpace c = true
  · rw [if_pos (by rw [List.isEmpty_iff, List.dropWhile_eq_nil_iff]; exact hall),
      List.dropWhile_eq_nil_iff.2 htrail, List.dropWhile_eq_nil_iff.2 hall]
  · rw [if_neg (by rw [List.isEmpty_iff, List.dropWhile_eq_nil_iff]; exact hall),
      rdrop_spaces htrail]

theorem trim_space_sublist (bytes : List UInt8) : (trimSpace bytes).Sublist bytes :=
  (List.rdropWhile_prefix _ _).sublist.trans (List.dropWhile_sublist _)

theorem trim_drop (bytes : List UInt8) : trimSpace (bytes.dropWhile isSpace) = trimSpace bytes := by
  have h := @trim_space_pad (bytes.dropWhile isSpace) (bytes.takeWhile isSpace) []
    (fun c => List.mem_takeWhile_imp) (by simp)
  rw [List.append_nil, List.takeWhile_append_dropWhile] at h
  exact h.symm

theorem trim_rdrop (bytes : List UInt8) :
    trimSpace (bytes.rdropWhile isSpace) = trimSpace bytes := by
  have h := @trim_space_pad (bytes.rdropWhile isSpace) [] (bytes.rtakeWhile isSpace) (by simp)
    (fun c => List.mem_rtakeWhile_imp)
  rw [List.nil_append, List.rdropWhile_append_rtakeWhile] at h
  exact h.symm

theorem trim_space_trim (bytes : List UInt8) : trimSpace (trimSpace bytes) = trimSpace bytes := by
  show trimSpace ((bytes.dropWhile isSpace).rdropWhile isSpace) = trimSpace bytes
  rw [trim_rdrop, trim_drop]

/-- What is around a separator that is no white space is trimmed at its outer ends. -/
theorem trim_space_sep (hsep : isSpace sep = false) (a b : List UInt8) :
    trimSpace (a ++ sep::b) = a.dropWhile isSpace ++ sep::b.rdropWhile isSpace := by
  have hnot : ¬isSpace sep = true := by rw [hsep]; decide
  have hdrop : ∀ a l : List UInt8, (a ++ sep::l).dropWhile isSpace =
      a.dropWhile isSpace ++ sep::l := by
    intro a l
    rw [List.dropWhile_append, List.dropWhile_cons_of_neg hnot]
    split_ifs with hnil
    · rw [List.isEmpty_iff.1 hnil]
      rfl
    · rfl
  rw [trimSpace, hdrop, List.rdropWhile, List.reverse_append, List.reverse_cons, List.append_assoc,
    List.singleton_append, hdrop, List.reverse_append, List.reverse_cons, List.reverse_reverse,
    List.append_assoc]
  rfl

end MoldMacho.Text
