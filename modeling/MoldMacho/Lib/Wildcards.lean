import Mathlib.Data.List.Basic
import Mathlib.Data.List.Infix

/-!
# Wildcard patterns

A pattern is a list of items, each of which takes one letter of a set or, a star,
any run of letters. What a pattern matches is read from its front, an item at a
time, or from its end, as a machine that reads the string a letter at a time
does.
-/

set_option autoImplicit false

namespace MoldMacho.Wildcards

inductive Item (α : Type) where
  | one (accepts : α → Bool)
  | star

variable {α : Type}

/-- The pattern takes all of the string. -/
def Matches : List (Item α) → List α → Prop
  | [], s => s = []
  | .one accepts::items, s => ∃ c rest, s = c::rest ∧ accepts c = true ∧ Matches items rest
  | .star::items, s => ∃ rest, rest <:+ s ∧ Matches items rest

/-- The items that take the letters of a word. -/
def letters [DecidableEq α] (word : List α) : List (Item α) := word.map fun c => .one (· == c)

/-- Two patterns that match the same strings. -/
def Same (a b : List (Item α)) : Prop := ∀ s, Matches a s ↔ Matches b s

/-! ## Patterns in a row -/

theorem matches_append {a b : List (Item α)} {s : List α} :
    Matches (a ++ b) s ↔ ∃ u v, s = u ++ v ∧ Matches a u ∧ Matches b v := by
  induction a generalizing s with
  | nil =>
    constructor
    · intro h
      exact ⟨[],s,rfl,rfl,h⟩
    · rintro ⟨_,v,rfl,rfl,h⟩
      exact h
  | cons item a ih =>
    cases item with
    | one accepts =>
      constructor
      · rintro ⟨c,rest,rfl,hc,h⟩
        obtain ⟨u,v,rfl,hu,hv⟩ := ih.1 h
        exact ⟨c::u,v,rfl,⟨c,u,rfl,hc,hu⟩,hv⟩
      · rintro ⟨_,v,rfl,⟨c,u,rfl,hc,hu⟩,hv⟩
        exact ⟨c,u ++ v,rfl,hc,ih.2 ⟨u,v,rfl,hu,hv⟩⟩
    | star =>
      constructor
      · rintro ⟨rest,⟨skipped,rfl⟩,h⟩
        obtain ⟨u,v,rfl,hu,hv⟩ := ih.1 h
        exact ⟨skipped ++ u,v,by simp,⟨u,List.suffix_append skipped u,hu⟩,hv⟩
      · rintro ⟨_,v,rfl,⟨u,⟨skipped,rfl⟩,hu⟩,hv⟩
        exact ⟨u ++ v,⟨skipped,by simp⟩,ih.2 ⟨u,v,rfl,hu,hv⟩⟩

theorem Same.append {a a' b b' : List (Item α)} (ha : Same a a') (hb : Same b b') :
    Same (a ++ b) (a' ++ b') := by
  intro s
  simp only [matches_append, ha _, hb _]

theorem Same.refl (a : List (Item α)) : Same a a := fun _ => Iff.rfl

theorem Same.trans {a b c : List (Item α)} (hab : Same a b) (hbc : Same b c) : Same a c :=
  fun s => (hab s).trans (hbc s)

@[simp] theorem matches_nil {s : List α} : Matches [] s ↔ s = [] := Iff.rfl

theorem matches_one {accepts : α → Bool} {s : List α} :
    Matches [.one accepts] s ↔ ∃ c, s = [c] ∧ accepts c = true := by
  constructor
  · rintro ⟨c,rest,rfl,hc,rfl⟩
    exact ⟨c,rfl,hc⟩
  · rintro ⟨c,rfl,hc⟩
    exact ⟨c,[],rfl,hc,rfl⟩

theorem matches_star {s : List α} : Matches [.star] s := ⟨[],List.nil_suffix,rfl⟩

theorem star_star : Same [Item.star (α := α),.star] [.star] :=
  fun s => ⟨fun _ => matches_star,fun _ => ⟨s,List.suffix_refl s,matches_star⟩⟩

/-! ## Words -/

theorem matches_letters_append [DecidableEq α] {word : List α} {items : List (Item α)}
    {s : List α} : Matches (letters word ++ items) s ↔ ∃ rest, s = word ++ rest ∧ Matches items rest := by
  induction word generalizing s with
  | nil => simp [letters]
  | cons c word ih =>
    constructor
    · rintro ⟨c',rest,rfl,hc,h⟩
      obtain ⟨rest,rfl,hrest⟩ := ih.1 h
      rw [beq_iff_eq] at hc
      exact ⟨rest,by rw [hc]; rfl,hrest⟩
    · rintro ⟨rest,rfl,h⟩
      exact ⟨c,word ++ rest,rfl,by simp,ih.2 ⟨rest,rfl,h⟩⟩

theorem matches_letters [DecidableEq α] {word s : List α} : Matches (letters word) s ↔ s = word := by
  rw [← List.append_nil (letters word), matches_letters_append]
  simp

/-! ## Stars -/

/-- A star takes what is left, or one letter more than it would. -/
theorem matches_star_cons {items : List (Item α)} {c : α} {s : List α} :
    Matches (.star::items) (c::s) ↔ Matches items (c::s) ∨ Matches (.star::items) s := by
  constructor
  · rintro ⟨rest,hrest,h⟩
    rcases List.suffix_cons_iff.1 hrest with rfl | hrest
    · exact .inl h
    · exact .inr ⟨rest,hrest,h⟩
  · rintro (h | ⟨rest,hrest,h⟩)
    · exact ⟨c::s,List.suffix_refl _,h⟩
    · exact ⟨rest,hrest.trans (List.suffix_cons c s),h⟩

/-- A star can take more. -/
theorem Matches.star_mono {items : List (Item α)} {s t : List α} (h : Matches (.star::items) s)
    (hst : s <:+ t) : Matches (.star::items) t := by
  obtain ⟨rest,hrest,h⟩ := h
  exact ⟨rest,hrest.trans hst,h⟩

def Item.IsOne : Item α → Prop
  | .one _ => True
  | .star => False

/-- Without a star a pattern takes a letter for each item. -/
theorem Matches.length_eq {items : List (Item α)} {s : List α} (h : Matches items s)
    (hone : ∀ item ∈ items, item.IsOne) : s.length = items.length := by
  induction items generalizing s with
  | nil =>
    rw [matches_nil.1 h]
    rfl
  | cons item items ih =>
    cases item with
    | one accepts =>
      obtain ⟨c,rest,rfl,-,h⟩ := h
      simp [ih h fun item hitem => hone item (by simp [hitem])]
    | star => exact (hone .star (by simp)).elim

/-- Past the items after a star that take one letter each, the next star takes what
the first could: trying the first star again brings nothing once the next is met. -/
theorem Matches.next_star {between items : List (Item α)} {s : List α}
    (h : Matches (.star::(between ++ .star::items)) s) (hone : ∀ item ∈ between, item.IsOne) :
    Matches (.star::items) (s.drop between.length) := by
  obtain ⟨_,⟨skipped,rfl⟩,h⟩ := h
  obtain ⟨u,v,rfl,hu,hv⟩ := matches_append.1 h
  rw [← hu.length_eq hone]
  have hsuffix : v <:+ (skipped ++ (u ++ v)).drop u.length := by
    rw [← List.append_assoc, List.drop_append_of_le_length (by simp)]
    exact List.suffix_append _ v
  exact hv.star_mono hsuffix

/-! ## Read from the end -/

theorem matches_concat_one {items : List (Item α)} {accepts : α → Bool} {s : List α} {c : α} :
    Matches (items ++ [.one accepts]) (s ++ [c]) ↔ Matches items s ∧ accepts c = true := by
  rw [matches_append]
  constructor
  · rintro ⟨u,v,heq,hu,hv⟩
    obtain ⟨c',rfl,hc⟩ := matches_one.1 hv
    obtain ⟨rfl,hlast⟩ := List.append_inj' heq rfl
    exact ⟨hu,(List.cons.inj hlast).1 ▸ hc⟩
  · rintro ⟨hs,hc⟩
    exact ⟨s,[c],rfl,hs,matches_one.2 ⟨c,rfl,hc⟩⟩

theorem not_matches_concat_one {items : List (Item α)} {accepts : α → Bool} :
    ¬Matches (items ++ [.one accepts]) [] := by
  intro h
  obtain ⟨u,v,heq,-,hv⟩ := matches_append.1 h
  obtain ⟨c,rfl,-⟩ := matches_one.1 hv
  simp at heq

theorem matches_concat_star_nil {items : List (Item α)} :
    Matches (items ++ [.star]) [] ↔ Matches items [] := by
  rw [matches_append]
  constructor
  · rintro ⟨u,v,heq,hu,-⟩
    obtain ⟨rfl,-⟩ := List.append_eq_nil_iff.1 heq.symm
    exact hu
  · intro h
    exact ⟨[],[],rfl,h,matches_star⟩

theorem matches_concat_star {items : List (Item α)} {s : List α} {c : α} :
    Matches (items ++ [.star]) (s ++ [c]) ↔
      Matches (items ++ [.star]) s ∨ Matches items (s ++ [c]) := by
  rw [matches_append, matches_append]
  constructor
  · rintro ⟨u,v,heq,hu,-⟩
    rcases List.eq_nil_or_concat' v with rfl | ⟨v,c',rfl⟩
    · rw [List.append_nil] at heq
      exact .inr (heq ▸ hu)
    · rw [← List.append_assoc] at heq
      exact .inl ⟨u,v,(List.append_inj' heq rfl).1,hu,matches_star⟩
  · rintro (⟨u,v,rfl,hu,-⟩ | h)
    · exact ⟨u,v ++ [c],by simp,hu,matches_star⟩
    · exact ⟨s ++ [c],[],by simp,h,matches_star⟩

end MoldMacho.Wildcards
