import Mathlib.Data.List.Basic
import Mathlib.Data.List.SplitBy
import Mathlib.Data.Nat.Notation

/-!
# Counted runs of items

Items written one after another, each relative to a state that the items
before it leave (an offset that the next one is a distance from), and read
back by their count. And the runs of one key a sorted list is cut into.
-/

set_option autoImplicit false

namespace MoldMacho.Counted

section Stream
variable {σ α β : Type}

def write (put : σ → α → List UInt8) (next : σ → α → σ) : σ → List α → List UInt8
  | _, [] => []
  | s, a::l => put s a ++ write put next (next s a) l

def read (take : σ → List UInt8 → Option ((σ × β) × List UInt8)) :
    ℕ → σ → List UInt8 → Option (List β × List UInt8)
  | 0, _, bytes => some ([],bytes)
  | n+1, s, bytes => (take s bytes).bind fun ((s,b),bytes) =>
      (read take n s bytes).map fun (bs,bytes) => (b::bs,bytes)

/-- Each item is as it must be in the state it meets. -/
def Along (ok : σ → α → Prop) (next : σ → α → σ) : σ → List α → Prop
  | _, [] => True
  | s, a::l => ok s a ∧ Along ok next (next s a) l

theorem read_write {put : σ → α → List UInt8} {next : σ → α → σ} {ok : σ → α → Prop} {g : α → β}
    {take : σ → List UInt8 → Option ((σ × β) × List UInt8)}
    (htake : ∀ s a rest, ok s a → take s (put s a ++ rest) = some ((next s a,g a),rest))
    {l : List α} {s : σ} (hl : Along ok next s l) (rest : List UInt8) :
    read take l.length s (write put next s l ++ rest) = some (l.map g,rest) := by
  induction l generalizing s with
  | nil => rfl
  | cons a l ih =>
    obtain ⟨ha,hl⟩ := hl
    rw [write, List.append_assoc, List.length_cons, read, htake s a _ ha, Option.bind_some]
    dsimp only
    rw [ih hl]
    rfl

/-- Where an item leaves a state of its own, each pair in order is enough. -/
theorem along_of_pairwise {ok : σ → α → Prop} {f : α → σ} {l : List α} {s : σ}
    (hfirst : ∀ a ∈ l, ok s a) (hl : l.Pairwise fun a b => ok (f a) b) :
    Along ok (fun _ a => f a) s l := by
  induction l generalizing s with
  | nil => trivial
  | cons a l ih =>
    obtain ⟨ha,hl⟩ := List.pairwise_cons.mp hl
    exact ⟨hfirst a (by simp),ih ha hl⟩

/-- Items that come back as they are. -/
theorem read_back {put : σ → α → List UInt8} {f : α → σ} {ok : σ → α → Prop}
    {take : σ → List UInt8 → Option ((σ × α) × List UInt8)}
    (htake : ∀ s a rest, ok s a → take s (put s a ++ rest) = some ((f a,a),rest))
    {l : List α} {s : σ} (hfirst : ∀ a ∈ l, ok s a) (hl : l.Pairwise fun a b => ok (f a) b)
    (rest : List UInt8) :
    read take l.length s (write put (fun _ a => f a) s l ++ rest) = some (l,rest) := by
  have h := read_write htake (along_of_pairwise hfirst hl) rest
  rwa [List.map_id'] at h

end Stream

section Groups
variable {α κ : Type} [DecidableEq κ] {key : α → κ} {l : List α}

/-- The runs of one key. -/
def groups (key : α → κ) (l : List α) : List (List α) := l.splitBy fun a b => key a == key b

theorem groups_flatten (key : α → κ) (l : List α) : (groups key l).flatten = l :=
  List.flatten_splitBy _ l

theorem groups_same {g : List α} (hg : g ∈ groups key l) : ∀ a ∈ g, ∀ b ∈ g, key a = key b := by
  have hchain := List.isChain_of_mem_splitBy hg
  have hsame : g.IsChain fun a b => key a = key b := hchain.imp fun _ _ h => eq_of_beq h
  clear hchain hg
  induction g with
  | nil => simp
  | cons c g ih =>
    have hrest := ih hsame.tail
    have hall : ∀ a ∈ g, key c = key a := by
      cases g with
      | nil => simp
      | cons d g =>
        intro a ha
        exact (List.isChain_cons_cons.mp hsame).1.trans (hrest d (by simp) a ha)
    intro a ha b hb
    rcases List.mem_cons.mp ha with h | h <;> rcases List.mem_cons.mp hb with h' | h'
    · rw [h, h']
    · rw [h, hall b h']
    · rw [h', hall a h]
    · exact hrest a h b h'

theorem group_ne_nil {g : List α} (hg : g ∈ groups key l) : g ≠ [] := List.ne_nil_of_mem_splitBy hg

theorem mem_of_group {g : List α} (hg : g ∈ groups key l) {a : α} (ha : a ∈ g) : a ∈ l := by
  rw [← groups_flatten key l]
  exact List.mem_flatten.mpr ⟨g,hg,ha⟩

/-- The groups of a list in order are in order, and so is each. -/
theorem groups_pairwise {R : α → α → Prop} (hl : l.Pairwise R) :
    (∀ g ∈ groups key l, g.Pairwise R) ∧
      (groups key l).Pairwise fun g h => ∀ a ∈ g, ∀ b ∈ h, R a b := by
  rw [← groups_flatten key l] at hl
  exact List.pairwise_flatten.mp hl

end Groups

end MoldMacho.Counted
