import Mathlib.Data.List.Basic
import Mathlib.Algebra.Order.Group.Nat
import Mathlib.Data.Nat.Notation

/-!
# Things in a row

A list of things that each take a range, every one at or after the end of the one
before.
-/

set_option autoImplicit false

namespace MoldMacho.Rows

variable {α β : Type} {start stop : α → ℕ}

/-- The things stand in order between two places. -/
def InRow (start stop : α → ℕ) : ℕ → List α → ℕ → Prop
  | lo, [], hi => lo ≤ hi
  | lo, a::l, hi => lo ≤ start a ∧ start a ≤ stop a ∧ InRow start stop (stop a) l hi

theorem InRow.le {lo hi : ℕ} {l : List α} (h : InRow start stop lo l hi) : lo ≤ hi := by
  induction l generalizing lo with
  | nil => exact h
  | cons a l ih => exact (h.1.trans h.2.1).trans (ih h.2.2)

theorem InRow.mono {lo hi hi' : ℕ} {l : List α} (h : InRow start stop lo l hi) (hle : hi ≤ hi') :
    InRow start stop lo l hi' := by
  induction l generalizing lo with
  | nil => exact Nat.le_trans h hle
  | cons a l ih => exact ⟨h.1,h.2.1,ih h.2.2⟩

theorem InRow.concat {lo mid hi : ℕ} {l : List α} (h : InRow start stop lo l mid) {a : α}
    (hstart : mid ≤ start a) (ha : start a ≤ stop a) (hstop : stop a ≤ hi) :
    InRow start stop lo (l ++ [a]) hi := by
  induction l generalizing lo with
  | nil => exact ⟨Nat.le_trans h hstart,ha,hstop⟩
  | cons b l ih => exact ⟨h.1,h.2.1,ih h.2.2⟩

theorem InRow.bounds {lo hi : ℕ} {l : List α} (h : InRow start stop lo l hi) {a : α} (ha : a ∈ l) :
    lo ≤ start a ∧ start a ≤ stop a ∧ stop a ≤ hi := by
  induction l generalizing lo with
  | nil => cases ha
  | cons b l ih =>
    rcases List.mem_cons.1 ha with rfl | ha
    · exact ⟨h.1,h.2.1,h.2.2.le⟩
    · obtain ⟨hlo,hself,hhi⟩ := ih h.2.2 ha
      exact ⟨(h.1.trans h.2.1).trans hlo,hself,hhi⟩

theorem InRow.pairwise {lo hi : ℕ} {l : List α} (h : InRow start stop lo l hi) :
    l.Pairwise fun a b => stop a ≤ start b := by
  induction l generalizing lo with
  | nil => exact List.Pairwise.nil
  | cons a l ih => exact List.pairwise_cons.2 ⟨fun b hb => (h.2.2.bounds hb).1,ih h.2.2⟩

/-- Two things of a row are the same or one ends before the other starts. -/
theorem InRow.apart {lo hi : ℕ} {l : List α} (h : InRow start stop lo l hi) {a b : α} (ha : a ∈ l)
    (hb : b ∈ l) (hne : a ≠ b) : stop a ≤ start b ∨ stop b ≤ start a := by
  induction l generalizing lo with
  | nil => cases ha
  | cons c l ih =>
    rcases List.mem_cons.1 ha with hac | hal
    · rcases List.mem_cons.1 hb with hbc | hbl
      · exact absurd (hac.trans hbc.symm) hne
      · exact Or.inl (hac ▸ (h.2.2.bounds hbl).1)
    · rcases List.mem_cons.1 hb with hbc | hbl
      · exact Or.inr (hbc ▸ (h.2.2.bounds hal).1)
      · exact ih h.2.2 hal hbl

theorem InRow.lower {lo lo' hi : ℕ} {l : List α} (h : InRow start stop lo l hi) (hle : lo' ≤ lo) :
    InRow start stop lo' l hi := by
  cases l with
  | nil => exact hle.trans h
  | cons a l => exact ⟨hle.trans h.1,h.2⟩

/-- Some of the things of a row stand in a row. -/
theorem InRow.filterMap {start' stop' : β → ℕ} {f : α → Option β} {lo hi : ℕ} {l : List α}
    (h : InRow start stop lo l hi)
    (hf : ∀ a ∈ l, ∀ b, f a = some b → start' b = start a ∧ stop' b = stop a) :
    InRow start' stop' lo (l.filterMap f) hi := by
  induction l generalizing lo with
  | nil => exact h
  | cons a l ih =>
    have hrest := ih h.2.2 fun b hb => hf b (List.mem_cons_of_mem _ hb)
    rw [List.filterMap_cons]
    split
    · exact hrest.lower (h.1.trans h.2.1)
    · rename_i b hb
      obtain ⟨hstart,hstop⟩ := hf a List.mem_cons_self b hb
      exact ⟨hstart ▸ h.1,hstart ▸ hstop ▸ h.2.1,hstop ▸ hrest⟩

/-! ## Rows with no gaps -/

variable {size : α → ℕ}

/-- The things take all between two places, one right after another. -/
def Tiles (start size : α → ℕ) : ℕ → List α → ℕ → Prop
  | lo, [], hi => lo = hi
  | lo, a::l, hi => start a = lo ∧ Tiles start size (lo+size a) l hi

theorem Tiles.concat {lo hi : ℕ} {l : List α} (h : Tiles start size lo l hi) {a : α}
    (ha : start a = hi) : Tiles start size lo (l ++ [a]) (hi+size a) := by
  induction l generalizing lo with
  | nil =>
    obtain rfl : lo = hi := h
    exact ⟨ha,rfl⟩
  | cons b l ih => exact ⟨h.1,ih h.2⟩

theorem Tiles.last {lo hi : ℕ} {l : List α} (h : Tiles start size lo l hi) {a : α}
    (ha : l.getLast? = some a) : start a+size a = hi := by
  induction l generalizing lo with
  | nil => cases ha
  | cons b l ih =>
    obtain ⟨rfl,hrest⟩ := h
    cases l with
    | nil =>
      obtain rfl := Option.some.inj ha
      exact hrest
    | cons c l => exact ih hrest ha

theorem Tiles.in_row {lo hi : ℕ} {l : List α} (h : Tiles start size lo l hi) :
    InRow start (fun a => start a+size a) lo l hi := by
  induction l generalizing lo with
  | nil => exact Nat.le_of_eq h
  | cons a l ih =>
    obtain ⟨rfl,hrest⟩ := h
    exact ⟨Nat.le_refl _,Nat.le_add_right _ _,ih hrest⟩

/-- Each place is of one of the things. -/
theorem Tiles.covers {lo hi i : ℕ} {l : List α} (h : Tiles start size lo l hi) (hlo : lo ≤ i)
    (hhi : i < hi) : ∃ a ∈ l, start a ≤ i ∧ i < start a+size a := by
  induction l generalizing lo with
  | nil =>
    obtain rfl : lo = hi := h
    omega
  | cons a l ih =>
    obtain ⟨rfl,hrest⟩ := h
    by_cases hi : i < start a+size a
    · exact ⟨a,List.mem_cons_self,hlo,hi⟩
    · obtain ⟨b,hb,hin⟩ := ih hrest (Nat.le_of_not_lt hi)
      exact ⟨b,List.mem_cons_of_mem a hb,hin⟩

theorem tiles_get {enc : α → List β} {l : List α} {lo hi : ℕ} (h : Tiles start size lo l hi)
    (hlen : ∀ x ∈ l, (enc x).length = size x) {x : α} (hx : x ∈ l) {i : ℕ} {b : β}
    (hb : (enc x)[i]? = some b) : lo ≤ start x ∧ (l.flatMap enc)[start x-lo+i]? = some b := by
  induction l generalizing lo with
  | nil => cases hx
  | cons y l ih =>
    obtain ⟨rfl,hrest⟩ := h
    rw [List.flatMap_cons]
    have hy := hlen y List.mem_cons_self
    rcases List.mem_cons.1 hx with rfl | hx
    · rw [Nat.sub_self, Nat.zero_add, List.getElem?_append_left (List.getElem?_eq_some_iff.1 hb).1]
      exact ⟨Nat.le_refl _,hb⟩
    · obtain ⟨hle,hget⟩ := ih hrest (fun z hz => hlen z (List.mem_cons_of_mem y hz)) hx
      refine ⟨by omega,?_⟩
      rw [List.getElem?_append_right (by omega), hy]
      have hidx : start x-start y+i-size y = start x-(start y+size y)+i := by omega
      rw [hidx, hget]

/-- The numbers of a row's items, each thing's from its start on. -/
theorem tiles_zip_idx {enc : α → List β} {l : List α} {lo hi : ℕ}
    (h : Tiles start (fun x => (enc x).length) lo l hi) :
    l.flatMap (fun x => (enc x).zipIdx (start x)) = (l.flatMap enc).zipIdx lo := by
  induction l generalizing lo with
  | nil => rfl
  | cons y l ih =>
    obtain ⟨rfl,hrest⟩ := h
    rw [List.flatMap_cons, List.flatMap_cons, List.zipIdx_append, ih hrest]

/-! ## The places of a row -/

/-- Where the thing of a place starts, and the row ends after the last. -/
def place (start : α → ℕ) (hi : ℕ) (l : List α) (i : ℕ) : ℕ := (l[i]?.map start).getD hi

theorem InRow.le_place {lo hi : ℕ} {l : List α} (h : InRow start stop lo l hi) (i : ℕ) :
    lo ≤ place start hi l i := by
  rw [place]
  cases hi : l[i]? with
  | none => exact h.le
  | some a => exact (h.bounds (List.mem_of_getElem? hi)).1

theorem InRow.place_mono {lo hi : ℕ} {l : List α} (h : InRow start stop lo l hi) {i j : ℕ}
    (hij : i ≤ j) : place start hi l i ≤ place start hi l j := by
  induction l generalizing lo i j with
  | nil => exact le_rfl
  | cons a l ih =>
    match i, j, hij with
    | 0, 0, _ => exact le_rfl
    | 0, j+1, _ => exact h.2.1.trans (h.2.2.le_place j)
    | i+1, j+1, hij => exact ih h.2.2 (Nat.le_of_succ_le_succ hij)

theorem InRow.stop_le_next {lo hi : ℕ} {l : List α} (h : InRow start stop lo l hi) {i : ℕ} {a : α}
    (ha : l[i]? = some a) : stop a ≤ place start hi l (i+1) := by
  induction l generalizing lo i with
  | nil => cases ha
  | cons b l ih =>
    match i, ha with
    | 0, rfl => exact h.2.2.le_place 0
    | i+1, ha => exact ih h.2.2 ha

end MoldMacho.Rows
