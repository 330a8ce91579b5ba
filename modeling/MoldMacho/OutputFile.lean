import MoldMacho.Lib.WriterPool
import MoldMacho.Util.Align

/-!
# Writing the output file

A range of the output's buffer is queued once it is final. Its whole pages go to
the writers in blocks; the partial pages at its ends wait until the writers are
done, as another range may have the rest of them.
-/

set_option autoImplicit false

namespace MoldMacho.OutputFile
open MoldMacho.Align MoldMacho.WriterPool

/-- The size of the blocks the writers take. -/
def blockSize : ℕ := 8 * 2^20

/-- A page of the file cache, or a multiple. -/
def pageSize : ℕ := 2^14

def writers : ℕ := 4

/-- Cuts whole pages into blocks. -/
def blocks : ℕ → ℕ → ℕ → List Block
  | 0, _, _ => []
  | fuel+1, pos, hi =>
    if pos < hi then
      let n := min blockSize (hi-pos)
      ⟨pos,pos+n⟩::blocks fuel (pos+n) hi
    else []

/-- The partial pages at the ends of a range, and the whole ones between. -/
def queue {σ : Type} (off len : ℕ) : List (Action σ) :=
  let stop := off + len
  let lo := min (alignTo off pageSize) stop
  let hi := max (stop / pageSize * pageSize) lo
  (if off < lo then [.defer ⟨off,lo⟩] else []) ++ (if hi < stop then [.defer ⟨hi,stop⟩] else []) ++
    (blocks (hi-lo) lo hi).map .send

/-- A block of whole pages. -/
structure WholePages (b : Block) : Prop where
  start : pageSize ∣ b.start
  stop : pageSize ∣ b.stop
  lt : b.start < b.stop

/-- A write of a block touches a page. -/
def Touches (b : Block) (k : ℕ) : Prop := ∃ p ∈ b.positions, p / pageSize = k

section Blocks

theorem page_dvd_block : pageSize ∣ blockSize := ⟨512,rfl⟩

theorem blocks_whole (fuel : ℕ) {pos hi : ℕ} (hpos : pageSize ∣ pos) (hhi : pageSize ∣ hi) :
    ∀ b ∈ blocks fuel pos hi, WholePages b := by
  induction fuel generalizing pos with
  | zero => simp [blocks]
  | succ fuel ih =>
    rw [blocks]
    split
    · rename_i hlt
      have hn : pageSize ∣ min blockSize (hi-pos) := by
        rcases min_choice blockSize (hi-pos) with h | h
        · rw [h]
          exact page_dvd_block
        · rw [h]
          exact Nat.dvd_sub hhi hpos
      have hnext : pageSize ∣ pos + min blockSize (hi-pos) := Nat.dvd_add hpos hn
      have hblock : 0 < min blockSize (hi-pos) := by
        rw [lt_min_iff]
        exact ⟨by decide,by omega⟩
      rw [List.forall_mem_cons]
      exact ⟨⟨hpos,hnext,Nat.lt_add_of_pos_right hblock⟩,ih hnext⟩
    · simp

theorem blocks_positions (fuel : ℕ) {pos hi : ℕ} (hle : pos ≤ hi) (hfuel : hi - pos ≤ fuel) :
    (blocks fuel pos hi).flatMap Block.positions = List.range' pos (hi-pos) := by
  induction fuel generalizing pos with
  | zero =>
    rw [show hi - pos = 0 by omega]
    rfl
  | succ fuel ih =>
    rw [blocks]
    split
    · have hblock : 0 < blockSize := by decide
      have hmin := min_le_right blockSize (hi-pos)
      have hpos : 0 < min blockSize (hi-pos) := lt_min hblock (by omega)
      have hrange : hi - pos = min blockSize (hi-pos) + (hi - (pos + min blockSize (hi-pos))) := by
        omega
      rw [List.flatMap_cons, ih (by omega) (by omega), Block.positions, Nat.add_sub_cancel_left,
        List.range'_append_1, ← hrange]
    · rw [show hi - pos = 0 by omega]
      rfl

end Blocks

section Queue
variable {σ : Type} (off len : ℕ)

theorem queue_bounds : let lo := min (alignTo off pageSize) (off+len)
    let hi := max ((off+len) / pageSize * pageSize) lo
    off ≤ lo ∧ lo ≤ hi ∧ hi ≤ off + len := by
  have hle := le_align_to off pageSize
  have hdiv := Nat.div_mul_le_self (off+len) pageSize
  omega

theorem edge_positions (lo hi : ℕ) :
    (if lo < hi then [Action.defer ⟨lo,hi⟩] else [] : List (Action σ)).flatMap Action.positions =
      List.range' lo (hi-lo) := by
  split
  · simp [Action.positions, Block.positions]
  · rw [show hi - lo = 0 by omega]
    rfl

theorem edge_sent (lo hi : ℕ) :
    (if lo < hi then [Action.defer ⟨lo,hi⟩] else [] : List (Action σ)).flatMap Action.sent = [] := by
  split <;> rfl

/-- A queued range goes to the file position by position. -/
theorem queue_positions :
    ((queue off len : List (Action σ)).flatMap Action.positions).Perm (List.range' off len) := by
  obtain ⟨hoff,hlo,hhi⟩ := queue_bounds off len
  have hsend : ∀ l : List Block, (l.map (Action.send (σ := σ))).flatMap Action.positions =
      l.flatMap Block.positions := fun l => List.flatMap_map ..
  have hall (lo hi : ℕ) (hoff : off ≤ lo) (hlo : lo ≤ hi) (hhi : hi ≤ off + len) :
      List.range' off len = List.range' off (lo-off) ++ (List.range' lo (hi-lo) ++
        List.range' hi (off+len-hi)) := by
    have hmid : List.range' lo (hi-lo) ++ List.range' hi (off+len-hi) =
        List.range' lo (off+len-lo) := by
      have h := List.range'_append_1 (s := lo) (m := hi-lo) (n := off+len-hi)
      rwa [Nat.add_sub_cancel' hlo, show hi - lo + (off+len-hi) = off+len-lo by omega] at h
    have h := List.range'_append_1 (s := off) (m := lo-off) (n := off+len-lo)
    rw [Nat.add_sub_cancel' hoff, show lo - off + (off+len-lo) = len by omega] at h
    rw [hmid, h]
  rw [queue, List.flatMap_append, List.flatMap_append, edge_positions, edge_positions, hsend,
    blocks_positions _ hlo le_rfl, hall _ _ hoff hlo hhi, List.append_assoc]
  exact List.perm_append_comm.append_left _

theorem mem_queue {p : ℕ} : p ∈ (queue off len : List (Action σ)).flatMap Action.positions ↔
    off ≤ p ∧ p < off + len :=
  (queue_positions off len).mem_iff.trans List.mem_range'_1

/-- What is sent to the writers is blocks of whole pages. -/
theorem queue_whole : ∀ b ∈ (queue off len : List (Action σ)).flatMap Action.sent, WholePages b := by
  have hsend : ∀ l : List Block, (l.map (Action.send (σ := σ))).flatMap Action.sent = l := by
    intro l
    rw [List.flatMap_map]
    exact List.flatMap_singleton' l
  rw [queue, List.flatMap_append, List.flatMap_append, edge_sent, edge_sent, hsend, List.append_nil,
    List.nil_append]
  have hpage : pageSize ∣ alignTo off pageSize := align_to_dvd (by decide) off
  rcases le_total (alignTo off pageSize) (off+len) with h | h
  · have hlo : min (alignTo off pageSize) (off+len) = alignTo off pageSize := min_eq_left h
    rw [hlo]
    refine blocks_whole _ hpage ?_
    rcases max_choice ((off+len) / pageSize * pageSize) (alignTo off pageSize) with hm | hm
    · rw [hm]
      exact Nat.dvd_mul_left _ _
    · rw [hm]
      exact hpage
  · have hlo : min (alignTo off pageSize) (off+len) = off+len := min_eq_right h
    have hhi : max ((off+len) / pageSize * pageSize) (off+len) = off+len :=
      max_eq_right (Nat.div_mul_le_self _ _)
    rw [hlo, hhi, Nat.sub_self]
    simp [blocks]

theorem queue_writes : ∀ action ∈ (queue off len : List (Action σ)), action.isWrite = true := by
  intro action hmem
  rw [queue, List.mem_append, List.mem_append] at hmem
  rcases hmem with (h | h) | h
  · split at h
    · rw [List.mem_singleton.1 h]
      rfl
    · cases h
  · split at h
    · rw [List.mem_singleton.1 h]
      rfl
    · cases h
  · obtain ⟨b,-,rfl⟩ := List.mem_map.1 h
    rfl

end Queue

/-- The first position of a page that a block of whole pages touches is in it. -/
theorem WholePages.page_mem {b : Block} (h : WholePages b) {k : ℕ} (ht : Touches b k) :
    k*pageSize ∈ b.positions := by
  obtain ⟨p,hp,rfl⟩ := ht
  obtain ⟨i,hi⟩ := h.start
  obtain ⟨j,hj⟩ := h.stop
  have hpos : 0 < pageSize := by decide
  obtain ⟨hlo,hhi⟩ := List.mem_range'_1.1 hp
  have hlt := h.lt
  rw [Nat.add_sub_cancel' hlt.le] at hhi
  rw [Block.positions, List.mem_range'_1, Nat.add_sub_cancel' hlt.le]
  constructor
  · rw [hi, Nat.mul_comm]
    exact Nat.mul_le_mul_right _ ((Nat.le_div_iff_mul_le hpos).2 (by rwa [Nat.mul_comm, ← hi]))
  · rw [hj, Nat.mul_comm]
    exact Nat.mul_lt_mul_of_pos_left (Nat.div_lt_of_lt_mul (by rwa [← hj])) hpos

/-- Disjoint blocks of whole pages touch different pages. -/
theorem whole_pages_apart {a b : Block} (ha : WholePages a) (hb : WholePages b)
    (hdisjoint : a.positions.Disjoint b.positions) (k : ℕ) : ¬(Touches a k ∧ Touches b k) :=
  fun h => hdisjoint (ha.page_mem h.1) (hb.page_mem h.2)

end MoldMacho.OutputFile
