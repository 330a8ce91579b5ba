import Mathlib.Algebra.GroupWithZero.Nat
import Mathlib.Data.List.Basic
import Mathlib.Data.Nat.Basic

/-!
# The output's segments

The part of an output segment the fixup encoders read, and the lookup of
the segment an address lies in. Segments are placed apart (the linker
refuses those that overlap), so an address is in one of them at most.
-/

set_option autoImplicit false

namespace MoldMacho.Segments

/-- `OutputSegment`: its name and the addresses and file range its load
command gives it. -/
structure OutputSegment where
  name : List UInt8
  vmaddr : ℕ
  vmsize : ℕ
  fileoff : ℕ := 0
  filesize : ℕ := 0
  deriving DecidableEq, Repr

/-- The bytes of `__PAGEZERO`. -/
def pagezero : List UInt8 := [95, 95, 80, 65, 71, 69, 90, 69, 82, 79]

def OutputSegment.Contains (seg : OutputSegment) (addr : ℕ) : Prop :=
  seg.vmaddr ≤ addr ∧ addr < seg.vmaddr+seg.vmsize ∧ seg.name ≠ pagezero

instance (seg : OutputSegment) (addr : ℕ) : Decidable (seg.Contains addr) :=
  inferInstanceAs (Decidable (_ ∧ _ ∧ _))

/-- The loop of `segment_and_offset`, from segment `i`. -/
def segmentAndOffsetFrom (addr : ℕ) : ℕ → List OutputSegment → Option (ℕ × ℕ)
  | _, [] => none
  | i, seg::segs =>
    if seg.Contains addr then some (i, addr-seg.vmaddr)
    else segmentAndOffsetFrom addr (i+1) segs

/-- `segment_and_offset`: the index of the segment that contains `addr`
and the offset in it; `none` is the call that does not return. -/
def segmentAndOffset (segs : List OutputSegment) (addr : ℕ) : Option (ℕ × ℕ) :=
  segmentAndOffsetFrom addr 0 segs

/-- The segments of an image: their ends are addresses, and no two share
a byte. -/
structure Layout where
  segs : List OutputSegment
  ends : ∀ seg ∈ segs, seg.vmaddr+seg.vmsize < 2^64
  disjoint : segs.Pairwise fun a b => ∀ addr, a.Contains addr → ¬ b.Contains addr

/-- The eight bytes at `addr` lie in one segment of the image. -/
def Layout.Slot (L : Layout) (addr : ℕ) : Prop :=
  ∃ seg ∈ L.segs, seg.Contains addr ∧ addr+8 ≤ seg.vmaddr+seg.vmsize

instance (L : Layout) (addr : ℕ) : Decidable (L.Slot addr) :=
  inferInstanceAs (Decidable (∃ seg ∈ L.segs, _ ∧ _))

/-- Two segments with no gap between them. -/
def adjacent : Layout where
  segs := [⟨[95, 95, 84, 69, 88, 84], 0x1000, 0x1000, 0, 0x1000⟩,
    ⟨[95, 95, 68, 65, 84, 65], 0x2000, 0x1000, 0x1000, 0x1000⟩]
  ends := by decide
  disjoint := by
    simp only [List.pairwise_cons, List.mem_singleton, forall_eq, OutputSegment.Contains]
    refine ⟨fun addr ha hb => ?_, by simp⟩
    omega

theorem segment_and_offset_from (addr i k off : ℕ) (segs : List OutputSegment)
    (h : segmentAndOffsetFrom addr i segs = some (k, off)) :
    i ≤ k ∧ ∃ seg, segs[k-i]? = some seg ∧ seg.Contains addr ∧ off = addr-seg.vmaddr := by
  induction segs generalizing i with
  | nil => simp [segmentAndOffsetFrom] at h
  | cons seg segs ih =>
    rw [segmentAndOffsetFrom] at h
    split at h
    case isTrue hc =>
      obtain ⟨rfl, rfl⟩ := Prod.mk.inj (Option.some.inj h)
      exact ⟨le_refl _, seg, by simp, hc, rfl⟩
    case isFalse hc =>
      obtain ⟨hle, s, hs, hsc, ho⟩ := ih (i+1) h
      refine ⟨by omega, s, ?_, hsc, ho⟩
      rw [show k-i = (k-(i+1))+1 by omega, List.getElem?_cons_succ]
      exact hs

theorem segment_and_offset_none (addr i : ℕ) (segs : List OutputSegment)
    (h : segmentAndOffsetFrom addr i segs = none) : ∀ seg ∈ segs, ¬ seg.Contains addr := by
  induction segs generalizing i with
  | nil => simp
  | cons seg segs ih =>
    rw [segmentAndOffsetFrom] at h
    split at h
    case isTrue => simp at h
    case isFalse hc =>
      intro s hs
      rcases List.mem_cons.mp hs with rfl | hs
      · exact hc
      · exact ih (i+1) h s hs

/-- What `segment_and_offset` returns contains the address. -/
theorem segment_and_offset_some {segs : List OutputSegment} {addr k off : ℕ}
    (h : segmentAndOffset segs addr = some (k, off)) :
    ∃ seg, segs[k]? = some seg ∧ seg.Contains addr ∧ off = addr-seg.vmaddr := by
  simpa using (segment_and_offset_from addr 0 k off segs h).2

/-- An address is in one segment only. -/
theorem Layout.unique (L : Layout) {i j addr : ℕ} {a b : OutputSegment}
    (ha : L.segs[i]? = some a) (hb : L.segs[j]? = some b)
    (hca : a.Contains addr) (hcb : b.Contains addr) : i = j := by
  obtain ⟨hi, rfl⟩ := List.getElem?_eq_some_iff.mp ha
  obtain ⟨hj, rfl⟩ := List.getElem?_eq_some_iff.mp hb
  rcases Nat.lt_trichotomy i j with h | h | h
  · exact absurd hcb (List.pairwise_iff_getElem.mp L.disjoint i j hi hj h addr hca)
  · exact h
  · exact absurd hca (List.pairwise_iff_getElem.mp L.disjoint j i hj hi h addr hcb)

/-- The lookup of a slot's address finds the segment the slot lies in. -/
theorem Layout.slot_segment (L : Layout) {addr : ℕ} (h : L.Slot addr) :
    ∃ i seg, segmentAndOffset L.segs addr = some (i, addr-seg.vmaddr) ∧
      L.segs[i]? = some seg ∧ seg.Contains addr ∧ addr+8 ≤ seg.vmaddr+seg.vmsize := by
  obtain ⟨seg, hmem, hc, hend⟩ := h
  obtain ⟨j, hj⟩ := List.getElem?_of_mem hmem
  cases hf : segmentAndOffset L.segs addr with
  | none => exact absurd hc (segment_and_offset_none addr 0 L.segs hf seg hmem)
  | some p =>
    obtain ⟨i, off⟩ := p
    obtain ⟨s, hs, hsc, rfl⟩ := segment_and_offset_some hf
    obtain rfl := L.unique hs hj hsc hc
    obtain rfl : s = seg := Option.some.inj (hs.symm.trans hj)
    exact ⟨i, s, rfl, hs, hsc, hend⟩

/-- A segment that contains a slot's address holds the slot. -/
theorem Layout.slot_in (L : Layout) {addr i : ℕ} {seg : OutputSegment} (h : L.Slot addr)
    (hs : L.segs[i]? = some seg) (hc : seg.Contains addr) :
    segmentAndOffset L.segs addr = some (i, addr-seg.vmaddr) ∧
      addr+8 ≤ seg.vmaddr+seg.vmsize := by
  obtain ⟨j, s, hj, hsj, hsc, hend⟩ := L.slot_segment h
  obtain rfl := L.unique hs hsj hc hsc
  obtain rfl : s = seg := Option.some.inj (hsj.symm.trans hs)
  exact ⟨hj, hend⟩

end MoldMacho.Segments
