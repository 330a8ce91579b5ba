import MoldMacho.Lib.LinearProbing
import Mathlib.Data.Nat.Log
import Mathlib.Data.List.Dedup

/-!
# The digest map of identical code folding

An open-addressing table from digests to the lowest candidate that has each,
used again round after round without clearing: a slot bears the round it was
written in, in the top fifteen bits of a word, over the digest's tag. One thread
runs the insertions here, so no slot is ever busy when it is looked at.
-/

set_option autoImplicit false

namespace MoldMacho.Icf
open MoldMacho.LinearProbing

structure Digest where
  hi : UInt64
  lo : UInt64
  deriving DecidableEq

structure DigestSlot where
  hi : ℕ := 0
  lo : UInt64 := 0
  leader : ℕ := 0
  deriving DecidableEq

/-- The round is a 64-bit count, which no link overflows. -/
structure DigestMap where
  round : ℕ
  mask : ℕ
  slots : List DigestSlot

/-- The least power of two that is at least `2*n`. -/
def tableSize (n : ℕ) : ℕ := 2^Nat.clog 2 (2*n)

def new (n : ℕ) : DigestMap where
  round := 1
  mask := tableSize n-1
  slots := List.replicate (tableSize n) {}

namespace DigestMap

def nextRound (map : DigestMap) : DigestMap := { map with round := map.round+1 }

def slot (map : DigestMap) (i : ℕ) : DigestSlot := map.slots.getD i {}

def setSlot (map : DigestMap) (i : ℕ) (slot : DigestSlot) : DigestMap :=
  { map with slots := map.slots.set i slot }

end DigestMap

def tag (digest : Digest) : ℕ := digest.hi.toNat >>> 16

/-- The word of a slot written in a round: sixty-four bits. -/
def value (round : ℕ) (digest : Digest) : ℕ := (round <<< 49) % 2^64 ||| tag digest

def start (mask : ℕ) (digest : Digest) : ℕ := digest.hi.toNat &&& mask

/-- The probes from slot `i` on, at most `n` of them. -/
def DigestMap.insertAt (map : DigestMap) (digest : Digest) (cand : ℕ) : ℕ → ℕ → Option (Bool × DigestMap)
  | 0, _ => none
  | n+1, i =>
    let slot := map.slot i
    if slot.hi >>> 49 ≠ map.round then
      some (true,map.setSlot i { hi := value map.round digest, lo := digest.lo, leader := cand })
    else if slot.hi &&& 0xffffffffffff ≠ tag digest then insertAt map digest cand n ((i+1) &&& map.mask)
    else if slot.lo ≠ digest.lo then insertAt map digest cand n ((i+1) &&& map.mask)
    else some (false,map.setSlot i { slot with leader := min slot.leader cand })

/-- `none` if the probes never end: they are back at the first slot then. -/
def DigestMap.insert (map : DigestMap) (digest : Digest) (cand : ℕ) : Option (Bool × DigestMap) :=
  map.insertAt digest cand map.slots.length (start map.mask digest)

def DigestMap.findAt (map : DigestMap) (digest : Digest) : ℕ → ℕ → Option ℕ
  | 0, _ => none
  | n+1, i =>
    let slot := map.slot i
    if slot.hi = value map.round digest ∧ slot.lo = digest.lo then some slot.leader
    else findAt map digest n ((i+1) &&& map.mask)

def DigestMap.find (map : DigestMap) (digest : Digest) : Option ℕ :=
  map.findAt digest map.slots.length (start map.mask digest)

/-- The insertions of a round, and what each returns. -/
def insertAll (map : DigestMap) : List (Digest × ℕ) → Option (List Bool × DigestMap)
  | [] => some ([],map)
  | (digest,cand)::insertions => do
    let (isNew,map) ← map.insert digest cand
    let (areNew,map) ← insertAll map insertions
    return (isNew::areNew,map)

/-- The number of insertions that return true in a new round. -/
def countNumClasses (map : DigestMap) (insertions : List (Digest × ℕ)) : Option (ℕ × DigestMap) := do
  let (areNew,map) ← insertAll map.nextRound insertions
  return (areNew.count true,map)

/-- Whole rounds, after each of which the next is begun. -/
def rounds (map : DigestMap) : List (List (Digest × ℕ)) → Option DigestMap
  | [] => some map
  | round::more => do
    let (_,map) ← insertAll map round
    rounds map.nextRound more

/-! ## The words of the slots -/

theorem tag_lt (digest : Digest) : tag digest < 2^48 := by
  have h := digest.hi.toNat_lt
  rw [tag, Nat.shiftRight_eq_div_pow]
  omega

theorem value_lt (round : ℕ) (digest : Digest) : value round digest < 2^64 := by
  have h := tag_lt digest
  exact Nat.or_lt_two_pow (Nat.mod_lt _ (by decide)) (by omega)

/-- While the round fits its fifteen bits, both parts of the word are there. -/
theorem value_parts {round : ℕ} (hr : round < 2^15) (digest : Digest) :
    value round digest >>> 49 = round ∧ value round digest &&& 0xffffffffffff = tag digest := by
  have ht := tag_lt digest
  have hshift : (round <<< 49) % 2^64 = round <<< 49 := by
    rw [Nat.shiftLeft_eq]
    omega
  rw [value, hshift, ← Nat.shiftLeft_add_eq_or_of_lt (by omega), Nat.shiftLeft_eq,
    Nat.shiftRight_eq_div_pow, show (0xffffffffffff : ℕ) = 2^48-1 by rfl,
    Nat.and_two_pow_sub_one_eq_mod]
  omega

theorem stamp_lt {hi : ℕ} (h : hi < 2^64) : hi >>> 49 < 2^15 := by
  rw [Nat.shiftRight_eq_div_pow]
  omega

/-! ## Probing -/

/-- A map with a table made for `n` candidates. -/
structure Sized (n : ℕ) (map : DigestMap) : Prop where
  mask : map.mask = tableSize n-1
  length : map.slots.length = tableSize n

theorem table_size_pos (n : ℕ) : 0 < tableSize n := Nat.two_pow_pos _

theorem lt_table_size (n : ℕ) : n < tableSize n := by
  have hpos := table_size_pos n
  have hle : 2*n ≤ tableSize n := Nat.le_pow_clog (by decide) (2*n)
  omega

theorem mask_mod {n : ℕ} {map : DigestMap} (h : Sized n map) (i : ℕ) :
    i &&& map.mask = i % tableSize n := by
  rw [h.mask, tableSize, Nat.and_two_pow_sub_one_eq_mod]

theorem start_lt {n : ℕ} {map : DigestMap} (h : Sized n map) (digest : Digest) :
    start map.mask digest < tableSize n := by
  rw [start, mask_mod h]
  exact Nat.mod_lt _ (table_size_pos n)

theorem sized_new (n : ℕ) : Sized n (new n) := ⟨rfl,List.length_replicate⟩

theorem sized_set {n : ℕ} {map : DigestMap} (h : Sized n map) (i : ℕ) (slot : DigestSlot) :
    Sized n (map.setSlot i slot) := ⟨h.mask,by rw [DigestMap.setSlot, List.length_set, h.length]⟩

theorem slot_set {n : ℕ} {map : DigestMap} (h : Sized n map) {i : ℕ} (hi : i < tableSize n)
    (slot : DigestSlot) (j : ℕ) :
    (map.setSlot i slot).slot j = if j = i then slot else map.slot j := by
  rw [DigestMap.slot, DigestMap.setSlot, List.getD_eq_getElem?_getD, List.getElem?_set]
  by_cases hj : j = i
  · subst hj
    rw [if_pos rfl, if_pos rfl, if_pos (h.length ▸ hi)]
    rfl
  · rw [if_neg (Ne.symm hj), if_neg hj, DigestMap.slot, List.getD_eq_getElem?_getD]

/-- Where an insertion's probes stop: a slot of another round, or the
digest's. -/
def insertStops (map : DigestMap) (digest : Digest) (i : ℕ) : Bool :=
  (map.slot i).hi >>> 49 ≠ map.round ∨
    (map.slot i).hi &&& 0xffffffffffff = tag digest ∧ (map.slot i).lo = digest.lo

def findStops (map : DigestMap) (digest : Digest) (i : ℕ) : Bool :=
  (map.slot i).hi = value map.round digest ∧ (map.slot i).lo = digest.lo

/-- What an insertion does at the slot where its probes stop. -/
def insertStopped (map : DigestMap) (digest : Digest) (cand : ℕ) (i : ℕ) : Bool × DigestMap :=
  if (map.slot i).hi >>> 49 ≠ map.round then
    (true,map.setSlot i { hi := value map.round digest, lo := digest.lo, leader := cand })
  else (false,map.setSlot i { map.slot i with leader := min (map.slot i).leader cand })

theorem insert_at_scan {n : ℕ} {map : DigestMap} (h : Sized n map) (digest : Digest) (cand : ℕ)
    (fuel i : ℕ) : map.insertAt digest cand fuel i =
      (scan (insertStops map digest) (tableSize n) fuel i).map (insertStopped map digest cand) := by
  induction fuel generalizing i with
  | zero => rfl
  | succ fuel ih =>
    rw [DigestMap.insertAt, scan, mask_mod h, ih]
    by_cases hstamp : (map.slot i).hi >>> 49 ≠ map.round
    · have hstop : insertStops map digest i = true := decide_eq_true (Or.inl hstamp)
      rw [if_pos hstamp, if_pos hstop, Option.map_some, insertStopped, if_pos hstamp]
    · rw [if_neg hstamp]
      by_cases htag : (map.slot i).hi &&& 0xffffffffffff = tag digest
      · rw [if_neg (not_not_intro htag)]
        by_cases hlo : (map.slot i).lo = digest.lo
        · have hstop : insertStops map digest i = true := decide_eq_true (Or.inr ⟨htag,hlo⟩)
          rw [if_neg (not_not_intro hlo), if_pos hstop, Option.map_some, insertStopped,
            if_neg hstamp]
        · have hstop : ¬ insertStops map digest i = true := by
            rw [insertStops, decide_eq_true_eq]
            tauto
          rw [if_pos hlo, if_neg hstop]
      · have hstop : ¬ insertStops map digest i = true := by
          rw [insertStops, decide_eq_true_eq]
          tauto
        rw [if_pos htag, if_neg hstop]

theorem find_at_scan {n : ℕ} {map : DigestMap} (h : Sized n map) (digest : Digest) (fuel i : ℕ) :
    map.findAt digest fuel i =
      (scan (findStops map digest) (tableSize n) fuel i).map fun j => (map.slot j).leader := by
  induction fuel generalizing i with
  | zero => rfl
  | succ fuel ih =>
    rw [DigestMap.findAt, scan, mask_mod h, ih, findStops]
    by_cases hs : (map.slot i).hi = value map.round digest ∧ (map.slot i).lo = digest.lo
    · rw [if_pos hs, if_pos (decide_eq_true hs), Option.map_some]
    · rw [if_neg hs, if_neg (by rwa [decide_eq_true_eq])]

end MoldMacho.Icf
