import Mathlib.Order.Bounds.Basic
import MoldMacho.Lib.BitSets
import MoldMacho.Util.Glob.Pattern

/-!
# Many patterns at once

An automaton that matches many patterns together, a bit a state: a pattern has a
state for what is read of it before each of its letters and one for its end, and a
star keeps the state it follows.
-/

set_option autoImplicit false

namespace MoldMacho.Globs
open MoldMacho.BitSets MoldMacho.Wildcards

/-! ## The largest value -/

/-- The largest of the values, and -1 without any. -/
def Best (values : Set ℤ) (value : ℤ) : Prop := IsGreatest (insert (-1) values) value

theorem best_empty : Best ∅ (-1) := ⟨Set.mem_insert _ _,by simp [upperBounds]⟩

theorem Best.union {a b : Set ℤ} {v w : ℤ} (ha : Best a v) (hb : Best b w) :
    Best (a ∪ b) (max v w) := by
  have h := IsGreatest.union ha hb
  rwa [← Set.insert_union_distrib] at h

/-- A value more, whatever it is. -/
theorem Best.add_value {values : Set ℤ} {value : ℤ} (h : Best values value) (v : ℤ) :
    Best (values ∪ {v}) (max value v) := by
  have hone := (isGreatest_singleton (a := v)).union h
  have hset : {v} ∪ insert (-1) values = insert (-1) (values ∪ {v}) := by
    rw [Set.union_comm, Set.insert_union]
  rwa [hset, max_comm] at hone

theorem Best.le {values : Set ℤ} {value : ℤ} (h : Best values value) : -1 ≤ value :=
  h.2 (Set.mem_insert _ _)

/-- Nothing more is as large as what none exceeds. -/
theorem Best.union_of_le {a b : Set ℤ} {value : ℤ} (h : Best a value) (hb : ∀ v ∈ b, v ≤ value) :
    Best (a ∪ b) value := by
  constructor
  · rcases h.1 with heq | hmem
    · exact .inl heq
    · exact .inr (.inl hmem)
  · rintro v (rfl | hv | hv)
    · exact h.le
    · exact h.2 (.inr hv)
    · exact hb v hv

theorem Best.of_subset {a b : Set ℤ} {value : ℤ} (h : Best a value) (hsub : a ⊆ b)
    (hle : ∀ v ∈ b, v ≤ value) : Best b value := by
  have hboth := h.union_of_le hle
  rwa [Set.union_eq_right.2 hsub] at hboth

/-! ## The automaton -/

structure Nfa where
  initialStates : List (BitVec 64) := []
  starStates : List (BitVec 64) := []
  acceptStates : List (BitVec 64) := []
  charMasks : List (BitVec 64) := []
  values : List ℤ := []

def Token.numStates : Token → ℕ
  | .str literal => literal.length
  | .star => 0
  | .question => 1
  | .bracket _ => 1

def Pattern.numStates (p : Pattern) : ℕ := 1+(p.tokens.map Token.numStates).sum

def allBytes : List UInt8 := (List.range 256).map UInt8.ofNat

section Compile
variable (numWords : ℕ)

def setMask (state : ℕ) (nfa : Nfa) (c : UInt8) : Nfa :=
  { nfa with charMasks :=
      nfa.charMasks.modify (c.toNat*numWords+state/64) (· ||| 1#64 <<< (state%64)) }

def addToken (build : Nfa × ℕ) : Token → Nfa × ℕ
  | .str literal =>
    literal.foldl (fun build c => (setMask numWords (build.2+1) build.1 c,build.2+1)) build
  | .star => ({ build.1 with starStates := setBit build.1.starStates build.2 },build.2)
  | .question => (allBytes.foldl (setMask numWords (build.2+1)) build.1,build.2+1)
  | .bracket chars =>
    (allBytes.foldl (fun nfa c => if chars c then setMask numWords (build.2+1) nfa c else nfa)
      build.1,build.2+1)

def addPattern (build : Nfa × ℕ) (p : Pattern) : Nfa × ℕ :=
  let nfa := { build.1 with initialStates := setBit build.1.initialStates build.2 }
  let build := p.tokens.foldl (addToken numWords) (nfa,build.2)
  ({ build.1 with
      acceptStates := setBit build.1.acceptStates build.2
      values := build.1.values.set build.2 p.value },build.2+1)

end Compile

def Nfa.compile (patterns : List Pattern) : Nfa :=
  let numStates := (patterns.map Pattern.numStates).sum
  let numWords := (numStates+63)/64
  let words := List.replicate numWords 0
  (patterns.foldl (addPattern numWords) ({
    initialStates := words, starStates := words, acceptStates := words
    charMasks := List.replicate (256*numWords) 0
    values := List.replicate numStates (-1) },0)).1

/-- The words of the next states, `carry` the bit shifted in. -/
def advance (carry : BitVec 64) :
    List (BitVec 64) → List (BitVec 64) → List (BitVec 64) → List (BitVec 64)
  | old::states, star::stars, mask::masks =>
    ((old &&& star) ||| ((old <<< 1 ||| carry) &&& mask))::advance (old >>> 63) states stars masks
  | _, _, _ => []

def Nfa.next (nfa : Nfa) (states : List (BitVec 64)) (c : UInt8) : List (BitVec 64) :=
  let numWords := nfa.initialStates.length
  advance 0 states nfa.starStates ((nfa.charMasks.drop (c.toNat*numWords)).take numWords)

/-- The larger of `value` and those of the word's states, lowest first. -/
def wordValue (values : List ℤ) (i : ℕ) (value : ℤ) (word : BitVec 64) : ℤ :=
  if h : word = 0 then value
  else
    have := clear_lowest_lt h
    wordValue values i (max value (values[i*64+word.ctz.toNat]?.getD (-1))) (word &&& (word-1))
termination_by word.toNat

def Nfa.matches (nfa : Nfa) (s : List UInt8) : ℤ :=
  let states := s.foldl nfa.next nfa.initialStates
  (states.zip nfa.acceptStates).zipIdx.foldl
    (fun value word => wordValue nfa.values word.2 value (word.1.1 &&& word.1.2)) (-1)

/-! ## The states that its bits are -/

/-- A state: what is read when it is reached, and the letters that lead to it. -/
structure Cell where
  base : List (Item UInt8)
  chars : UInt8 → Bool
  initial : Bool
  star : Bool := false
  value : Option ℤ := none

def Cell.items (cell : Cell) : List (Item UInt8) :=
  if cell.star then cell.base ++ [.star] else cell.base

/-- A state but an initial one is a letter past the state before it. -/
def Cell.Follows (cell : Cell) (before : Option Cell) : Prop :=
  if cell.initial then cell.base = [] ∧ ∀ c, cell.chars c = false
  else ∃ prev, before = some prev ∧ cell.base = prev.items ++ [.one cell.chars]

def Linked (cells : List Cell) : Prop :=
  ∀ (pos : ℕ) cell, cells[pos]? = some cell → cell.Follows (cells.take pos).getLast?

/-- The bits are the states'. -/
structure Encodes (numWords numStates : ℕ) (nfa : Nfa) (cells : List Cell) : Prop where
  initial_length : nfa.initialStates.length = numWords
  star_length : nfa.starStates.length = numWords
  accept_length : nfa.acceptStates.length = numWords
  chars_length : nfa.charMasks.length = 256*numWords
  values_length : nfa.values.length = numStates
  initial : ∀ pos, bit nfa.initialStates pos = cells[pos]?.any Cell.initial
  star : ∀ pos, bit nfa.starStates pos = cells[pos]?.any Cell.star
  accept : ∀ pos, bit nfa.acceptStates pos = cells[pos]?.any (·.value.isSome)
  chars : ∀ (c : UInt8) pos, pos < 64*numWords →
    bit nfa.charMasks (64*(c.toNat*numWords)+pos) = cells[pos]?.any (·.chars c)
  values : ∀ (pos : ℕ) v, (cells[pos]?.bind Cell.value) = some v → nfa.values[pos]? = some v

/-! ## The automaton built -/

section Built
variable {numWords numStates : ℕ}

theorem set_mask_length (state : ℕ) (nfa : Nfa) (c : UInt8) :
    (setMask numWords state nfa c).charMasks.length = nfa.charMasks.length :=
  List.length_modify _ _ _

theorem set_mask_bit {state : ℕ} {nfa : Nfa} (hlength : nfa.charMasks.length = 256*numWords)
    (hstate : state < 64*numWords) (c c' : UInt8) {pos : ℕ} (hpos : pos < 64*numWords) :
    bit (setMask numWords state nfa c).charMasks (64*(c'.toNat*numWords)+pos) =
      (bit nfa.charMasks (64*(c'.toNat*numWords)+pos) || (c' == c && decide (pos = state))) := by
  have hword : c.toNat*numWords+state/64 = (64*(c.toNat*numWords)+state)/64 := by omega
  have hbit : state%64 = (64*(c.toNat*numWords)+state)%64 := by omega
  have hrow : c.toNat*numWords+numWords ≤ 256*numWords := by
    rw [← Nat.succ_mul]
    exact Nat.mul_le_mul_right numWords c.toNat_lt
  have hset : (setMask numWords state nfa c).charMasks =
      setBit nfa.charMasks (64*(c.toNat*numWords)+state) := by
    rw [setMask, setBit, hword, hbit]
  have hplace : 64*(c'.toNat*numWords)+pos = 64*(c.toNat*numWords)+state ↔ c' = c ∧ pos = state := by
    constructor
    · intro heq
      rcases Nat.lt_trichotomy c'.toNat c.toNat with hlt | heq' | hlt
      · have := Nat.mul_le_mul_right numWords (Nat.succ_le_of_lt hlt)
        rw [Nat.succ_mul] at this
        omega
      · rw [heq'] at heq
        exact ⟨UInt8.toNat_inj.1 heq',by omega⟩
      · have := Nat.mul_le_mul_right numWords (Nat.succ_le_of_lt hlt)
        rw [Nat.succ_mul] at this
        omega
    · rintro ⟨rfl,rfl⟩
      rfl
  rw [hset, bit_set (by omega), decide_eq_decide.2 hplace, Bool.decide_and]
  rfl

/-- The masks with the bits of a state set for its letters. -/
structure MasksSet (numWords state : ℕ) (accepts : UInt8 → Bool) (masks masks' : List (BitVec 64)) :
    Prop where
  length : masks'.length = masks.length
  chars : ∀ (c : UInt8) pos, pos < 64*numWords → bit masks' (64*(c.toNat*numWords)+pos) =
    (bit masks (64*(c.toNat*numWords)+pos) || (accepts c && decide (pos = state)))

theorem set_mask {state : ℕ} {nfa : Nfa} (hlength : nfa.charMasks.length = 256*numWords)
    (hstate : state < 64*numWords) (c : UInt8) :
    ∃ masks, setMask numWords state nfa c = { nfa with charMasks := masks } ∧
      MasksSet numWords state (· == c) nfa.charMasks masks := by
  refine ⟨_,rfl,set_mask_length state nfa c,?_⟩
  intro c' pos hpos
  exact set_mask_bit hlength hstate c c' hpos

theorem fold_masks {state : ℕ} {nfa : Nfa} (hlength : nfa.charMasks.length = 256*numWords)
    (hstate : state < 64*numWords) (accepts : UInt8 → Bool) (letters : List UInt8) :
    ∃ masks, letters.foldl (fun nfa c => if accepts c then setMask numWords state nfa c else nfa)
        nfa = { nfa with charMasks := masks } ∧
      MasksSet numWords state (fun c => decide (c ∈ letters) && accepts c) nfa.charMasks masks := by
  induction letters generalizing nfa with
  | nil => exact ⟨nfa.charMasks,rfl,rfl,by simp⟩
  | cons c letters ih =>
    rw [List.foldl_cons]
    by_cases hc : accepts c = true
    · rw [if_pos hc]
      obtain ⟨masks,heq,hset⟩ := set_mask hlength hstate c
      have hlength' : ({ nfa with charMasks := masks } : Nfa).charMasks.length = 256*numWords :=
        hset.length.trans hlength
      obtain ⟨masks',heq',hset'⟩ := ih hlength'
      refine ⟨masks',heq ▸ heq',hset'.length.trans hset.length,?_⟩
      intro c' pos hpos
      rw [hset'.chars c' pos hpos, hset.chars c' pos hpos]
      grind
    · rw [if_neg hc]
      obtain ⟨masks,heq,hset⟩ := ih hlength
      refine ⟨masks,heq,hset.length,?_⟩
      intro c' pos hpos
      rw [hset.chars c' pos hpos]
      grind

theorem fold_all_masks {state : ℕ} {nfa : Nfa} (hlength : nfa.charMasks.length = 256*numWords)
    (hstate : state < 64*numWords) (accepts : UInt8 → Bool) :
    ∃ masks, allBytes.foldl (fun nfa c => if accepts c then setMask numWords state nfa c else nfa)
        nfa = { nfa with charMasks := masks } ∧
      MasksSet numWords state accepts nfa.charMasks masks := by
  obtain ⟨masks,heq,hlen,hset⟩ := fold_masks hlength hstate accepts allBytes
  have hmem : ∀ c : UInt8, c ∈ allBytes := fun c =>
    List.mem_map.2 ⟨c.toNat,List.mem_range.2 c.toNat_lt,UInt8.ofNat_toNat⟩
  refine ⟨masks,heq,hlen,?_⟩
  intro c pos hpos
  rw [hset c pos hpos, decide_eq_true (hmem c), Bool.true_and]

theorem any_push (f : Cell → Bool) (cells : List Cell) (cell : Cell) (pos : ℕ) :
    (cells ++ [cell])[pos]?.any f =
      (cells[pos]?.any f || (f cell && decide (pos = cells.length))) := by
  rcases Nat.lt_trichotomy pos cells.length with hlt | rfl | hgt
  · rw [List.getElem?_append_left hlt]
    simp [hlt.ne]
  · rw [List.getElem?_concat_length, List.getElem?_eq_none le_rfl]
    simp
  · have hpast : (cells ++ [cell]).length ≤ pos := by
      rw [List.length_append]
      exact hgt
    rw [List.getElem?_eq_none hpast, List.getElem?_eq_none hgt.le]
    simp [hgt.ne']

theorem value_push {cells : List Cell} {cell : Cell} {pos : ℕ} {v : ℤ} :
    ((cells ++ [cell])[pos]?.bind Cell.value) = some v ↔
      (cells[pos]?.bind Cell.value) = some v ∨ (pos = cells.length ∧ cell.value = some v) := by
  rcases Nat.lt_trichotomy pos cells.length with hlt | rfl | hgt
  · rw [List.getElem?_append_left hlt]
    simp [hlt.ne]
  · rw [List.getElem?_concat_length, List.getElem?_eq_none le_rfl]
    simp
  · have hpast : (cells ++ [cell]).length ≤ pos := by
      rw [List.length_append]
      exact hgt
    rw [List.getElem?_eq_none hpast, List.getElem?_eq_none hgt.le]
    simp [hgt.ne']

/-- A state more, with its letters' bits set. -/
theorem Encodes.push {nfa : Nfa} {cells : List Cell} (h : Encodes numWords numStates nfa cells)
    {cell : Cell} {masks : List (BitVec 64)} (hinitial : cell.initial = false)
    (hstar : cell.star = false) (hvalue : cell.value = none)
    (hset : MasksSet numWords cells.length cell.chars nfa.charMasks masks) :
    Encodes numWords numStates { nfa with charMasks := masks } (cells ++ [cell]) := by
  refine { h with
    chars_length := hset.length.trans h.chars_length, initial := ?_, star := ?_, accept := ?_
    chars := ?_, values := ?_ }
  · intro pos
    rw [any_push, hinitial, Bool.false_and, Bool.or_false]
    exact h.initial pos
  · intro pos
    rw [any_push, hstar, Bool.false_and, Bool.or_false]
    exact h.star pos
  · intro pos
    rw [any_push, hvalue, Option.isSome_none, Bool.false_and, Bool.or_false]
    exact h.accept pos
  · intro c pos hpos
    rw [any_push, hset.chars c pos hpos, h.chars c pos hpos]
  · intro pos v hv
    rw [value_push] at hv
    rcases hv with hv | ⟨-,hv⟩
    · exact h.values pos v hv
    · cases hvalue.symm.trans hv

/-- An initial state more. -/
theorem Encodes.push_initial {nfa : Nfa} {cells : List Cell}
    (h : Encodes numWords numStates nfa cells) (hroom : cells.length < 64*numWords) :
    Encodes numWords numStates
      { nfa with initialStates := setBit nfa.initialStates cells.length }
      (cells ++ [{ base := [], chars := fun _ => false, initial := true }]) := by
  refine { h with
    initial_length := (set_bit_length _ _).trans h.initial_length, initial := ?_, star := ?_
    accept := ?_, chars := ?_, values := ?_ }
  · intro pos
    rw [any_push, bit_set (by rw [h.initial_length]; exact hroom), h.initial, Bool.true_and]
  · intro pos
    rw [any_push, Bool.false_and, Bool.or_false]
    exact h.star pos
  · intro pos
    rw [any_push, Option.isSome_none, Bool.false_and, Bool.or_false]
    exact h.accept pos
  · intro c pos hpos
    rw [any_push, Bool.false_and, Bool.or_false]
    exact h.chars c pos hpos
  · intro pos v hv
    rw [value_push] at hv
    rcases hv with hv | ⟨-,hv⟩
    · exact h.values pos v hv
    · cases hv

/-- The last state keeps what it has read. -/
theorem Encodes.mark_star {nfa : Nfa} {cells : List Cell} {cell : Cell}
    (h : Encodes numWords numStates nfa (cells ++ [cell])) (hroom : cells.length < 64*numWords) :
    Encodes numWords numStates { nfa with starStates := setBit nfa.starStates cells.length }
      (cells ++ [{ cell with star := true }]) := by
  refine { h with
    star_length := (set_bit_length _ _).trans h.star_length, initial := ?_, star := ?_
    accept := ?_, chars := ?_, values := ?_ }
  · intro pos
    rw [any_push]
    exact (h.initial pos).trans (any_push _ _ _ _)
  · intro pos
    rw [any_push, bit_set (by rw [h.star_length]; exact hroom), h.star, any_push]
    grind
  · intro pos
    rw [any_push]
    exact (h.accept pos).trans (any_push _ _ _ _)
  · intro c pos hpos
    rw [any_push]
    exact (h.chars c pos hpos).trans (any_push _ _ _ _)
  · intro pos v hv
    rw [value_push] at hv
    exact h.values pos v (value_push.2 hv)

/-- A pattern ends at the last state. -/
theorem Encodes.mark_accept {nfa : Nfa} {cells : List Cell} {cell : Cell}
    (h : Encodes numWords numStates nfa (cells ++ [cell])) (hroom : cells.length < 64*numWords)
    (hstates : cells.length < numStates) (value : ℤ) :
    Encodes numWords numStates
      { nfa with
        acceptStates := setBit nfa.acceptStates cells.length
        values := nfa.values.set cells.length value }
      (cells ++ [{ cell with value := some value }]) := by
  refine { h with
    accept_length := (set_bit_length _ _).trans h.accept_length
    values_length := List.length_set.trans h.values_length, initial := ?_, star := ?_
    accept := ?_, chars := ?_, values := ?_ }
  · intro pos
    rw [any_push]
    exact (h.initial pos).trans (any_push _ _ _ _)
  · intro pos
    rw [any_push]
    exact (h.star pos).trans (any_push _ _ _ _)
  · intro pos
    rw [any_push, bit_set (by rw [h.accept_length]; exact hroom), h.accept, any_push]
    grind
  · intro c pos hpos
    rw [any_push]
    exact (h.chars c pos hpos).trans (any_push _ _ _ _)
  · intro pos v hv
    rw [value_push] at hv
    rcases hv with hv | ⟨rfl,hv⟩
    · have hlt : pos < cells.length := by
        by_contra hge
        rw [List.getElem?_eq_none (not_lt.1 hge)] at hv
        cases hv
      rw [List.getElem?_set_ne hlt.ne']
      exact h.values pos v (value_push.2 (.inl hv))
    · rw [List.getElem?_set_self (by rw [h.values_length]; exact hstates)]
      exact hv

/-! ## One pattern -/

theorem linked_concat {cells : List Cell} {cell : Cell} :
    Linked (cells ++ [cell]) ↔ Linked cells ∧ cell.Follows cells.getLast? := by
  constructor
  · intro h
    constructor
    · intro pos cell' hcell
      have hlt : pos < cells.length := (List.getElem?_eq_some_iff.1 hcell).1
      have hlink := h pos cell' (by rwa [List.getElem?_append_left hlt])
      rwa [List.take_append_of_le_length hlt.le] at hlink
    · have hlink := h cells.length cell List.getElem?_concat_length
      rwa [List.take_left] at hlink
  · rintro ⟨h,hlast⟩ pos cell' hcell
    by_cases hlt : pos < cells.length
    · rw [List.getElem?_append_left hlt] at hcell
      rw [List.take_append_of_le_length hlt.le]
      exact h pos cell' hcell
    · have hpos : pos = cells.length := by
        have := (List.getElem?_eq_some_iff.1 hcell).1
        rw [List.length_append, List.length_singleton] at this
        omega
      rw [hpos, List.getElem?_concat_length] at hcell
      obtain rfl := Option.some.inj hcell
      rw [hpos, List.take_left]
      exact hlast

/-- A pattern with the value is read and matches. -/
def Valued (cells : List Cell) (v : ℤ) (s : List UInt8) : Prop :=
  ∃ cell ∈ cells, cell.value = some v ∧ Matches cell.items s

theorem valued_concat {cells : List Cell} {cell : Cell} {v : ℤ} {s : List UInt8} :
    Valued (cells ++ [cell]) v s ↔
      Valued cells v s ∨ (cell.value = some v ∧ Matches cell.items s) := by
  simp [Valued, or_and_right, exists_or]

/-- In a pattern: the states before the last, and the last. -/
structure Building (numWords numStates : ℕ) (build : Nfa × ℕ) (done : List Cell) (cell : Cell) :
    Prop where
  encodes : Encodes numWords numStates build.1 (done ++ [cell])
  state : build.2 = done.length
  linked : Linked (done ++ [cell])
  value : cell.value = none

/-- From one state, `n` states further the items are read too. -/
def Reads (numWords numStates : ℕ) (done : List Cell) (cell : Cell) (n : ℕ)
    (items : List (Item UInt8)) (build : Nfa × ℕ) : Prop :=
  ∃ done' cell', Building numWords numStates build done' cell' ∧ done'.length = done.length+n ∧
    (∀ v s, Valued done' v s ↔ Valued done v s) ∧ Same cell'.items (cell.items ++ items)

theorem Building.letter {build : Nfa × ℕ} {done : List Cell} {cell : Cell}
    (h : Building numWords numStates build done cell) {accepts : UInt8 → Bool}
    {masks : List (BitVec 64)}
    (hset : MasksSet numWords (build.2+1) accepts build.1.charMasks masks) :
    Reads numWords numStates done cell 1 [.one accepts]
      ({ build.1 with charMasks := masks },build.2+1) := by
  have hlength : (done ++ [cell]).length = build.2+1 := by simp [h.state]
  rw [← hlength] at hset
  refine ⟨done ++ [cell],{ base := cell.items ++ [.one accepts], chars := accepts, initial := false },
    ⟨h.encodes.push rfl rfl rfl hset,hlength.symm,?_,rfl⟩,by simp,?_,Same.refl _⟩
  · rw [linked_concat]
    exact ⟨h.linked,cell,by simp,rfl⟩
  · intro v s
    rw [valued_concat, h.value]
    simp

theorem Building.star {build : Nfa × ℕ} {done : List Cell} {cell : Cell}
    (h : Building numWords numStates build done cell) (hroom : build.2 < 64*numWords) :
    Reads numWords numStates done cell 0 [.star]
      ({ build.1 with starStates := setBit build.1.starStates build.2 },build.2) := by
  rw [h.state] at hroom ⊢
  refine ⟨done,{ cell with star := true },⟨h.encodes.mark_star hroom,rfl,?_,h.value⟩,rfl,
    fun _ _ => Iff.rfl,?_⟩
  · have hlinked := linked_concat.1 h.linked
    rw [linked_concat]
    exact hlinked
  · cases hstar : cell.star with
    | true =>
      rw [Cell.items, Cell.items, if_pos rfl, if_pos hstar, List.append_assoc]
      exact (Same.refl _).append fun s => (star_star s).symm
    | false =>
      rw [Cell.items, Cell.items, if_pos rfl, if_neg (by simp [hstar])]
      exact Same.refl _

theorem Reads.trans {done done' : List Cell} {cell cell' : Cell} {n k : ℕ}
    {items items' : List (Item UInt8)} {build' : Nfa × ℕ} (hlength : done'.length = done.length+n)
    (hvalued : ∀ v s, Valued done' v s ↔ Valued done v s)
    (hitems : Same cell'.items (cell.items ++ items))
    (h : Reads numWords numStates done' cell' k items' build') :
    Reads numWords numStates done cell (n+k) (items ++ items') build' := by
  obtain ⟨done'',cell'',hbuilding,hlength',hvalued',hitems'⟩ := h
  refine ⟨done'',cell'',hbuilding,by omega,fun v s => (hvalued' v s).trans (hvalued v s),?_⟩
  rw [← List.append_assoc]
  exact hitems'.trans (hitems.append (Same.refl _))

theorem Building.nothing {build : Nfa × ℕ} {done : List Cell} {cell : Cell}
    (h : Building numWords numStates build done cell) :
    Reads numWords numStates done cell 0 [] build := by
  refine ⟨done,cell,h,rfl,fun _ _ => Iff.rfl,?_⟩
  rw [List.append_nil]
  exact Same.refl _

theorem literal_reads (literal : List UInt8) {build : Nfa × ℕ} {done : List Cell} {cell : Cell}
    (h : Building numWords numStates build done cell)
    (hroom : build.2+literal.length < 64*numWords) :
    Reads numWords numStates done cell literal.length (letters literal)
      (addToken numWords build (.str literal)) := by
  induction literal generalizing build done cell with
  | nil => exact h.nothing
  | cons c literal ih =>
    rw [List.length_cons] at hroom
    obtain ⟨masks,heq,hset⟩ := set_mask h.encodes.chars_length
      (by omega : build.2+1 < 64*numWords) c
    obtain ⟨done',cell',hbuilding,hdone,hvalued,hitems⟩ := h.letter hset
    have hnext := ih hbuilding (by show build.2+1+_ < _; omega)
    rw [List.length_cons, Nat.add_comm, addToken, List.foldl_cons, heq]
    exact Reads.trans hdone hvalued hitems hnext

theorem Token.reads (token : Token) {build : Nfa × ℕ} {done : List Cell} {cell : Cell}
    (h : Building numWords numStates build done cell)
    (hroom : build.2+token.numStates < 64*numWords) :
    Reads numWords numStates done cell token.numStates token.items
      (addToken numWords build token) := by
  have hlength := h.encodes.chars_length
  cases token with
  | str literal => exact literal_reads literal h hroom
  | star => exact h.star (by simpa [Token.numStates] using hroom)
  | question =>
    have hroom' : build.2+1 < 64*numWords := hroom
    obtain ⟨masks,heq,hset⟩ := fold_all_masks hlength hroom' fun _ => true
    have hread := h.letter hset
    simp only [if_true] at heq
    rw [← heq] at hread
    exact hread
  | bracket chars =>
    have hroom' : build.2+1 < 64*numWords := hroom
    obtain ⟨masks,heq,hset⟩ := fold_all_masks hlength hroom' chars
    have hread := h.letter hset
    rw [← heq] at hread
    exact hread

theorem tokens_read (tokens : List Token) {build : Nfa × ℕ} {done : List Cell} {cell : Cell}
    (h : Building numWords numStates build done cell)
    (hroom : build.2+(tokens.map Token.numStates).sum < 64*numWords) :
    Reads numWords numStates done cell (tokens.map Token.numStates).sum (itemsOf tokens)
      (tokens.foldl (addToken numWords) build) := by
  induction tokens generalizing build done cell with
  | nil => exact h.nothing
  | cons token tokens ih =>
    rw [List.map_cons, List.sum_cons] at hroom
    obtain ⟨done',cell',hbuilding,hdone,hvalued,hitems⟩ := token.reads h (by omega)
    have hnext := ih hbuilding (by rw [hbuilding.state, hdone, ← h.state]; omega)
    rw [List.map_cons, List.sum_cons, List.foldl_cons]
    exact Reads.trans hdone hvalued hitems hnext

/-! ## All patterns -/

/-- Between patterns: the states of those before. -/
structure Built (numWords numStates : ℕ) (build : Nfa × ℕ) (patterns : List Pattern)
    (cells : List Cell) : Prop where
  encodes : Encodes numWords numStates build.1 cells
  state : build.2 = cells.length
  states : build.2 = (patterns.map Pattern.numStates).sum
  linked : Linked cells
  valued : ∀ v s, Valued cells v s ↔ ∃ p ∈ patterns, p.value = v ∧ Matches (itemsOf p.tokens) s

theorem Built.pattern {build : Nfa × ℕ} {patterns : List Pattern} {cells : List Cell}
    (h : Built numWords numStates build patterns cells) (p : Pattern)
    (hroom : build.2+p.numStates ≤ numStates) (hwords : numStates ≤ 64*numWords) :
    ∃ cells', Built numWords numStates (addPattern numWords build p) (patterns ++ [p]) cells' := by
  rw [Pattern.numStates] at hroom
  have hstate := h.state
  have hbuilding : Building numWords numStates
      ({ build.1 with initialStates := setBit build.1.initialStates build.2 },build.2) cells
      { base := [], chars := fun _ => false, initial := true } := by
    refine ⟨?_,hstate,?_,rfl⟩
    · rw [hstate]
      exact h.encodes.push_initial (by omega)
    · rw [linked_concat]
      exact ⟨h.linked,rfl,fun _ => rfl⟩
  obtain ⟨done,cell,hread,hdone,hvalued,hitems⟩ := tokens_read p.tokens hbuilding
    (by show build.2+_ < _; omega)
  have hlast := hread.state
  refine ⟨done ++ [{ cell with value := some p.value }],?_,?_,?_,?_,?_⟩
  · rw [addPattern, hlast]
    exact hread.encodes.mark_accept (by omega) (by omega) p.value
  · rw [addPattern, hlast]
    simp
  · rw [addPattern, hlast, hdone, List.map_append, List.sum_append, ← h.states, hstate]
    simp [Pattern.numStates]
    omega
  · have hlinked := linked_concat.1 hread.linked
    rw [linked_concat]
    exact hlinked
  · intro v s
    have hlastItems : Matches cell.items s ↔ Matches (itemsOf p.tokens) s := hitems s
    rw [valued_concat, hvalued, h.valued]
    simp only [List.mem_append, List.mem_singleton, or_and_right, exists_or, exists_eq_left,
      Option.some.injEq]
    exact or_congr_right (and_congr_right fun _ => hlastItems)

theorem Built.patterns {build : Nfa × ℕ} {before : List Pattern} {cells : List Cell}
    (h : Built numWords numStates build before cells) (rest : List Pattern)
    (hroom : build.2+(rest.map Pattern.numStates).sum ≤ numStates)
    (hwords : numStates ≤ 64*numWords) :
    ∃ cells', Built numWords numStates (rest.foldl (addPattern numWords) build) (before ++ rest)
      cells' := by
  induction rest generalizing build before cells with
  | nil =>
    rw [List.append_nil]
    exact ⟨cells,h⟩
  | cons p rest ih =>
    rw [List.map_cons, List.sum_cons] at hroom
    obtain ⟨cells',h'⟩ := h.pattern p (by omega) hwords
    have hstates : (addPattern numWords build p).2 = build.2+p.numStates := by
      rw [h'.states, List.map_append, List.sum_append, ← h.states]
      simp
    obtain ⟨cells'',h''⟩ := ih h' (by omega)
    rw [List.append_assoc] at h''
    exact ⟨cells'',h''⟩

end Built

theorem compile_built (patterns : List Pattern) :
    ∃ numWords numStates cells state, cells.length ≤ 64*numWords ∧
      Built numWords numStates (Nfa.compile patterns,state) patterns cells := by
  let numStates := (patterns.map Pattern.numStates).sum
  let numWords := (numStates+63)/64
  have hempty : Built numWords numStates ({
      initialStates := List.replicate numWords 0, starStates := List.replicate numWords 0
      acceptStates := List.replicate numWords 0
      charMasks := List.replicate (256*numWords) 0
      values := List.replicate numStates (-1) },0) [] [] := by
    refine ⟨⟨by simp,by simp,by simp,by simp,by simp,?_,?_,?_,?_,by simp⟩,rfl,rfl,?_,?_⟩
    · exact fun pos => bit_replicate numWords pos
    · exact fun pos => bit_replicate numWords pos
    · exact fun pos => bit_replicate numWords pos
    · exact fun c pos _ => bit_replicate (256*numWords) _
    · intro pos cell hcell
      cases hcell
    · simp [Valued]
  obtain ⟨cells,hbuilt⟩ := hempty.patterns patterns (by simp [numStates]) (by omega)
  have hlength : cells.length = numStates := hbuilt.state.symm.trans hbuilt.states
  exact ⟨numWords,numStates,cells,_,by omega,hbuilt⟩

theorem compile_nonempty {patterns : List Pattern} (h : patterns ≠ []) :
    (Nfa.compile patterns).initialStates.isEmpty = false := by
  obtain ⟨numWords,numStates,cells,state,hroom,hbuilt⟩ := compile_built patterns
  obtain ⟨p,rest,rfl⟩ := List.exists_cons_of_ne_nil h
  have hstates : cells.length = ((p::rest).map Pattern.numStates).sum :=
    hbuilt.state.symm.trans hbuilt.states
  rw [List.map_cons, List.sum_cons, Pattern.numStates] at hstates
  rw [List.isEmpty_eq_false_iff, ← List.length_pos_iff, hbuilt.encodes.initial_length]
  omega

/-! ## What it has read -/

theorem advance_length {carry : BitVec 64} {states stars masks : List (BitVec 64)}
    (hstars : stars.length = states.length) (hmasks : masks.length = states.length) :
    (advance carry states stars masks).length = states.length := by
  induction states generalizing carry stars masks with
  | nil => simp [advance]
  | cons old states ih =>
    obtain ⟨star,stars,rfl⟩ := List.exists_cons_of_length_eq_add_one hstars
    obtain ⟨mask,masks,rfl⟩ := List.exists_cons_of_length_eq_add_one hmasks
    rw [advance, List.length_cons, List.length_cons, ih (by simpa using hstars) (by simpa using hmasks)]

/-- A state stays by its star, and moves to the next one by its letters. -/
theorem advance_bit {carry : BitVec 64} {states stars masks : List (BitVec 64)}
    (hstars : stars.length = states.length) (hmasks : masks.length = states.length)
    (hcarry : ∀ k, 0 < k → carry.getLsbD k = false) (pos : ℕ) :
    bit (advance carry states stars masks) pos = ((bit states pos && bit stars pos) ||
      ((if pos = 0 then carry.getLsbD 0 else bit states (pos-1)) && bit masks pos)) := by
  induction states generalizing carry stars masks pos with
  | nil =>
    obtain rfl := List.length_eq_zero_iff.1 hstars
    obtain rfl := List.length_eq_zero_iff.1 hmasks
    simp [advance, bit]
  | cons old states ih =>
    obtain ⟨star,stars,rfl⟩ := List.exists_cons_of_length_eq_add_one hstars
    obtain ⟨mask,masks,rfl⟩ := List.exists_cons_of_length_eq_add_one hmasks
    rw [advance]
    by_cases hpos : pos < 64
    · have hshift : (old <<< 1 ||| carry).getLsbD pos =
          if pos = 0 then carry.getLsbD 0 else bit (old::states) (pos-1) := by
        by_cases h : pos = 0
        · simp [h]
        · rw [if_neg h, bit_cons_zero old states (by omega), BitVec.getLsbD_or,
            BitVec.getLsbD_shiftLeft, hcarry pos (by omega)]
          simp [hpos, show ¬pos < 1 by omega]
      rw [bit_cons_zero _ _ hpos, bit_cons_zero _ _ hpos, bit_cons_zero _ _ hpos,
        bit_cons_zero _ _ hpos, BitVec.getLsbD_or, BitVec.getLsbD_and, BitVec.getLsbD_and, hshift]
    · obtain ⟨k,rfl⟩ := Nat.exists_eq_add_of_le' (not_lt.1 hpos)
      have hlast : ∀ j, 0 < j → (old >>> 63).getLsbD j = false := by
        intro j hj
        rw [BitVec.getLsbD_ushiftRight]
        exact BitVec.getLsbD_of_ge _ _ (by omega)
      have hbefore : (if k = 0 then (old >>> 63).getLsbD 0 else bit states (k-1)) =
          if k+64 = 0 then carry.getLsbD 0 else bit (old::states) (k+64-1) := by
        rw [if_neg (by omega : ¬k+64 = 0)]
        by_cases h : k = 0
        · rw [if_pos h, h, bit_cons_zero old states (by decide), BitVec.getLsbD_ushiftRight]
        · rw [if_neg h, show k+64-1 = k-1+64 by omega, bit_cons_add]
      rw [bit_cons_add, bit_cons_add, bit_cons_add, bit_cons_add,
        ih (by simpa using hstars) (by simpa using hmasks) hlast, hbefore]

section Reading
variable {numWords numStates state : ℕ} {nfa : Nfa} {patterns : List Pattern} {cells : List Cell}

/-- The states whose items match what is read. -/
def Active (numWords : ℕ) (cells : List Cell) (states : List (BitVec 64)) (s : List UInt8) : Prop :=
  states.length = numWords ∧
    ∀ pos, bit states pos = true ↔ ∃ cell, cells[pos]? = some cell ∧ Matches cell.items s

theorem take_bit {words : List (BitVec 64)} {n k pos : ℕ} :
    bit ((words.drop k).take n) pos = (decide (pos < 64*n) && bit words (64*k+pos)) := by
  have hdiv : (64*k+pos)/64 = k+pos/64 := by omega
  have hmod : (64*k+pos)%64 = pos%64 := by omega
  rw [bit, bit, hdiv, hmod, List.getElem?_take, List.getElem?_drop]
  by_cases h : pos < 64*n
  · rw [if_pos (Nat.div_lt_of_lt_mul h)]
    simp [h]
  · rw [if_neg (by omega)]
    simp [h]

theorem Linked.matches_nil (h : Linked cells) {pos : ℕ} {cell : Cell}
    (hcell : cells[pos]? = some cell) : Matches cell.items [] ↔ cell.initial = true := by
  have hfollows := h pos cell hcell
  unfold Cell.Follows at hfollows
  cases hinitial : cell.initial with
  | true =>
    rw [hinitial, if_pos rfl] at hfollows
    rw [Cell.items, hfollows.1]
    split
    · exact iff_of_true matches_star rfl
    · exact iff_of_true rfl rfl
  | false =>
    rw [hinitial, if_neg Bool.false_ne_true] at hfollows
    obtain ⟨prev,-,hbase⟩ := hfollows
    rw [Cell.items, hbase]
    split
    · rw [matches_concat_star_nil]
      exact iff_of_false not_matches_concat_one Bool.false_ne_true
    · exact iff_of_false not_matches_concat_one Bool.false_ne_true

/-- A letter more: the star takes it, or it is the letter after the state before. -/
theorem Linked.matches_concat (h : Linked cells) {pos : ℕ} {cell : Cell}
    (hcell : cells[pos]? = some cell) (s : List UInt8) (c : UInt8) :
    Matches cell.items (s ++ [c]) ↔ (Matches cell.items s ∧ cell.star = true) ∨
      ((∃ prev, 0 < pos ∧ cells[pos-1]? = some prev ∧ Matches prev.items s) ∧
        cell.chars c = true) := by
  have hfollows := h pos cell hcell
  have hlt : pos < cells.length := (List.getElem?_eq_some_iff.1 hcell).1
  unfold Cell.Follows at hfollows
  cases hinitial : cell.initial with
  | true =>
    rw [hinitial, if_pos rfl] at hfollows
    rw [Cell.items, hfollows.1, hfollows.2 c]
    cases cell.star with
    | true => simp [matches_star]
    | false => simp
  | false =>
    rw [hinitial, if_neg Bool.false_ne_true] at hfollows
    obtain ⟨prev,hprev,hbase⟩ := hfollows
    have hpos : 0 < pos := by
      by_contra hzero
      rw [Nat.eq_zero_of_not_pos hzero] at hprev
      cases hprev
    have hget : cells[pos-1]? = some prev := by
      rwa [List.getLast?_take, if_neg hpos.ne', List.getElem?_eq_getElem (by omega), Option.some_or,
        ← List.getElem?_eq_getElem] at hprev
    have hbefore : (∃ other, 0 < pos ∧ cells[pos-1]? = some other ∧ Matches other.items s) ↔
        Matches prev.items s := by
      simp [hpos, hget]
    rw [hbefore, Cell.items]
    cases cell.star with
    | true =>
      rw [if_pos rfl, matches_concat_star, and_iff_left rfl]
      exact or_congr_right (hbase ▸ matches_concat_one)
    | false =>
      rw [if_neg Bool.false_ne_true, hbase, matches_concat_one]
      simp

theorem Encodes.active_initial (h : Encodes numWords numStates nfa cells) (hlinked : Linked cells) :
    Active numWords cells nfa.initialStates [] := by
  refine ⟨h.initial_length,?_⟩
  intro pos
  rw [h.initial, Option.any_eq_true]
  apply exists_congr
  intro cell
  exact and_congr_right fun hcell => (hlinked.matches_nil hcell).symm

theorem Encodes.active_next (h : Encodes numWords numStates nfa cells) (hlinked : Linked cells)
    (hroom : cells.length ≤ 64*numWords) {states : List (BitVec 64)} {s : List UInt8}
    (hactive : Active numWords cells states s) (c : UInt8) :
    Active numWords cells (nfa.next states c) (s ++ [c]) := by
  obtain ⟨hlength,hbits⟩ := hactive
  have hrow : (c.toNat+1)*numWords ≤ 256*numWords := Nat.mul_le_mul_right numWords c.toNat_lt
  rw [Nat.succ_mul] at hrow
  have hmasks : ((nfa.charMasks.drop (c.toNat*numWords)).take numWords).length = states.length := by
    rw [List.length_take, List.length_drop, h.chars_length, hlength]
    omega
  have hstars : nfa.starStates.length = states.length := h.star_length.trans hlength.symm
  have hmask (pos : ℕ) :
      bit ((nfa.charMasks.drop (c.toNat*numWords)).take numWords) pos = true ↔
        pos < 64*numWords ∧ cells[pos]?.any (·.chars c) = true := by
    rw [take_bit, Bool.and_eq_true, decide_eq_true_eq]
    exact and_congr_right fun hpos => by rw [h.chars c pos hpos]
  rw [Nfa.next, h.initial_length]
  refine ⟨(advance_length hstars hmasks).trans hlength,?_⟩
  intro pos
  rw [advance_bit hstars hmasks (by simp), Bool.or_eq_true, Bool.and_eq_true, Bool.and_eq_true,
    h.star, hmask, hbits]
  cases hcell : cells[pos]? with
  | none => simp
  | some cell =>
    have hpos : pos < 64*numWords := (List.getElem?_eq_some_iff.1 hcell).1.trans_le hroom
    have hbefore : (if pos = 0 then (0 : BitVec 64).getLsbD 0 else bit states (pos-1)) = true ↔
        ∃ prev, 0 < pos ∧ cells[pos-1]? = some prev ∧ Matches prev.items s := by
      by_cases hzero : pos = 0
      · simp [hzero]
      · rw [if_neg hzero, hbits]
        simp [Nat.pos_of_ne_zero hzero]
    have hconcat := hlinked.matches_concat hcell s c
    simp only [Option.some.injEq, exists_eq_left', Option.any_some]
    rw [hconcat, hbefore, and_iff_right hpos]

theorem Encodes.active_read (h : Encodes numWords numStates nfa cells) (hlinked : Linked cells)
    (hroom : cells.length ≤ 64*numWords) (s : List UInt8) :
    Active numWords cells (s.foldl nfa.next nfa.initialStates) s := by
  induction s using List.reverseRecOn with
  | nil => exact h.active_initial hlinked
  | append_singleton s c ih =>
    rw [List.foldl_append]
    exact h.active_next hlinked hroom ih c

end Reading

/-! ## The largest value of a state -/

/-- The values of a word's states. -/
def wordValues (values : List ℤ) (i : ℕ) (word : BitVec 64) : Set ℤ :=
  {v | ∃ k, word.getLsbD k = true ∧ values[i*64+k]? = some v}

theorem word_value_best {values : List ℤ} {i : ℕ} {seen : Set ℤ} {value : ℤ} (h : Best seen value)
    (word : BitVec 64) (hvalues : ∀ k, word.getLsbD k = true →
      ∃ v, values[i*64+k]? = some v) :
    Best (seen ∪ wordValues values i word) (wordValue values i value word) := by
  induction hn : word.toNat using Nat.strong_induction_on generalizing word seen value with
  | _ n ih =>
    rw [wordValue]
    split
    · next hzero =>
      have hempty : wordValues values i word = ∅ := by
        simp [wordValues, hzero]
      rwa [hempty, Set.union_empty]
    · next hne =>
      have hlowest := BitVec.getLsbD_true_ctz_of_ne_zero hne
      obtain ⟨v,hv⟩ := hvalues _ hlowest
      have hrest := ih _ (hn ▸ clear_lowest_lt hne) (h.add_value v)
        (word &&& (word-1)) (fun k hk => by
          rw [clear_lowest hne, Bool.and_eq_true] at hk
          exact hvalues k hk.1) rfl
      have hset : seen ∪ wordValues values i word =
          seen ∪ {v} ∪ wordValues values i (word &&& (word-1)) := by
        ext w
        simp only [Set.mem_union, Set.mem_singleton_iff, wordValues, Set.mem_ofPred_eq, or_assoc,
          clear_lowest hne, Bool.and_eq_true, decide_eq_true_eq]
        apply or_congr_right
        constructor
        · rintro ⟨k,hk,hw⟩
          by_cases heq : k = word.ctz.toNat
          · rw [heq, hv] at hw
            exact .inl (Option.some.inj hw).symm
          · exact .inr ⟨k,⟨hk,heq⟩,hw⟩
        · rintro (rfl | ⟨k,⟨hk,-⟩,hw⟩)
          · exact ⟨_,hlowest,hv⟩
          · exact ⟨k,hk,hw⟩
      rw [hset, hv, Option.getD_some]
      exact hrest

theorem words_value_best (values : List ℤ) (words : List (BitVec 64 × BitVec 64)) (i : ℕ)
    {seen : Set ℤ} {value : ℤ} (h : Best seen value)
    (hvalues : ∀ (j : ℕ) word, words[j]? = some word → ∀ k, (word.1 &&& word.2).getLsbD k = true →
      ∃ v, values[(i+j)*64+k]? = some v) :
    Best (seen ∪ {v | ∃ (j : ℕ) (word : BitVec 64 × BitVec 64), words[j]? = some word ∧
        v ∈ wordValues values (i+j) (word.1 &&& word.2)})
      ((words.zipIdx i).foldl
        (fun value word => wordValue values word.2 value (word.1.1 &&& word.1.2)) value) := by
  induction words generalizing i seen value with
  | nil => simpa using h
  | cons word words ih =>
    have hword := word_value_best (i := i) h (word.1 &&& word.2) (hvalues 0 word rfl)
    have hrest := ih (i+1) hword fun j word hj k hk => by
      rw [Nat.add_right_comm]
      exact hvalues (j+1) word hj k hk
    rw [List.zipIdx_cons, List.foldl_cons]
    convert hrest using 1
    ext v
    simp only [Set.mem_union, Set.mem_ofPred_eq, or_assoc]
    apply or_congr_right
    constructor
    · rintro ⟨j,word',hj,hv⟩
      cases j with
      | zero =>
        obtain rfl := Option.some.inj hj
        exact .inl hv
      | succ j =>
        rw [← Nat.add_assoc, Nat.add_right_comm] at hv
        exact .inr ⟨j,word',hj,hv⟩
    · rintro (hv | ⟨j,word',hj,hv⟩)
      · exact ⟨0,word,rfl,hv⟩
      · rw [Nat.add_right_comm, Nat.add_assoc] at hv
        exact ⟨j+1,word',hj,hv⟩

/-- The automaton of many patterns finds the largest value of those that match. -/
theorem Nfa.matches_best (patterns : List Pattern) (s : List UInt8) :
    Best {v | ∃ p ∈ patterns, p.value = v ∧ Matches (itemsOf p.tokens) s}
      ((Nfa.compile patterns).matches s) := by
  obtain ⟨numWords,numStates,cells,state,hroom,hbuilt⟩ := compile_built patterns
  have henc := hbuilt.encodes
  have hbits := (henc.active_read hbuilt.linked hroom s).2
  let states := s.foldl (Nfa.compile patterns).next (Nfa.compile patterns).initialStates
  have haccepting (pos : ℕ) : (bit states pos = true ∧
      bit (Nfa.compile patterns).acceptStates pos = true) ↔
      ∃ cell v, cells[pos]? = some cell ∧ cell.value = some v ∧ Matches cell.items s := by
    rw [hbits, henc.accept]
    cases cells[pos]? with
    | none => simp
    | some cell => simp [Option.isSome_iff_exists, and_comm]
  have hvalue {pos : ℕ} {cell : Cell} {v : ℤ} (hcell : cells[pos]? = some cell)
      (hv : cell.value = some v) : (Nfa.compile patterns).values[pos]? = some v :=
    henc.values pos v (by rw [hcell]; exact hv)
  have hword {j : ℕ} {word : BitVec 64 × BitVec 64}
      (hj : (states.zip (Nfa.compile patterns).acceptStates)[j]? = some word) {k : ℕ}
      (hk : (word.1 &&& word.2).getLsbD k = true) :
      ∃ cell v, cells[64*j+k]? = some cell ∧ cell.value = some v ∧ Matches cell.items s := by
    obtain ⟨hstate,haccept⟩ := List.getElem?_zip_eq_some.1 hj
    have hlt : k < 64 := by
      by_contra hge
      rw [BitVec.getLsbD_of_ge _ _ (not_lt.1 hge)] at hk
      cases hk
    rw [BitVec.getLsbD_and, Bool.and_eq_true] at hk
    rw [← haccepting, bit_word hstate hlt, bit_word haccept hlt]
    exact hk
  have hbest := words_value_best (Nfa.compile patterns).values
    (states.zip (Nfa.compile patterns).acceptStates) 0 best_empty (by
      intro j word hj k hk
      obtain ⟨cell,v,hcell,hv,-⟩ := hword hj hk
      rw [Nat.zero_add, Nat.mul_comm j]
      exact ⟨v,hvalue hcell hv⟩)
  have hset : {v | ∃ p ∈ patterns, p.value = v ∧ Matches (itemsOf p.tokens) s} =
      ∅ ∪ {v | ∃ (j : ℕ) (word : BitVec 64 × BitVec 64),
        (states.zip (Nfa.compile patterns).acceptStates)[j]? = some word ∧
          v ∈ wordValues (Nfa.compile patterns).values (0+j) (word.1 &&& word.2)} := by
    ext v
    rw [Set.mem_ofPred_eq, ← hbuilt.valued, Set.empty_union]
    constructor
    · rintro ⟨cell,hmem,hv,hmatch⟩
      obtain ⟨pos,hcell⟩ := List.mem_iff_getElem?.1 hmem
      obtain ⟨hstate,haccept⟩ := (haccepting pos).2 ⟨cell,v,hcell,hv,hmatch⟩
      obtain ⟨stateWord,hstateWord,hstateBit⟩ := bit_word_of hstate
      obtain ⟨acceptWord,hacceptWord,hacceptBit⟩ := bit_word_of haccept
      refine ⟨pos/64,(stateWord,acceptWord),List.getElem?_zip_eq_some.2 ⟨hstateWord,hacceptWord⟩,
        pos%64,?_,?_⟩
      · rw [BitVec.getLsbD_and, hstateBit, hacceptBit, Bool.true_and]
      · rw [Nat.zero_add, Nat.div_add_mod']
        exact hvalue hcell hv
    · rintro ⟨j,word,hj,k,hk,hv⟩
      obtain ⟨cell,v',hcell,hv',hmatch⟩ := hword hj hk
      rw [Nat.zero_add, Nat.mul_comm j, hvalue hcell hv'] at hv
      obtain rfl := Option.some.inj hv
      exact ⟨cell,List.mem_of_getElem? hcell,hv',hmatch⟩
  rw [hset]
  exact hbest

end MoldMacho.Globs
