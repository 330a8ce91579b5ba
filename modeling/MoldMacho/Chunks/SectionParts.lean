import MoldMacho.Chunks.OutputSection

/-!
# The parts of an output section

The members, the thunks and the tails of a section take ranges of their own in it,
and each member is handed a slice of its own.
-/

set_option autoImplicit false

namespace MoldMacho.OutputSections
open MoldMacho.Align MoldMacho.Thunks Rows
open MoldMacho.InputSections (InputSection)

/-- An offset that keeps a subsection's place modulo its alignment. -/
def Aligned (isec : InputSection) (off : ℕ) : Prop :=
  if isec.isRecord then 2^(isec.p2align % 64) ∣ off
  else off % 2^(isec.p2align % 64) = isec.inputAddr % 2^(isec.p2align % 64)

theorem align_to_mod_mod {align modulus : ℕ} (h : modulus < align) (value : ℕ) :
    alignToMod value align modulus % align = modulus := by
  rw [alignToMod]
  split
  · exact Nat.mod_eq_of_lt h
  · obtain ⟨k,hk⟩ := align_to_dvd (Nat.zero_lt_of_lt h) (value-modulus)
    rw [hk, Nat.mul_add_mod, Nat.mod_eq_of_lt h]

theorem align_offset_aligned (isec : InputSection) (off : ℕ) :
    off ≤ isec.alignOffset off ∧ Aligned isec (isec.alignOffset off) := by
  have hpos : 0 < 2^(isec.p2align % 64) := Nat.two_pow_pos _
  rw [Aligned, InputSection.alignOffset]
  split
  · exact ⟨le_align_to _ _,align_to_dvd hpos _⟩
  · exact ⟨le_align_to_mod _ _ _,align_to_mod_mod (Nat.mod_lt _ hpos) _⟩

/-! ## A section as it is laid out -/

/-- What is placed in a section: a member at its offset, or a thunk. -/
inductive Item where
  | member (id start : ℕ)
  | thunk (thunk : Thunk)

def Item.id? : Item → Option ℕ
  | .member id _ => some id
  | .thunk _ => none

def Item.thunk? : Item → Option Thunk
  | .member _ _ => none
  | .thunk t => some t

def Item.start : Item → ℕ
  | .member _ start => start
  | .thunk t => t.offset

def Item.stop (target : Target) (isecs : ℕ → InputSection) : Item → ℕ
  | .member id start => start + (isecs id).size
  | .thunk t => t.offset + t.size target

/-- The items placed in order: the first `d` members and the thunks. -/
structure Laid (target : Target) (isecs : ℕ → InputSection) (members : List ℕ) (d offset : ℕ)
    (offsets : ℕ → ℕ) (thunks : List Thunk) (items : List Item) : Prop where
  row : InRow Item.start (Item.stop target isecs) 0 items offset
  last : offset = (items.getLast?.map (Item.stop target isecs)).getD 0
  members : items.filterMap Item.id? = members.take d
  thunks : items.filterMap Item.thunk? = thunks
  offsets : ∀ id start, Item.member id start ∈ items →
    offsets id = start % 2^32 ∧ Aligned (isecs id) start
  aligned : ∀ thunk, Item.thunk thunk ∈ items → thunkAlign ∣ thunk.offset

section Laid
variable {target : Target} {isecs : ℕ → InputSection} {members : List ℕ} {d offset : ℕ}
variable {offsets : ℕ → ℕ} {thunks : List Thunk} {items : List Item}

theorem laid_start : Laid target isecs members 0 0 offsets [] [] where
  row := le_rfl
  last := rfl
  members := rfl
  thunks := rfl
  offsets := by simp
  aligned := by simp

/-- The next member, after the items placed. -/
theorem Laid.member (h : Laid target isecs members d offset offsets thunks items)
    (hnodup : members.Nodup) {id : ℕ} (hid : members[d]? = some id) :
    Laid target isecs members (d+1) ((isecs id).alignOffset offset + (isecs id).size)
      (Function.update offsets id ((isecs id).alignOffset offset % 2^32)) thunks
      (items ++ [.member id ((isecs id).alignOffset offset)]) := by
  obtain ⟨hle,haligned⟩ := align_offset_aligned (isecs id) offset
  obtain ⟨hd,rfl⟩ := List.getElem?_eq_some_iff.1 hid
  constructor
  · exact h.row.concat hle (Nat.le_add_right _ _) le_rfl
  · rw [List.getLast?_concat]
    rfl
  · rw [List.filterMap_append, h.members, List.take_add_one, List.getElem?_eq_getElem hd]
    rfl
  · rw [List.filterMap_append, h.thunks]
    exact List.append_nil _
  · intro other start hmem
    rcases List.mem_append.1 hmem with hmem | hmem
    · have hother : other ∈ members.take d := by
        rw [← h.members]
        exact List.mem_filterMap.2 ⟨_,hmem,rfl⟩
      have hne : other ≠ members[d] := by
        rintro rfl
        obtain ⟨i,hi⟩ := List.getElem?_of_mem hother
        obtain ⟨hlt,-⟩ := List.getElem?_eq_some_iff.1 hi
        rw [List.length_take] at hlt
        rw [List.getElem?_take_of_lt (by omega)] at hi
        have hid := (List.getElem?_inj (by omega) hnodup).1 (hi.trans hid.symm)
        omega
      rw [Function.update_of_ne hne]
      exact h.offsets other start hmem
    · obtain ⟨rfl,rfl⟩ : other = members[d] ∧ start = _ := by simpa using hmem
      exact ⟨Function.update_self ..,haligned⟩
  · intro thunk hmem
    rcases List.mem_append.1 hmem with hmem | hmem
    · exact h.aligned thunk hmem
    · simp at hmem

/-- A thunk after the items placed. -/
theorem Laid.thunk (h : Laid target isecs members d offset offsets thunks items)
    (syms : List Symbols.SymbolId) :
    Laid target isecs members d (alignTo offset thunkAlign + syms.length * target.thunkSize)
      offsets (thunks ++ [⟨alignTo offset thunkAlign,syms⟩])
      (items ++ [.thunk ⟨alignTo offset thunkAlign,syms⟩]) := by
  constructor
  · exact h.row.concat (le_align_to offset thunkAlign) (Nat.le_add_right _ _) le_rfl
  · rw [List.getLast?_concat]
    rfl
  · rw [List.filterMap_append, h.members]
    exact List.append_nil _
  · rw [List.filterMap_append, h.thunks]
    rfl
  · intro id start hmem
    rcases List.mem_append.1 hmem with hmem | hmem
    · exact h.offsets id start hmem
    · simp at hmem
  · intro thunk hmem
    rcases List.mem_append.1 hmem with hmem | hmem
    · exact h.aligned thunk hmem
    · obtain rfl : thunk = _ := by simpa using hmem
      exact align_to_dvd (by decide) offset

end Laid

/-! ## Laying a section out with thunks -/

section Thunks
variable {target : Target} {ctx : Context} {members : List ℕ}

/-- A state of the layout: its first `d` members and its thunks are in a row. -/
structure Placed (target : Target) (ctx : Context) (members : List ℕ) (s : State) : Prop where
  laid : ∃ items, Laid target ctx.isecs members s.d s.offset s.offsets s.thunks items
  b_le : s.b ≤ s.d
  d_le : s.d ≤ members.length

theorem move_d_placed (hnodup : members.Nodup) (rest : List ℕ) {s : State}
    (hrest : members.drop s.d = rest) (h : Placed target ctx members s) :
    Placed target ctx members (moveD target ctx members rest s) ∧
      (moveD target ctx members rest s).b = s.b ∧
      (s.b < members.length → s.b < (moveD target ctx members rest s).d) := by
  induction rest generalizing s with
  | nil =>
    have hlen := List.drop_eq_nil_iff.1 hrest
    exact ⟨h,rfl,fun hb => Nat.lt_of_lt_of_le hb hlen⟩
  | cons m rest ih =>
    rw [moveD]
    split
    · rename_i hstop
      exact ⟨h,rfl,fun _ => Nat.lt_of_le_of_ne h.b_le hstop.1⟩
    · have hm : members[s.d]? = some m := by
        rw [← List.head?_drop, hrest]
        rfl
      have hlt := (List.getElem?_eq_some_iff.1 hm).1
      obtain ⟨items,hlaid⟩ := h.laid
      have hnext : Placed target ctx members { s with
          offsets := Function.update s.offsets m ((ctx.isecs m).alignOffset s.offset % 2^32)
          offset := (ctx.isecs m).alignOffset s.offset + (ctx.isecs m).size
          d := s.d+1 } := ⟨⟨_,hlaid.member hnodup hm⟩,Nat.le_succ_of_le h.b_le,hlt⟩
      have hdrop : members.drop (s.d+1) = rest := by
        rw [← List.tail_drop, hrest]
        rfl
      exact ih hdrop hnext

theorem batch_end_bounds (offsets : ℕ → ℕ) {b d : ℕ} (h : b < d) :
    b < batchEnd ctx members offsets b d ∧ batchEnd ctx members offsets b d ≤ d := by
  have hlen := (List.takeWhile_sublist (fun m =>
    decide (offsets m + (ctx.isecs m).size < offsetAt members offsets b + batchSize))
    (l := (members.take d).drop (b+1))).length_le
  rw [List.length_drop, List.length_take] at hlen
  rw [batchEnd]
  omega

theorem place_thunk_placed {s : State} (h : Placed target ctx members s)
    (syms : List Symbols.SymbolId) : Placed target ctx members (placeThunk target s syms) := by
  obtain ⟨items,hlaid⟩ := h.laid
  rw [placeThunk]
  split
  · exact h
  · exact ⟨⟨_,hlaid.thunk syms⟩,h.b_le,h.d_le⟩

theorem place_thunk_d (s : State) (syms : List Symbols.SymbolId) :
    (placeThunk target s syms).d = s.d := by
  rw [placeThunk]
  split <;> rfl

theorem unmark_placed {s : State} (h : Placed target ctx members s) (a : ℕ) :
    Placed target ctx members (unmark members { s with a }) :=
  ⟨h.laid,h.b_le,h.d_le⟩

/-- A batch keeps the layout in order and moves on. -/
theorem lay_batch_placed (hnodup : members.Nodup) (reach : Reach) {s : State}
    (h : Placed target ctx members s) (hb : s.b < members.length) :
    Placed target ctx members (layBatch target ctx members reach s) ∧
      s.b < (layBatch target ctx members reach s).b := by
  obtain ⟨hmoved,hsame,hlt⟩ := move_d_placed hnodup _ rfl h
  obtain ⟨hc,hcd⟩ := @batch_end_bounds ctx members
    (moveD target ctx members (members.drop s.d) s).offsets _ _ (hsame ▸ hlt hb)
  constructor
  · constructor
    · exact (place_thunk_placed (unmark_placed hmoved _) _).laid
    · show _ ≤ (placeThunk target _ _).d
      rw [place_thunk_d]
      exact hcd
    · show (placeThunk target _ _).d ≤ _
      rw [place_thunk_d]
      exact hmoved.d_le
  · exact hsame ▸ hc

theorem lay_batches_placed (hnodup : members.Nodup) (reach : Reach) (fuel : ℕ) {s : State}
    (h : Placed target ctx members s) (hfuel : members.length ≤ s.b + fuel) :
    Placed target ctx members (layBatches target ctx members reach fuel s) ∧
      (layBatches target ctx members reach fuel s).d = members.length := by
  induction fuel generalizing s with
  | zero => exact ⟨h,Nat.le_antisymm h.d_le (hfuel.trans h.b_le)⟩
  | succ fuel ih =>
    rw [layBatches]
    split
    · rename_i hb
      obtain ⟨hnext,hlt⟩ := lay_batch_placed hnodup reach h hb
      exact ih hnext (by omega)
    · rename_i hb
      exact ⟨h,Nat.le_antisymm h.d_le ((Nat.le_of_not_lt hb).trans h.b_le)⟩

/-- Whatever the branches, the section ends up with all its members. -/
theorem create_thunks_laid (hnodup : members.Nodup) (reach : Reach) (offsets : ℕ → ℕ) :
    let s := Thunks.createThunks target ctx members reach offsets
    ∃ items, Laid target ctx.isecs members members.length s.offset s.offsets s.thunks items := by
  obtain ⟨hplaced,hd⟩ := @lay_batches_placed target ctx members hnodup reach
    members.length { offsets := fun m => if m ∈ members then unplaced else offsets m }
    ⟨⟨[],laid_start⟩,le_rfl,Nat.zero_le _⟩ (Nat.le_add_left _ _)
  obtain ⟨items,hlaid⟩ := hplaced.laid
  exact ⟨items,hd ▸ hlaid⟩

end Thunks

/-! ## Laying a section out -/

section Layout
variable {target : Target} {isecs : ℕ → InputSection} {members : List ℕ}

/-- Recording the offsets one by one lays the members out. -/
theorem layout_from_laid (hnodup : members.Nodup) (rest : List ℕ) {d off : ℕ} {offsets : ℕ → ℕ}
    {items : List Item} (hrest : members.drop d = rest)
    (h : Laid target isecs members d off offsets [] items) :
    ∃ items', Laid target isecs members members.length (layoutFrom isecs off rest).2
      ((rest.zip (layoutFrom isecs off rest).1).foldl
        (fun offsets e => Function.update offsets e.1 (e.2 % 2^32)) offsets) [] items' := by
  induction rest generalizing d off offsets items with
  | nil =>
    have htake : members.take members.length = members.take d := by
      rw [List.take_length, List.take_of_length_le (List.drop_eq_nil_iff.1 hrest)]
    exact ⟨items,h.row,h.last,h.members.trans htake.symm,h.thunks,h.offsets,h.aligned⟩
  | cons m rest ih =>
    have hm : members[d]? = some m := by
      rw [← List.head?_drop, hrest]
      rfl
    have hdrop : members.drop (d+1) = rest := by
      rw [← List.tail_drop, hrest]
      rfl
    exact ih hdrop (h.member hnodup hm)

theorem compute_section_size_laid (offsets : ℕ → ℕ) (osec : OutputSection)
    (hnodup : osec.members.Nodup) :
    let laid := computeSectionSize isecs offsets osec
    ∃ items, Laid target isecs osec.members osec.members.length laid.2.size laid.1 [] items :=
  layout_from_laid hnodup _ rfl laid_start

end Layout

/-! ## The slices of the members -/

section Slices
variable {offset : ℕ → ℕ} {n : ℕ}

/-- The slice of a member: up to the next one. -/
def sliceAt (offset : ℕ → ℕ) (i : ℕ) : Slice := ⟨i,offset i,offset (i+1) - offset i⟩

theorem hand_out_eq (hmono : ∀ i j, i ≤ j → j ≤ n → offset i ≤ offset j) (count : ℕ) {i len : ℕ}
    (hn : i + count ≤ n) (hlen : offset (i+count) - offset i ≤ len) :
    handOut offset (offset i) len count i (offset i) =
      some ((List.range' i count).map (sliceAt offset)) := by
  induction count generalizing i len with
  | zero => rfl
  | succ count ih =>
    have hnext : offset i ≤ offset (i+1) := hmono i (i+1) (by omega) (by omega)
    have hlast : offset (i+1) ≤ offset (i+(count+1)) := hmono _ _ (by omega) hn
    have hstop : i + 1 + count = i + (count+1) := by omega
    have hrest := @ih (i+1) (len - (offset (i+1) - offset i)) (by omega)
      (by rw [hstop]; omega)
    rw [handOut, if_neg (by omega), Nat.add_sub_cancel' hnext, hrest]
    rfl

theorem hand_out_range (hmono : ∀ i j, i ≤ j → j ≤ n → offset i ≤ offset j) {lo hi len : ℕ}
    (hle : lo ≤ hi) (hn : hi ≤ n) (hlen : offset hi - offset lo ≤ len) :
    handOut offset (offset lo) len (hi-lo) lo (offset lo) =
      some ((List.range' lo (hi-lo)).map (sliceAt offset)) := by
  have hhi : lo + (hi-lo) = hi := Nat.add_sub_cancel' hle
  exact hand_out_eq hmono (hi-lo) (by omega) (by rwa [hhi])

/-- However the members are split, they are handed the same slices. -/
theorem split_members_eq (hmono : ∀ i j, i ≤ j → j ≤ n → offset i ≤ offset j) (splits : Splits)
    {lo hi len : ℕ} (hle : lo ≤ hi) (hn : hi ≤ n) (hlen : offset hi - offset lo ≤ len) :
    splitMembers offset splits lo hi (offset lo) len =
      some ((List.range' lo (hi-lo)).map (sliceAt offset)) := by
  induction splits generalizing lo hi len with
  | leaf => exact hand_out_range hmono hle hn hlen
  | node left right ihl ihr =>
    rw [splitMembers]
    split
    · exact hand_out_range hmono hle hn hlen
    · have hmid : offset lo ≤ offset (lo + (hi-lo)/2) := hmono _ _ (by omega) (by omega)
      have hend : offset (lo + (hi-lo)/2) ≤ offset hi := hmono _ _ (by omega) hn
      have hrange : List.range' lo (hi-lo) = List.range' lo (lo + (hi-lo)/2 - lo) ++
          List.range' (lo + (hi-lo)/2) (hi - (lo + (hi-lo)/2)) := by
        rw [Nat.add_sub_cancel_left, List.range'_append_1]
        congr 1
        omega
      dsimp only
      rw [if_neg (by omega), Nat.add_sub_cancel' hmid, ihl (by omega) (by omega) le_rfl,
        ihr (by omega) hn (by omega), hrange, List.map_append]
      rfl

end Slices

/-! ## The parts -/

/-- Synthesized data for the end of a section: none is appended without bytes. -/
structure Synthesized where
  p2align : ℕ
  tail : Tail
  size : ℕ
  tail_ne : tail ≠ .none
  size_pos : 0 < size

/-- Appends one tail after another: the section, and where each was put then. -/
def appendTails : OutputSection → List Synthesized → OutputSection × List (Synthesized × ℕ)
  | osec, [] => (osec,[])
  | osec, s::synthesized =>
    let osec := appendTail osec s.p2align s.tail s.size
    let (last,starts) := appendTails osec synthesized
    (last,(s,osec.tailOff)::starts)

/-- Lays a section out: its members, the tails synthesized for it, and then the
thunks when the code may span more than a branch reaches. -/
def finalLayout (target : Target) (ctx : Context) (offsets : ℕ → ℕ) (members : List ℕ)
    (synthesized : List Synthesized) (reach : Option Reach) :
    (ℕ → ℕ) × OutputSection × List (Synthesized × ℕ) :=
  let (offsets,osec) := computeSectionSize ctx.isecs offsets { members }
  let (osec,tails) := appendTails osec synthesized
  match reach with
  | some reach =>
    let (offsets,osec) := createThunks target ctx reach offsets osec
    (offsets,osec,tails)
  | none => (offsets,osec,tails)

/-- Where a tail of the section lies. -/
def tailPlace (osec : OutputSection) (e : Synthesized × ℕ) : ℕ :=
  if e.1.tail.recorded then e.2 else osec.tailOff

/-- The slices of a section's members: each has one of its own, from its offset
and as large as it at least. -/
structure Handed (isecs : ℕ → InputSection) (offsets : ℕ → ℕ) (osec : OutputSection)
    (slices : List Slice) : Prop where
  each : slices.map (fun slice => osec.members[slice.member]?) = osec.members.map some
  covers : ∀ slice ∈ slices, ∀ id, osec.members[slice.member]? = some id →
    slice.start = offsets id ∧ (isecs id).size ≤ slice.len ∧ slice.start + slice.len ≤ osec.size
  apart : slices.Pairwise fun a b => a.start + a.len ≤ b.start

/-- The parts of a section are apart, in it and where they are aligned. -/
structure Parted (target : Target) (isecs : ℕ → InputSection) (offsets : ℕ → ℕ)
    (osec : OutputSection) (tails : List (Synthesized × ℕ)) : Prop where
  members : InRow offsets (fun id => offsets id + (isecs id).size) 0 osec.members osec.size
  thunks : InRow Thunk.offset (fun t => t.offset + t.size target) 0 osec.thunks osec.size
  apart : ∀ id ∈ osec.members, ∀ t ∈ osec.thunks,
    offsets id + (isecs id).size ≤ t.offset ∨ t.offset + t.size target ≤ offsets id
  tailsIn : ∀ e ∈ tails, tailPlace osec e + e.1.size ≤ osec.size ∧
    (∀ id ∈ osec.members, offsets id + (isecs id).size ≤ tailPlace osec e) ∧
    ∀ t ∈ osec.thunks, t.offset + t.size target ≤ tailPlace osec e
  tailsApart : tails.Pairwise fun a b => tailPlace osec a + a.1.size ≤ tailPlace osec b ∨
    tailPlace osec b + b.1.size ≤ tailPlace osec a
  aligned : ∀ id ∈ osec.members, Aligned (isecs id) (offsets id)
  thunksAligned : ∀ t ∈ osec.thunks, thunkAlign ∣ t.offset
  slices : ∀ splits, ∃ slices, forEachMember splits offsets osec = some slices ∧
    Handed isecs offsets osec slices

/-! ## The tails -/

section Tails
variable (osec : OutputSection) (synthesized : List Synthesized)

@[simp] theorem append_tails_members :
    (appendTails osec synthesized).1.members = osec.members := by
  induction synthesized generalizing osec with
  | nil => rfl
  | cons s synthesized ih => exact ih _

@[simp] theorem append_tails_thunks :
    (appendTails osec synthesized).1.thunks = osec.thunks := by
  induction synthesized generalizing osec with
  | nil => rfl
  | cons s synthesized ih => exact ih _

theorem append_tails_fst : (appendTails osec synthesized).2.map Prod.fst = synthesized := by
  induction synthesized generalizing osec with
  | nil => rfl
  | cons s synthesized ih => exact congrArg (s :: ·) (ih _)

/-- The tails are put in a row after what the section had. -/
theorem append_tails_row :
    InRow Prod.snd (fun e => e.2 + e.1.size) osec.size (appendTails osec synthesized).2
      (appendTails osec synthesized).1.size := by
  induction synthesized generalizing osec with
  | nil => exact le_rfl
  | cons s synthesized ih =>
    exact ⟨le_align_to _ _,Nat.le_add_right _ _,ih (appendTail osec s.p2align s.tail s.size)⟩

/-- The section's tail is the one appended last. -/
theorem append_tails_last {e : Synthesized × ℕ}
    (he : (appendTails osec synthesized).2.getLast? = some e) :
    (appendTails osec synthesized).1.tailOff = e.2 := by
  induction synthesized generalizing osec with
  | nil => cases he
  | cons s synthesized ih =>
    cases synthesized with
    | nil =>
      obtain rfl := Option.some.inj he
      rfl
    | cons next synthesized => exact ih _ he

/-- The tails lie where they were put, when the ones before the last keep their
own offsets. -/
theorem tail_place_start (h : ∀ s ∈ synthesized.dropLast, s.tail.recorded)
    {e : Synthesized × ℕ} (he : e ∈ (appendTails osec synthesized).2) :
    tailPlace (appendTails osec synthesized).1 e = e.2 := by
  rw [tailPlace]
  split
  · rfl
  · rename_i hrecorded
    have hne := List.ne_nil_of_mem he
    rw [← List.dropLast_append_getLast hne] at he
    rcases List.mem_append.1 he with he | he
    · have hmem : e.1 ∈ synthesized.dropLast := by
        rw [← append_tails_fst osec synthesized, ← List.map_dropLast]
        exact List.mem_map_of_mem he
      exact absurd (h e.1 hmem) hrecorded
    · obtain rfl := List.mem_singleton.1 he
      exact append_tails_last osec synthesized (List.getLast?_eq_some_getLast hne)

end Tails

section Parted
variable {target : Target} {isecs : ℕ → InputSection} {offsets : ℕ → ℕ} {osec : OutputSection}

theorem for_each_member_handed
    (h : InRow offsets (fun id => offsets id + (isecs id).size) 0 osec.members osec.size)
    (splits : Splits) : ∃ slices, forEachMember splits offsets osec = some slices ∧
      Handed isecs offsets osec slices := by
  have hmono : ∀ i j, i ≤ j → j ≤ osec.members.length →
      memberOffset offsets osec i ≤ memberOffset offsets osec j :=
    fun i j hij _ => h.place_mono hij
  have hlast : memberOffset offsets osec osec.members.length = osec.size := by
    rw [memberOffset, List.getElem?_eq_none le_rfl]
    rfl
  have hend (i : ℕ) (hi : i ≤ osec.members.length) : memberOffset offsets osec i ≤ osec.size :=
    hlast ▸ hmono i _ hi le_rfl
  refine ⟨(List.range' 0 osec.members.length).map (sliceAt (memberOffset offsets osec)),?_,?_⟩
  · rw [forEachMember, if_neg (Nat.not_lt.2 (hend 0 (Nat.zero_le _))),
      split_members_eq hmono splits (Nat.zero_le _) le_rfl (by rw [hlast]), Nat.sub_zero]
  · constructor
    · rw [List.map_map]
      apply List.ext_getElem?
      intro i
      by_cases hi : i < osec.members.length
      · simp [sliceAt, hi]
      · simp [hi]
    · intro slice hslice id hid
      obtain ⟨i,hi,rfl⟩ := List.mem_map.1 hslice
      have hlt := (List.getElem?_eq_some_iff.1 hid).1
      have hstart : memberOffset offsets osec i = offsets id := by
        rw [memberOffset, show osec.members[i]? = some id from hid]
        rfl
      have hstop := h.stop_le_next hid
      have hnext := hend (i+1) hlt
      refine ⟨hstart,?_,?_⟩
      · exact Nat.le_sub_of_add_le (by rw [hstart, Nat.add_comm]; exact hstop)
      · show memberOffset offsets osec i + (memberOffset offsets osec (i+1) -
          memberOffset offsets osec i) ≤ _
        rwa [Nat.add_sub_cancel' (hmono i (i+1) (Nat.le_succ i) hlt)]
    · rw [List.pairwise_map]
      refine (List.pairwise_lt_range').imp_of_mem ?_
      intro i j hi hj hij
      have hj := (List.mem_range'_1.1 hj).2
      show memberOffset offsets osec i + (memberOffset offsets osec (i+1) -
        memberOffset offsets osec i) ≤ memberOffset offsets osec j
      rw [Nat.add_sub_cancel' (hmono i (i+1) (Nat.le_succ i) (by omega))]
      exact hmono (i+1) j hij (by omega)

variable {members : List ℕ} {thunks : List Thunk} {items : List Item} {size : ℕ}
variable {tails : List (Synthesized × ℕ)}

/-- Below 4 GiB a member's recorded offset is its offset. -/
theorem Laid.start_eq (h : Laid target isecs members members.length size offsets thunks items)
    (hsize : size < 2^32) {id start : ℕ} (hmem : Item.member id start ∈ items) :
    offsets id = start := by
  obtain ⟨-,hle,hstop⟩ := h.row.bounds hmem
  rw [(h.offsets id start hmem).1]
  exact Nat.mod_eq_of_lt (Nat.lt_of_le_of_lt (hle.trans hstop) hsize)

theorem Laid.exists_item (h : Laid target isecs members members.length size offsets thunks items)
    {id : ℕ} (hid : id ∈ members) : ∃ start, Item.member id start ∈ items := by
  rw [← List.take_length (l := members), ← h.members] at hid
  obtain ⟨item,hmem,hitem⟩ := List.mem_filterMap.1 hid
  cases item with
  | member other start =>
    obtain rfl : other = id := Option.some.inj hitem
    exact ⟨start,hmem⟩
  | thunk t => cases hitem

theorem Laid.mem_thunks (h : Laid target isecs members members.length size offsets thunks items)
    {t : Thunk} (ht : t ∈ thunks) : Item.thunk t ∈ items := by
  rw [← h.thunks] at ht
  obtain ⟨item,hmem,hitem⟩ := List.mem_filterMap.1 ht
  cases item with
  | member id start => cases hitem
  | thunk other =>
    obtain rfl : other = t := Option.some.inj hitem
    exact hmem

/-- A section laid out, with its tails after its last part. -/
theorem Laid.parted (h : Laid target isecs osec.members osec.members.length size offsets
      osec.thunks items) (hle : size ≤ osec.size) (hsize : size < 2^32)
    (htails : ∀ e ∈ tails, size ≤ tailPlace osec e ∧ tailPlace osec e + e.1.size ≤ osec.size)
    (hapart : tails.Pairwise fun a b => tailPlace osec a + a.1.size ≤ tailPlace osec b ∨
      tailPlace osec b + b.1.size ≤ tailPlace osec a) :
    Parted target isecs offsets osec tails := by
  have hrow : InRow offsets (fun id => offsets id + (isecs id).size) 0 osec.members osec.size := by
    have hsome : ∀ item ∈ items, ∀ id, item.id? = some id →
        offsets id = item.start ∧ offsets id + (isecs id).size = item.stop target isecs := by
      intro item hmem id hid
      cases item with
      | member other start =>
        obtain rfl : other = id := Option.some.inj hid
        have hstart := h.start_eq hsize hmem
        exact ⟨hstart,hstart ▸ rfl⟩
      | thunk t => cases hid
    have hall := (h.row.filterMap hsome).mono hle
    rwa [h.members, List.take_length] at hall
  have hthunks : InRow Thunk.offset (fun t => t.offset + t.size target) 0 osec.thunks size := by
    have hsome : ∀ item ∈ items, ∀ t, item.thunk? = some t →
        t.offset = item.start ∧ t.offset + t.size target = item.stop target isecs := by
      intro item hmem t ht
      cases item with
      | member id start => cases ht
      | thunk other =>
        obtain rfl : other = t := Option.some.inj ht
        exact ⟨rfl,rfl⟩
    exact h.thunks ▸ h.row.filterMap hsome
  constructor
  · exact hrow
  · exact hthunks.mono hle
  · intro id hid t ht
    obtain ⟨start,hmem⟩ := h.exists_item hid
    have hapart := h.row.apart hmem (h.mem_thunks ht) (by simp)
    rw [h.start_eq hsize hmem]
    exact hapart
  · intro e he
    obtain ⟨hbefore,hinside⟩ := htails e he
    refine ⟨hinside,?_,?_⟩
    · intro id hid
      obtain ⟨start,hmem⟩ := h.exists_item hid
      rw [h.start_eq hsize hmem]
      exact (h.row.bounds hmem).2.2.trans hbefore
    · intro t ht
      exact (hthunks.bounds ht).2.2.trans hbefore
  · exact hapart
  · intro id hid
    obtain ⟨start,hmem⟩ := h.exists_item hid
    rw [h.start_eq hsize hmem]
    exact (h.offsets id start hmem).2
  · intro t ht
    exact h.aligned t (h.mem_thunks ht)
  · exact for_each_member_handed hrow

/-- A section that ends at its last part has no room for a tail. -/
theorem Laid.not_parted (h : Laid target isecs osec.members osec.members.length osec.size offsets
      osec.thunks items) (hsize : osec.size < 2^32) (htails : tails ≠ []) :
    ¬Parted target isecs offsets osec tails := by
  intro hparted
  obtain ⟨e,he⟩ := List.exists_mem_of_ne_nil _ htails
  obtain ⟨hinside,hmembers,hthunks⟩ := hparted.tailsIn e he
  have hpos := e.1.size_pos
  have hlast := h.last
  cases hitem : items.getLast? with
  | none =>
    rw [hitem] at hlast
    have hzero : osec.size = 0 := hlast
    omega
  | some item =>
    have hmem := List.mem_of_getLast? hitem
    rw [hitem] at hlast
    have hstop : item.stop target isecs ≤ tailPlace osec e := by
      cases item with
      | member id start =>
        have hid : id ∈ osec.members := by
          rw [← List.take_length (l := osec.members), ← h.members]
          exact List.mem_filterMap.2 ⟨_,hmem,rfl⟩
        have hle := hmembers id hid
        rwa [h.start_eq hsize hmem] at hle
      | thunk t =>
        refine hthunks t ?_
        rw [← h.thunks]
        exact List.mem_filterMap.2 ⟨_,hmem,rfl⟩
    have hlast : osec.size = item.stop target isecs := hlast
    omega

/-- Tails after the members are apart when the ones before the last keep their own
offsets. -/
theorem append_tails_parted (h : Laid target isecs osec.members osec.members.length osec.size
      offsets osec.thunks items) {synthesized : List Synthesized}
    (hsize : (appendTails osec synthesized).1.size < 2^32)
    (hrecorded : ∀ s ∈ synthesized.dropLast, s.tail.recorded) :
    Parted target isecs offsets (appendTails osec synthesized).1
      (appendTails osec synthesized).2 := by
  have hrow := append_tails_row osec synthesized
  refine Laid.parted (by simpa using h) hrow.le (Nat.lt_of_le_of_lt hrow.le hsize) ?_ ?_
  · intro e he
    rw [tail_place_start osec synthesized hrecorded he]
    exact ⟨(hrow.bounds he).1,(hrow.bounds he).2.2⟩
  · refine hrow.pairwise.imp_of_mem ?_
    intro a b ha hb hab
    rw [tail_place_start osec synthesized hrecorded ha,
      tail_place_start osec synthesized hrecorded hb]
    exact Or.inl hab

/-- A tail looked for at the section's own lies where the last one does. -/
theorem recorded_of_parted {synthesized : List Synthesized}
    (h : Parted target isecs offsets (appendTails osec synthesized).1
      (appendTails osec synthesized).2) :
    ∀ s ∈ synthesized.dropLast, s.tail.recorded := by
  intro s hs
  by_contra hrecorded
  rw [← append_tails_fst osec synthesized, ← List.map_dropLast] at hs
  obtain ⟨e,he,rfl⟩ := List.mem_map.1 hs
  have hne : (appendTails osec synthesized).2 ≠ [] := by
    intro hnil
    rw [hnil] at he
    cases he
  have hapart := h.tailsApart
  rw [← List.dropLast_append_getLast hne] at hapart
  have hlast := (List.pairwise_append.1 hapart).2.2 e he _ (List.mem_singleton_self _)
  have hplace : tailPlace (appendTails osec synthesized).1 e =
      (appendTails osec synthesized).1.tailOff := if_neg hrecorded
  have hlastPlace : tailPlace (appendTails osec synthesized).1
      ((appendTails osec synthesized).2.getLast hne) =
        (appendTails osec synthesized).1.tailOff := by
    rw [tailPlace]
    split
    · exact (append_tails_last osec synthesized (List.getLast?_eq_some_getLast hne)).symm
    · rfl
  have hpos := e.1.size_pos
  have hlastPos := ((appendTails osec synthesized).2.getLast hne).1.size_pos
  rw [hplace, hlastPlace] at hlast
  omega

end Parted

/-- The parts of a section are apart unless it has both thunks laid out and a
tail, which the layout of the thunks leaves out of the section, or a tail that a
later one takes the place of. -/
theorem final_layout_parted (target : Target) (ctx : Context) (offsets : ℕ → ℕ) (members : List ℕ)
    (hnodup : members.Nodup) (synthesized : List Synthesized) (reach : Option Reach)
    (hsize : (finalLayout target ctx offsets members synthesized reach).2.1.size < 2^32) :
    let laid := finalLayout target ctx offsets members synthesized reach
    Parted target ctx.isecs laid.1 laid.2.1 laid.2.2 ↔
      ¬(synthesized ≠ [] ∧ reach.isSome) ∧ ∀ s ∈ synthesized.dropLast, s.tail.recorded := by
  obtain ⟨items,hfirst⟩ := @compute_section_size_laid target ctx.isecs offsets
    { members } hnodup
  cases reach with
  | none =>
    constructor
    · intro hparted
      exact ⟨by simp,recorded_of_parted hparted⟩
    · intro hwhen
      exact append_tails_parted hfirst hsize hwhen.2
  | some reach =>
    let first := computeSectionSize ctx.isecs offsets { members }
    have hmembers : (appendTails first.2 synthesized).1.members.Nodup := by
      rw [append_tails_members]
      exact hnodup
    obtain ⟨items,hlaid⟩ := @create_thunks_laid target ctx _ hmembers reach first.1
    by_cases hnone : synthesized = []
    · subst hnone
      have hparted : Parted target ctx.isecs _
          (finalLayout target ctx offsets members [] (some reach)).2.1 [] :=
        hlaid.parted le_rfl hsize (by simp) List.Pairwise.nil
      exact iff_of_true hparted (by simp)
    · have htails : (appendTails first.2 synthesized).2 ≠ [] := by
        intro hnil
        have hfst := append_tails_fst first.2 synthesized
        rw [hnil] at hfst
        exact hnone hfst.symm
      have hparted : ¬Parted target ctx.isecs _
          (finalLayout target ctx offsets members synthesized (some reach)).2.1
          (appendTails first.2 synthesized).2 :=
        hlaid.not_parted hsize htails
      exact iff_of_false hparted (by simp [hnone])

/-- Subsections of 100 MiB each, without branches. -/
def largeContext : Context where
  isecs := fun _ => { file := 0, p2align := 2, size := 100 * 2^20 }
  rels := fun _ => []
  symbols := fun _ => {}
  resolve := id
  outputSection := fun _ => some 0

def wholeReach : Reach where
  osec := 0
  sides := fun _ => .before
  stubs := .after
  objcStubs := .after
  before := some 0
  after := none

/-- A selector's name, in the tail of the section. -/
def methname : Synthesized where
  p2align := 0
  tail := .objcMethname
  size := 5
  tail_ne := by decide
  size_pos := by decide

/-- The references to the selectors, in another. -/
def selrefs : Synthesized where
  p2align := 3
  tail := .objcSelrefs
  size := 16
  tail_ne := by decide
  size_pos := by decide

/-- Records of merged classes. -/
def classData : Synthesized where
  p2align := 3
  tail := .dataBlobs
  size := 72
  tail_ne := by decide
  size_pos := by decide

theorem final_layout_parted_tails :
    let laid := finalLayout arm64 largeContext (fun _ => 0) [3,4] [classData,methname] none
    Parted arm64 largeContext.isecs laid.1 laid.2.1 laid.2.2 :=
  (final_layout_parted arm64 largeContext (fun _ => 0) [3,4] (by decide) [classData,methname] none
    (by decide)).2 (by decide)

/-- A tail is left outside of a section laid out with thunks, and two that are
looked for at the section's tail are taken for one. -/
theorem tail_outside_section :
    (let laid := finalLayout arm64 largeContext (fun _ => 0) [3,4] [methname] (some wholeReach)
     ¬Parted arm64 largeContext.isecs laid.1 laid.2.1 laid.2.2) ∧
    let laid := finalLayout arm64 largeContext (fun _ => 0) [] [methname,selrefs] none
    ¬Parted arm64 largeContext.isecs laid.1 laid.2.1 laid.2.2 := by
  constructor
  · intro laid hparted
    have houtside : ¬laid.2.1.tailOff + 5 ≤ laid.2.1.size := by decide +kernel
    exact houtside (hparted.tailsIn (methname,_) (List.mem_singleton_self _)).1
  · intro laid hparted
    have hapart := hparted.tailsApart
    revert hapart
    decide +kernel

end MoldMacho.OutputSections
