import MoldMacho.Chunks.Opcodes
import MoldMacho.Chunks.Segments

/-!
# The rebase opcode stream

The stream tells dyld which pointers slide with the image. The encoder
sorts the pointers, sets a segment when the next one lies outside the
last, and collapses adjacent pointers into counted opcodes. Executing the
stream on dyld's machine rebases each pointer once and nothing else.
-/

set_option autoImplicit false

namespace MoldMacho.RebaseInfo
open MoldMacho.Segments MoldMacho.OpStream MoldMacho.Opcodes MoldMacho.Leb128

/-- A rebase opcode before encoding. -/
inductive Op where
  | segOffset (seg off : ℕ)
  | addAddr (delta : ℕ)
  | rebase (count : ℕ)
  deriving DecidableEq, Repr

/-- What the encoder remembers between two runs of pointers. -/
structure Cursor where
  segStart : ℕ := 0
  segEnd : ℕ := 0
  curAddr : ℕ := 0

/-- The opcode that moves to `addr`, if it takes one, and the bounds of
the segment then set. -/
def moveTo (segs : List OutputSegment) (c : Cursor) (addr : ℕ) :
    Option (List Op × ℕ × ℕ) :=
  if addr < c.segStart ∨ c.segEnd ≤ addr then do
    let (seg, off) ← segmentAndOffset segs addr
    let cmd ← segs[seg]?
    some ([.segOffset seg off], addr-off, addr-off+cmd.vmsize)
  else if addr ≠ c.curAddr then
    some ([.addAddr (wrappingSub addr c.curAddr)], c.segStart, c.segEnd)
  else some ([], c.segStart, c.segEnd)

/-- The length of the run of adjacent pointers from `addr`, `n` of which
are counted; it stops at the segment's end. -/
def runLength (addr segEnd : ℕ) : ℕ → List ℕ → ℕ
  | n, [] => n
  | n, loc::locs => if loc = addr+n*8 ∧ loc < segEnd then runLength addr segEnd (n+1) locs else n

/-- The loop of `rebase_ops`; `none` where `segment_and_offset` does not
return. -/
def rebaseLoop (segs : List OutputSegment) (c : Cursor) (locs : List ℕ) : Option (List Op) :=
  match locs with
  | [] => some []
  | addr::rest => do
    let (ops, segStart, segEnd) ← moveTo segs c addr
    let n := runLength addr segEnd 1 rest
    let more ← rebaseLoop segs ⟨segStart, segEnd, addr+n*8⟩ (rest.drop (n-1))
    some (ops ++ .rebase n::more)
termination_by locs.length
decreasing_by
  simp only [List.length_drop, List.length_cons]
  omega

def rebaseOps (segs : List OutputSegment) (locs : List ℕ) : Option (List Op) :=
  rebaseLoop segs {} locs

/-- The bytes `construct` pushes for an opcode. -/
def encodeOp : Op → List UInt8
  | .segOffset seg off => (0x20 ||| seg.toUInt8) :: encodeUleb off
  | .addAddr delta =>
    if delta ≤ 15*8 ∧ delta % 8 = 0 then [0x40 ||| (delta/8).toUInt8]
    else 0x30 :: encodeUleb delta
  | .rebase count =>
    if count ≤ 15 then [0x50 ||| count.toUInt8]
    else 0x60 :: encodeUleb count

/-- `construct`, of the locations `rebase_locations` lists. `neverSlid`
is `is_never_slid`: such an image records no rebases. -/
def construct (neverSlid : Bool) (segs : List OutputSegment) (locs : List ℕ) :
    Option (List UInt8) :=
  if neverSlid then some []
  else if locs = [] then some []
  else do
    let ops ← rebaseOps segs (locs.mergeSort (fun a b => decide (a ≤ b)))
    let buf := (0x10 ||| 1) :: ops.flatMap encodeOp ++ [0]
    some (buf ++ padding buf.length)

/-! The machine. -/

inductive Instr where
  | setType (type : ℕ)
  | op (o : Op)

structure Machine where
  type : ℕ := 0
  segment : Option ℕ := none
  offset : ℕ := 0
  rebased : List ℕ := []
  deriving DecidableEq

/-- Slides the pointer at the current place and moves past it. dyld
refuses one that ends beyond the segment last set. -/
def rebaseOne (segs : List OutputSegment) (m : Machine) : Option Machine := do
  let seg ← segs[← m.segment]?
  if m.type = 1 ∧ m.offset+8 ≤ seg.vmsize then
    some { m with offset := m.offset+8, rebased := m.rebased ++ [seg.vmaddr+m.offset] }
  else none

def rebaseTimes (segs : List OutputSegment) : ℕ → Machine → Option Machine
  | 0, m => some m
  | n+1, m => (rebaseOne segs m).bind (rebaseTimes segs n)

def step (segs : List OutputSegment) : Instr → Machine → Option Machine
  | .setType type, m => some { m with type := type }
  | .op (.segOffset seg off), m => some { m with segment := some seg, offset := off }
  | .op (.addAddr delta), m => some { m with offset := (m.offset+delta) % 2^64 }
  | .op (.rebase n), m => rebaseTimes segs n m

/-- The instruction of opcode `op` with operand `imm` in its byte. -/
def fetchOperand (imm : ℕ) (rest : List UInt8) :
    ℕ → Option (Fetched Instr × List UInt8)
  | 0 => some (.stop, rest)
  | 1 => some (.op (.setType imm), rest)
  | 2 => (fetchUleb rest).map fun (off, rest) => (.op (.op (.segOffset imm off)), rest)
  | 3 => (fetchUleb rest).map fun (delta, rest) => (.op (.op (.addAddr delta)), rest)
  | 4 => some (.op (.op (.addAddr (imm*8))), rest)
  | 5 => some (.op (.op (.rebase imm)), rest)
  | 6 => (fetchUleb rest).map fun (n, rest) => (.op (.op (.rebase n)), rest)
  | _ => none

def fetch : List UInt8 → Option (Fetched Instr × List UInt8)
  | [] => none
  | b::rest => fetchOperand (b.toNat % 16) rest (b.toNat / 16)

def encodeInstr : Instr → List UInt8
  | .setType type => [0x10 ||| type.toUInt8]
  | .op o => encodeOp o

def Valid : Instr → Prop
  | .setType type => type < 16
  | .op (.segOffset seg off) => seg < 16 ∧ off < 2^64
  | .op (.addAddr delta) => delta < 2^64
  | .op (.rebase count) => count < 2^64

theorem fetch_immediate (op imm : ℕ) (ho : op < 16) (hi : imm < 16) (rest : List UInt8) :
    fetch (((16*op).toUInt8 ||| imm.toUInt8) :: rest) = fetchOperand imm rest op := by
  obtain ⟨hd, hm⟩ := immediate_split op imm ho hi
  rw [fetch, hd, hm]

theorem fetch_instr (i : Instr) (hv : Valid i) (rest : List UInt8) :
    fetch (encodeInstr i ++ rest) = some (.op i, rest) := by
  cases i with
  | setType type => exact fetch_immediate 1 type (by decide) hv rest
  | op o =>
    cases o with
    | segOffset seg off =>
      refine (fetch_immediate 2 seg (by decide) hv.1 (encodeUleb off ++ rest)).trans ?_
      simp [fetchOperand, fetch_uleb off hv.2]
    | addAddr delta =>
      simp only [encodeInstr, encodeOp]
      split
      case isTrue h =>
        refine (fetch_immediate 4 (delta/8) (by decide) (by omega) rest).trans ?_
        simp only [fetchOperand, Nat.div_mul_cancel (Nat.dvd_of_mod_eq_zero h.2)]
      case isFalse => simp [fetch, fetchOperand, fetch_uleb delta hv]
    | rebase n =>
      simp only [encodeInstr, encodeOp]
      split
      case isTrue h => exact fetch_immediate 5 n (by decide) (by omega) rest
      case isFalse => simp [fetch, fetchOperand, fetch_uleb n hv]

theorem encode_instr_ne_nil (i : Instr) : encodeInstr i ≠ [] := by
  rcases i with t | ⟨seg, off⟩ | delta | n
  · simp [encodeInstr]
  · simp [encodeInstr, encodeOp]
  · simp only [encodeInstr, encodeOp]; split <;> simp
  · simp only [encodeInstr, encodeOp]; split <;> simp

def codec : Codec Instr where
  encode := encodeInstr
  fetch := fetch
  stop := 0
  Valid := Valid
  encode_ne_nil := encode_instr_ne_nil
  fetch_encode := fetch_instr
  fetch_stop _ := rfl

/-! The simulation. -/

/-- The machine is in segment `seg`, at address `addr`. -/
structure At (L : Layout) (m : Machine) (seg : OutputSegment) (addr : ℕ) : Prop where
  type : m.type = 1
  segment : ∃ i, m.segment = some i ∧ L.segs[i]? = some seg
  named : seg.name ≠ pagezero
  above : seg.vmaddr ≤ addr
  below : addr ≤ seg.vmaddr+seg.vmsize
  offset : m.offset = addr-seg.vmaddr

/-- The encoder's cursor is where the machine is, or no segment is set. -/
def Tracks (L : Layout) (c : Cursor) (m : Machine) : Prop :=
  m.type = 1 ∧ (c.segEnd = 0 ∨ ∃ seg, At L m seg c.curAddr ∧ c.segStart = seg.vmaddr ∧
    c.segEnd = seg.vmaddr+seg.vmsize)

/-- The opcode chosen for the next address brings the machine there. -/
theorem move_to (L : Layout) (h16 : L.segs.length ≤ 16) (c : Cursor) (m : Machine) (addr : ℕ)
    (ht : Tracks L c m) (hs : L.Slot addr) :
    ∃ ops seg m', moveTo L.segs c addr = some (ops, seg.vmaddr, seg.vmaddr+seg.vmsize) ∧
      execOps (step L.segs) (ops.map .op) m = some m' ∧ At L m' seg addr ∧
      addr+8 ≤ seg.vmaddr+seg.vmsize ∧ m'.rebased = m.rebased ∧
      ∀ o ∈ ops, Valid (.op o) := by
  obtain ⟨i, seg, hf, hi, hc, hend⟩ := L.slot_segment hs
  have hlen : i < L.segs.length := (List.getElem?_eq_some_iff.mp hi).1
  have hends := L.ends seg (List.mem_of_getElem? hi)
  by_cases hout : addr < c.segStart ∨ c.segEnd ≤ addr
  · refine ⟨[.segOffset i (addr-seg.vmaddr)], seg,
      { m with segment := some i, offset := addr-seg.vmaddr }, ?_, rfl,
      ⟨ht.1, ⟨i, rfl, hi⟩, hc.2.2, hc.1, by omega, rfl⟩, hend, rfl, ?_⟩
    · simp [moveTo, hout, hf, hi, Nat.sub_sub_self hc.1]
    · simp only [List.mem_singleton, forall_eq, Valid]
      omega
  · obtain ⟨s, hat, hstart, hsend⟩ := ht.2.resolve_left (by omega)
    obtain ⟨j, hj, hsj⟩ := hat.segment
    have hcs : s.Contains addr := ⟨by omega, by omega, hat.named⟩
    obtain rfl : j = i := L.unique hsj hi hcs hc
    obtain rfl : s = seg := Option.some.inj (hsj.symm.trans hi)
    by_cases hcur : addr = c.curAddr
    · refine ⟨[], s, m, ?_, rfl, ⟨ht.1, ⟨j, hj, hi⟩, hc.2.2, hc.1, by omega, ?_⟩, hend, rfl,
        by simp⟩
      · rw [moveTo, if_neg hout, if_neg (not_not.mpr hcur), hstart, hsend]
      · rw [hat.offset, hcur]
    · refine ⟨[.addAddr (wrappingSub addr c.curAddr)], s,
        { m with offset := addr-s.vmaddr }, ?_, ?_,
        ⟨ht.1, ⟨j, hj, hi⟩, hc.2.2, hc.1, by omega, rfl⟩, hend, rfl, ?_⟩
      · rw [moveTo, if_neg hout, if_pos hcur, hstart, hsend]
      · have habove := hat.above
        have hbelow := hat.below
        simp only [List.map_cons, List.map_nil, execOps, step, hat.offset]
        rw [wrapping_move s.vmaddr c.curAddr addr habove hc.1 (by omega) (by omega)]
        rfl
      · simp only [List.mem_singleton, forall_eq, Valid]
        exact wrapping_sub_lt _ _

theorem rebase_times (L : Layout) (m : Machine) (seg : OutputSegment) (addr n : ℕ)
    (ha : At L m seg addr) (hn : addr+n*8 ≤ seg.vmaddr+seg.vmsize) :
    ∃ m', rebaseTimes L.segs n m = some m' ∧ At L m' seg (addr+n*8) ∧
      m'.rebased = m.rebased ++ (List.range n).map fun k => addr+k*8 := by
  induction n generalizing m addr with
  | zero => exact ⟨m, rfl, by simpa using ha, by simp⟩
  | succ n ih =>
    obtain ⟨i, hi, hseg⟩ := ha.segment
    have habove := ha.above
    have hoff := ha.offset
    obtain ⟨m₁, hm₁⟩ : ∃ m₁, m₁ = ({ m with offset := m.offset+8, rebased := m.rebased ++ [addr] } : Machine) :=
      ⟨_, rfl⟩
    have hone : rebaseOne L.segs m = some m₁ := by
      have hin : m.offset+8 ≤ seg.vmsize := by omega
      have hat : seg.vmaddr+m.offset = addr := by omega
      simp [rebaseOne, hi, hseg, ha.type, hin, hat, hm₁]
    have ha₁ : At L m₁ seg (addr+8) := by
      subst hm₁
      exact ⟨ha.type, ⟨i, hi, hseg⟩, ha.named, by omega, by omega, by simp only [hoff]; omega⟩
    obtain ⟨m', hrun, hat', hreb⟩ := ih m₁ (addr+8) ha₁ (by omega)
    refine ⟨m', by rw [rebaseTimes, hone]; exact hrun,
      by simpa [Nat.add_mul, Nat.add_assoc, Nat.add_comm 8] using hat', ?_⟩
    rw [hreb, hm₁, List.range_succ_eq_map]
    simp only [List.append_assoc, List.singleton_append, List.map_cons, List.map_map, Nat.zero_mul,
      Nat.add_zero]
    congr 2
    apply List.map_congr_left
    intro k _
    simp only [Function.comp_apply]
    omega

/-- A run takes the adjacent pointers in front of the list that start
before the segment's end. -/
theorem run_length (addr segEnd n : ℕ) (locs : List ℕ) :
    ∃ k, runLength addr segEnd n locs = n+k ∧
      locs = (List.range k).map (fun j => addr+(n+j)*8) ++ locs.drop k ∧
      ∀ j < k, addr+(n+j)*8 < segEnd := by
  induction locs generalizing n with
  | nil => exact ⟨0, rfl, by simp, by simp⟩
  | cons loc locs ih =>
    rw [runLength]
    split
    case isTrue h =>
      obtain ⟨k, hk, htake, hlt⟩ := ih (n+1)
      refine ⟨k+1, by omega, ?_, ?_⟩
      · rw [List.range_succ_eq_map, List.drop_succ_cons, List.map_cons, List.map_map,
          List.cons_append, Nat.add_zero, ← h.1]
        congr 1
        refine htake.trans ?_
        congr 1
        apply List.map_congr_left
        intro j _
        simp only [Function.comp_apply]
        congr 2
        omega
      · intro j hj
        cases j with
        | zero => rw [Nat.add_zero, ← h.1]; exact h.2
        | succ j =>
          have := hlt j (by omega)
          rwa [show n+(j+1) = n+1+j by omega]
    case isFalse => exact ⟨0, rfl, by simp, by simp⟩

/-- Executing the opcodes from a state the cursor tracks rebases the
locations in their order. -/
theorem rebase_loop (L : Layout) (h16 : L.segs.length ≤ 16) (c : Cursor) (m : Machine)
    (locs : List ℕ) (ht : Tracks L c m) (hs : ∀ loc ∈ locs, L.Slot loc) :
    ∃ ops m', rebaseLoop L.segs c locs = some ops ∧ (∀ o ∈ ops, Valid (.op o)) ∧
      execOps (step L.segs) (ops.map .op) m = some m' ∧ m'.rebased = m.rebased ++ locs := by
  obtain ⟨len, hlen⟩ : ∃ len, len = locs.length := ⟨_, rfl⟩
  induction len using Nat.strongRecOn generalizing c m locs with
  | ind len ih =>
    cases locs with
    | nil => exact ⟨[], m, by rw [rebaseLoop], by simp, rfl, by simp⟩
    | cons addr rest =>
      obtain ⟨ops, seg, m₁, hmove, hex, hat, hend, hreb, hval⟩ :=
        move_to L h16 c m addr ht (hs addr (by simp))
      obtain ⟨k, hk, hrest, hlt⟩ := run_length addr (seg.vmaddr+seg.vmsize) 1 rest
      obtain ⟨i, hi, hseg⟩ := hat.segment
      have habove := hat.above
      have hends := L.ends seg (List.mem_of_getElem? hseg)
      -- the last pointer of the run starts in the segment, so its slot ends there
      have hfit : addr+(1+k)*8 ≤ seg.vmaddr+seg.vmsize := by
        cases k with
        | zero => omega
        | succ k =>
          have hin := hlt k (by omega)
          have hmem : addr+(1+k)*8 ∈ rest := by
            rw [hrest]
            exact List.mem_append_left _ (List.mem_map.mpr ⟨k, by simp, rfl⟩)
          have := (L.slot_in (hs _ (List.mem_cons_of_mem _ hmem)) hseg
            ⟨by omega, hin, hat.named⟩).2
          omega
      obtain ⟨m₂, hrun, hat₂, hreb₂⟩ := rebase_times L m₁ seg addr (1+k) hat hfit
      obtain ⟨more, m', hloop, hval', hex', hreb'⟩ := ih (rest.drop k).length
        (by simp at hlen ⊢; omega) ⟨seg.vmaddr, seg.vmaddr+seg.vmsize, addr+(1+k)*8⟩ m₂
        (rest.drop k) ⟨hat₂.type, Or.inr ⟨seg, hat₂, rfl, rfl⟩⟩
        (fun loc h => hs loc (List.mem_cons_of_mem _ (List.mem_of_mem_drop h))) rfl
      refine ⟨ops ++ .rebase (1+k)::more, m', ?_, ?_, ?_, ?_⟩
      · rw [rebaseLoop, hmove]
        simp [hk, hloop]
      · intro o ho
        rcases List.mem_append.mp ho with ho | ho
        · exact hval o ho
        · rcases List.mem_cons.mp ho with rfl | ho
          · simp only [Valid]; omega
          · exact hval' o ho
      · rw [List.map_append, List.map_cons, execOps_append, hex]
        simp only [Option.bind_some, execOps, step, hrun]
        exact hex'
      · rw [hreb', hreb₂, hreb, List.append_assoc]
        congr 1
        conv_rhs => rw [hrest]
        rw [Nat.add_comm 1 k, List.range_succ_eq_map]
        simp only [List.map_cons, List.map_map, Nat.zero_mul, Nat.add_zero, List.cons_append]
        congr 2
        apply List.map_congr_left
        intro j _
        simp only [Function.comp_apply]
        congr 2
        omega

/-- The stream rebases exactly the listed pointers, each once and inside
the segment last set, and ends at its first stop opcode, after which
there is only padding. An image nothing slides has an empty stream. -/
theorem construct_rebases (L : Layout) (h16 : L.segs.length ≤ 16) (neverSlid : Bool)
    (locs : List ℕ) (hd : locs.Nodup) (hs : ∀ loc ∈ locs, L.Slot loc) :
    ∃ bytes m rest, construct neverSlid L.segs locs = some bytes ∧
      execute codec (step L.segs) bytes {} = some (m, rest) ∧
      m.rebased.Perm (if neverSlid then [] else locs) ∧ m.rebased.Nodup ∧
      (bytes ≠ [] → ∃ pad, rest = some pad ∧ ∀ b ∈ pad, b = 0) := by
  by_cases hnone : neverSlid = true ∨ locs = []
  · refine ⟨[], {}, none, ?_, rfl, ?_, List.nodup_nil, by simp⟩
    · rcases hnone with h | h <;> simp [construct, h]
    · rcases hnone with h | h <;> simp [h]
  · obtain ⟨hslid, hne⟩ := not_or.mp hnone
    obtain ⟨sorted, hsorted⟩ : ∃ sorted, sorted = locs.mergeSort (fun a b => decide (a ≤ b)) :=
      ⟨_, rfl⟩
    have hperm : sorted.Perm locs := hsorted ▸ List.mergeSort_perm locs _
    obtain ⟨ops, m, hops, hval, hex, hreb⟩ := rebase_loop L h16 {} { type := 1 } sorted
      ⟨rfl, Or.inl rfl⟩ (fun loc h => hs loc (hperm.mem_iff.mp h))
    let buf : List UInt8 := (0x10 ||| 1) :: ops.flatMap encodeOp ++ [0]
    have hprog := execute_program codec (step L.segs) (.setType 1::ops.map .op)
      (by simpa [codec, Valid] using hval) (padding buf.length) {}
    have hbytes : (Instr.setType 1::ops.map .op).flatMap codec.encode ++
        codec.stop::padding buf.length = buf ++ padding buf.length := by
      simp [buf, codec, encodeInstr, List.flatMap_map]
    refine ⟨buf ++ padding buf.length, m, some (padding buf.length), ?_, ?_, ?_, ?_,
      fun _ => ⟨_, rfl, fun b hb => List.eq_of_mem_replicate hb⟩⟩
    · simp only [construct, hslid, hne, if_false, rebaseOps, ← hsorted, hops]
      rfl
    · rw [← hbytes, hprog]
      simp [execOps, step, hex]
    · rw [hreb]
      simpa [hslid] using hperm
    · rw [hreb]
      simpa using hperm.nodup_iff.mpr hd

theorem construct_rebases_adjacent :
    ∃ bytes m rest, construct false adjacent.segs [0x2008, 0x1ff8, 0x2000] = some bytes ∧
      execute codec (step adjacent.segs) bytes {} = some (m, rest) ∧
      m.rebased.Perm [0x2008, 0x1ff8, 0x2000] ∧ m.rebased.Nodup ∧
      (bytes ≠ [] → ∃ pad, rest = some pad ∧ ∀ b ∈ pad, b = 0) :=
  construct_rebases adjacent (by decide) false _ (by decide) (by decide)

/-- A main executable that is neither PIE nor static: its stream is empty,
so the pointer at 0x2008 is not rebased. -/
theorem construct_never_slid : (∀ loc ∈ [0x2008], adjacent.Slot loc) ∧
    ¬ ∃ bytes m rest, construct true adjacent.segs [0x2008] = some bytes ∧
      execute codec (step adjacent.segs) bytes {} = some (m, rest) ∧
      m.rebased.Perm [0x2008] := by
  refine ⟨by decide, ?_⟩
  rintro ⟨bytes, m, rest, hc, he, hperm⟩
  obtain rfl : [] = bytes := Option.some.inj hc
  have hm : m = {} := congrArg Prod.fst (Option.some.inj he).symm
  simp [hm] at hperm

end MoldMacho.RebaseInfo
