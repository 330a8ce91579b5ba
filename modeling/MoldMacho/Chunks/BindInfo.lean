import Mathlib.Algebra.Group.Int.Defs
import MoldMacho.Chunks.Opcodes
import MoldMacho.Chunks.Segments

/-!
# The bind opcode stream

The stream tells dyld which symbol to write into each slot. Every piece
of the bind machine's state is set only when it changes, so what a bind
does depends on the ones before it. The encoder skips the move to a slot
that starts where the last one ended, also where that is the start of
another segment: dyld then refuses the bind, and with it the stream.
-/

set_option autoImplicit false

namespace MoldMacho.BindInfo
open MoldMacho.Segments MoldMacho.OpStream MoldMacho.Opcodes MoldMacho.Leb128

/-- A bind opcode before encoding. -/
inductive Op where
  | dylib (ord : ℤ)
  | symbol (name : List UInt8) (flags : ℕ)
  | type
  | segOffset (seg off : ℕ)
  | addAddr (delta : ℕ)
  | addend (addend : ℤ)
  | bind
  deriving DecidableEq, Repr

/-- What the stream needs of the symbols: their names, which are C
strings, the library each binds to, if the stream names one, and the
flags the name goes with. The special libraries have negative ordinals,
-3 the least. -/
structure Symbols where
  name : ℕ → List UInt8
  ordinal : ℕ → Option ℤ
  flags : ℕ → ℕ
  name_nul : ∀ id, 0 ∉ name id
  ordinal_ge : ∀ id ord, ordinal id = some ord → -3 ≤ ord
  ordinal_lt : ∀ id ord, ordinal id = some ord → ord < 2^31
  flags_lt : ∀ id, flags id < 16

structure Bind where
  addr : ℕ
  id : ℕ
  addend : ℤ
  deriving DecidableEq, Repr

/-- The encoder's picture of the bind machine. -/
structure Cursor where
  ordinal : Option ℤ := none
  symbol : Option (ℕ × ℕ) := none
  seg : Option ℕ := none
  addr : ℕ := 0
  addend : ℤ := 0

def ordinalOps (sy : Symbols) (c : Cursor) (id : ℕ) : List Op :=
  match sy.ordinal id with
  | some ord => if c.ordinal ≠ some ord then [.dylib ord] else []
  | none => []

def symbolOps (sy : Symbols) (c : Cursor) (id : ℕ) : List Op :=
  if c.symbol ≠ some (id, sy.flags id) then
    .symbol (sy.name id) (sy.flags id) :: if c.symbol = none then [.type] else []
  else []

/-- The move to `addr` and the segment set after it. -/
def placeOps (segs : List OutputSegment) (c : Cursor) (addr : ℕ) :
    Option (List Op × Option ℕ) :=
  if c.seg = none ∨ addr ≠ c.addr then do
    let (seg, off) ← segmentAndOffset segs addr
    if c.seg = some seg then some ([.addAddr (wrappingSub addr c.addr)], c.seg)
    else some ([.segOffset seg off], some seg)
  else some ([], c.seg)

def addendOps (c : Cursor) (addend : ℤ) : List Op :=
  if addend ≠ c.addend then [.addend addend] else []

/-- The body of the loop of `bind_ops`. -/
def bindStep (segs : List OutputSegment) (sy : Symbols) (c : Cursor) (b : Bind) :
    Option (List Op × Cursor) := do
  let (place, seg) ← placeOps segs c b.addr
  some (ordinalOps sy c b.id ++ symbolOps sy c b.id ++ place ++ addendOps c b.addend ++ [.bind],
    { ordinal := (sy.ordinal b.id).or c.ordinal
      symbol := some (b.id, sy.flags b.id)
      seg := seg
      addr := b.addr+8
      addend := b.addend })

def bindLoop (segs : List OutputSegment) (sy : Symbols) : Cursor → List Bind → Option (List Op)
  | _, [] => some []
  | c, b::bs => do
    let (ops, c) ← bindStep segs sy c b
    some (ops ++ (← bindLoop segs sy c bs))

/-- `bind_ops`; `none` where `segment_and_offset` does not return. -/
def bindOps (segs : List OutputSegment) (sy : Symbols) (binds : List Bind) : Option (List Op) :=
  bindLoop segs sy {} binds

/-- `encode_op`. -/
def encodeOp : Op → List UInt8
  | .dylib ord =>
    if ord ≤ 0 then [0x30 ||| (ord % 16).toNat.toUInt8]
    else if ord < 16 then [0x10 ||| ord.toNat.toUInt8]
    else 0x20 :: encodeUleb ord.toNat
  | .symbol name flags => (0x40 ||| flags.toUInt8) :: (name ++ [0])
  | .type => [0x50 ||| 1]
  | .segOffset seg off => (0x70 ||| seg.toUInt8) :: encodeUleb off
  | .addAddr delta => 0x80 :: encodeUleb delta
  | .addend addend => 0x60 :: encodeSleb addend
  | .bind => [0x90]

/-- `encode`: the opcodes, the end of the stream and zeros up to a
multiple of eight bytes. -/
def encode (ops : List Op) : List UInt8 :=
  let buf := ops.flatMap encodeOp ++ [0]
  buf ++ padding buf.length

/-! The machine. -/

/-- A bind dyld performs: where, to which library's symbol of which name,
with which flags and addend. -/
structure Bound where
  addr : ℕ
  ordinal : Option ℤ
  name : List UInt8
  flags : ℕ
  addend : ℤ
  deriving DecidableEq

structure Machine where
  ordinal : Option ℤ := none
  symbol : Option (List UInt8 × ℕ) := none
  pointer : Bool := false
  segment : Option ℕ := none
  offset : ℕ := 0
  addend : ℤ := 0
  bound : List Bound := []
  deriving DecidableEq

/-- Binds the pointer at the current place and moves past it. dyld
refuses one with no symbol or type, and one that ends beyond the segment
last set. -/
def doBind (segs : List OutputSegment) (m : Machine) : Option Machine := do
  let seg ← segs[← m.segment]?
  let (name, flags) ← m.symbol
  if m.pointer ∧ m.offset+8 ≤ seg.vmsize then
    some { m with
      offset := m.offset+8
      bound := m.bound ++ [⟨seg.vmaddr+m.offset, m.ordinal, name, flags, m.addend⟩] }
  else none

def step (segs : List OutputSegment) : Op → Machine → Option Machine
  | .dylib ord, m => some { m with ordinal := some ord }
  | .symbol name flags, m => some { m with symbol := some (name, flags) }
  | .type, m => some { m with pointer := true }
  | .segOffset seg off, m => some { m with segment := some seg, offset := off }
  | .addAddr delta, m => some { m with offset := (m.offset+delta) % 2^64 }
  | .addend addend, m => some { m with addend := addend }
  | .bind, m => doBind segs m

/-- The C string at the front of the bytes. -/
def fetchName : List UInt8 → Option (List UInt8 × List UInt8)
  | [] => none
  | b::rest =>
    if b = 0 then some ([], rest)
    else (fetchName rest).map fun (name, rest) => (b::name, rest)

/-- The instruction of opcode `op` with operand `imm` in its byte. A
special library's ordinal is zero or has the sign bits left out. -/
def fetchOperand (imm : ℕ) (rest : List UInt8) : ℕ → Option (Fetched Op × List UInt8)
  | 0 => some (.stop, rest)
  | 1 => some (.op (.dylib imm), rest)
  | 2 => (fetchUleb rest).map fun (ord, rest) => (.op (.dylib ord), rest)
  | 3 => some (.op (.dylib (if imm = 0 then 0 else imm-16)), rest)
  | 4 => (fetchName rest).map fun (name, rest) => (.op (.symbol name imm), rest)
  | 5 => if imm = 1 then some (.op .type, rest) else none
  | 6 => (decodeSleb rest).map fun (addend, rest) => (.op (.addend addend), rest)
  | 7 => (fetchUleb rest).map fun (off, rest) => (.op (.segOffset imm off), rest)
  | 8 => (fetchUleb rest).map fun (delta, rest) => (.op (.addAddr delta), rest)
  | 9 => some (.op .bind, rest)
  | _ => none

def fetch : List UInt8 → Option (Fetched Op × List UInt8)
  | [] => none
  | b::rest => fetchOperand (b.toNat % 16) rest (b.toNat / 16)

def Valid : Op → Prop
  | .dylib ord => -16 < ord ∧ ord < 2^31
  | .symbol name flags => 0 ∉ name ∧ flags < 16
  | .segOffset seg off => seg < 16 ∧ off < 2^64
  | .addAddr delta => delta < 2^64
  | _ => True

theorem fetch_name (name : List UInt8) (h : 0 ∉ name) (rest : List UInt8) :
    fetchName (name ++ 0::rest) = some (name, rest) := by
  induction name with
  | nil => simp [fetchName]
  | cons b name ih =>
    have hb : b ≠ 0 := fun hb => h (by simp [hb])
    rw [List.cons_append, fetchName, if_neg hb, ih (fun hm => h (by simp [hm]))]
    rfl

theorem fetch_immediate (op imm : ℕ) (ho : op < 16) (hi : imm < 16) (rest : List UInt8) :
    fetch (((16*op).toUInt8 ||| imm.toUInt8) :: rest) = fetchOperand imm rest op := by
  obtain ⟨hd, hm⟩ := immediate_split op imm ho hi
  rw [fetch, hd, hm]

theorem fetch_dylib (ord : ℤ) (hlo : -16 < ord) (hhi : ord < 2^31) (rest : List UInt8) :
    fetch (encodeOp (.dylib ord) ++ rest) = some (.op (.dylib ord), rest) := by
  rw [encodeOp]
  split
  case isTrue h =>
    refine (fetch_immediate 3 (ord % 16).toNat (by decide) (by omega) rest).trans ?_
    have : (if (ord % 16).toNat = 0 then 0 else ((ord % 16).toNat : ℤ)-16) = ord := by
      split <;> omega
    rw [fetchOperand, this]
  case isFalse h =>
    split
    case isTrue h16 =>
      refine (fetch_immediate 1 ord.toNat (by decide) (by omega) rest).trans ?_
      rw [fetchOperand, Int.toNat_of_nonneg (by omega)]
    case isFalse h16 =>
      have hu := fetch_uleb ord.toNat (by omega) rest
      have ho : (ord.toNat : ℤ) = ord := Int.toNat_of_nonneg (by omega)
      simp [fetch, fetchOperand, hu, ho]

theorem fetch_op (o : Op) (hv : Valid o) (rest : List UInt8) :
    fetch (encodeOp o ++ rest) = some (.op o, rest) := by
  cases o with
  | dylib ord => exact fetch_dylib ord hv.1 hv.2 rest
  | symbol name flags =>
    refine (fetch_immediate 4 flags (by decide) hv.2 (name ++ [0] ++ rest)).trans ?_
    rw [fetchOperand, List.append_assoc, List.singleton_append, fetch_name name hv.1]
    rfl
  | type => rfl
  | segOffset seg off =>
    refine (fetch_immediate 7 seg (by decide) hv.1 (encodeUleb off ++ rest)).trans ?_
    simp [fetchOperand, fetch_uleb off hv.2]
  | addAddr delta => simp [encodeOp, fetch, fetchOperand, fetch_uleb delta hv]
  | addend addend => simp [encodeOp, fetch, fetchOperand, decode_encode_sleb]
  | bind => rfl

theorem encode_op_ne_nil (o : Op) : encodeOp o ≠ [] := by
  cases o with
  | dylib ord => rw [encodeOp]; split_ifs <;> simp
  | symbol => simp [encodeOp]
  | type => simp [encodeOp]
  | segOffset => simp [encodeOp]
  | addAddr => simp [encodeOp]
  | addend => simp [encodeOp]
  | bind => simp [encodeOp]

def codec : Codec Op where
  encode := encodeOp
  fetch := fetch
  stop := 0
  Valid := Valid
  encode_ne_nil := encode_op_ne_nil
  fetch_encode := fetch_op
  fetch_stop _ := rfl

/-! The simulation. -/

/-- The machine did what the bind asks for. A stream that names no
libraries leaves the ordinal open. -/
structure Performs (sy : Symbols) (b : Bind) (e : Bound) : Prop where
  addr : e.addr = b.addr
  ordinal : ∀ ord, sy.ordinal b.id = some ord → e.ordinal = some ord
  name : e.name = sy.name b.id
  flags : e.flags = sy.flags b.id
  addend : e.addend = b.addend

/-- The encoder's picture is right. The place may be the end of the
segment last set. -/
structure Tracks (L : Layout) (sy : Symbols) (c : Cursor) (m : Machine) : Prop where
  ordinal : ∀ ord, c.ordinal = some ord → m.ordinal = some ord
  symbol : ∀ id flags, c.symbol = some (id, flags) →
    m.symbol = some (sy.name id, flags) ∧ m.pointer = true
  addend : m.addend = c.addend
  place : ∀ i, c.seg = some i → ∃ seg, m.segment = some i ∧ L.segs[i]? = some seg ∧
    seg.name ≠ pagezero ∧ seg.vmaddr ≤ c.addr ∧ c.addr ≤ seg.vmaddr+seg.vmsize ∧
    m.offset = c.addr-seg.vmaddr

theorem ordinal_ops (segs : List OutputSegment) (sy : Symbols) (c : Cursor) (m : Machine) (id : ℕ)
    (h : ∀ ord, c.ordinal = some ord → m.ordinal = some ord) :
    ∃ ord, execOps (step segs) (ordinalOps sy c id) m = some { m with ordinal := ord } ∧
      ∀ o, (sy.ordinal id).or c.ordinal = some o → ord = some o := by
  unfold ordinalOps
  cases hid : sy.ordinal id with
  | none => exact ⟨m.ordinal, rfl, by simpa using h⟩
  | some o =>
    by_cases ho : c.ordinal = some o
    · exact ⟨m.ordinal, by simp [ho, execOps], by simp [h o ho]⟩
    · exact ⟨some o, by simp [ho, execOps, step], by simp⟩

theorem symbol_ops (segs : List OutputSegment) (sy : Symbols) (c : Cursor) (m : Machine) (id : ℕ)
    (h : ∀ id flags, c.symbol = some (id, flags) →
      m.symbol = some (sy.name id, flags) ∧ m.pointer = true) :
    execOps (step segs) (symbolOps sy c id) m =
      some { m with symbol := some (sy.name id, sy.flags id), pointer := true } := by
  unfold symbolOps
  by_cases hsame : c.symbol = some (id, sy.flags id)
  · obtain ⟨hs, hp⟩ := h id _ hsame
    simp [hsame, execOps, ← hs, ← hp]
  · rw [if_pos hsame]
    cases hc : c.symbol with
    | none => simp [execOps, step]
    | some p => simp [execOps, step, ← (h p.1 p.2 hc).2]

theorem addend_ops (segs : List OutputSegment) (c : Cursor) (m : Machine) (addend : ℤ)
    (h : m.addend = c.addend) :
    execOps (step segs) (addendOps c addend) m = some { m with addend := addend } := by
  unfold addendOps
  by_cases ha : addend = c.addend
  · simp [ha, execOps, ← h]
  · simp [ha, execOps, step]

/-- The segment of a bind's address. -/
def segmentOf (segs : List OutputSegment) (addr : ℕ) : Option ℕ :=
  (segmentAndOffset segs addr).map Prod.fst

/-- The next slot does not start, in another segment, where the place is. -/
def Seamless (segs : List OutputSegment) (c : Cursor) (addr : ℕ) : Prop :=
  c.addr = addr → c.seg = none ∨ c.seg = segmentOf segs addr

theorem place_ops (L : Layout) (c : Cursor) (m : Machine) (addr i : ℕ) (seg : OutputSegment)
    (hp : ∀ i, c.seg = some i → ∃ seg, m.segment = some i ∧ L.segs[i]? = some seg ∧
      seg.name ≠ pagezero ∧ seg.vmaddr ≤ c.addr ∧ c.addr ≤ seg.vmaddr+seg.vmsize ∧
      m.offset = c.addr-seg.vmaddr)
    (hf : segmentAndOffset L.segs addr = some (i, addr-seg.vmaddr)) (hi : L.segs[i]? = some seg)
    (hc : seg.Contains addr) (hseam : Seamless L.segs c addr) :
    ∃ ops, placeOps L.segs c addr = some (ops, some i) ∧
      execOps (step L.segs) ops m =
        some { m with segment := some i, offset := addr-seg.vmaddr } := by
  have hends := L.ends seg (List.mem_of_getElem? hi)
  have hin := hc.2.1
  by_cases hmove : c.seg = none ∨ addr ≠ c.addr
  · by_cases hsame : c.seg = some i
    · obtain ⟨s, hm, hs, -, habove, hbelow, hoff⟩ := hp i hsame
      obtain rfl : s = seg := Option.some.inj (hs.symm.trans hi)
      refine ⟨[.addAddr (wrappingSub addr c.addr)], ?_, ?_⟩
      · rw [placeOps, if_pos hmove, hf]
        simp [hsame]
      · simp only [execOps, step, Option.bind_some, hoff]
        rw [wrapping_move s.vmaddr c.addr addr habove hc.1 (by omega) (by omega), ← hm]
    · refine ⟨[.segOffset i (addr-seg.vmaddr)], ?_, rfl⟩
      rw [placeOps, if_pos hmove, hf]
      simp [hsame]
  · obtain ⟨hset, haddr⟩ := not_or.mp hmove
    have haddr := not_not.mp haddr
    have hsame : c.seg = some i := by
      have h := (hseam haddr.symm).resolve_left hset
      rwa [segmentOf, hf] at h
    obtain ⟨s, hm, hs, -, -, -, hoff⟩ := hp i hsame
    obtain rfl : s = seg := Option.some.inj (hs.symm.trans hi)
    refine ⟨[], by rw [placeOps, if_neg hmove, hsame], ?_⟩
    rw [execOps, haddr, ← hoff, ← hm]

theorem do_bind (segs : List OutputSegment) (m : Machine) (seg : OutputSegment) (i : ℕ)
    (name : List UInt8) (flags : ℕ) (hm : m.segment = some i) (hi : segs[i]? = some seg)
    (hs : m.symbol = some (name, flags)) (hp : m.pointer = true)
    (hin : m.offset+8 ≤ seg.vmsize) :
    doBind segs m = some { m with
      offset := m.offset+8
      bound := m.bound ++ [⟨seg.vmaddr+m.offset, m.ordinal, name, flags, m.addend⟩] } := by
  simp [doBind, hm, hi, hs, hp, hin]

/-- One bind away from a seam: the opcodes perform it and leave the
encoder's picture right. -/
theorem bind_step (L : Layout) (sy : Symbols) (c : Cursor) (m : Machine) (b : Bind)
    (ht : Tracks L sy c m) (hs : L.Slot b.addr) (hseam : Seamless L.segs c b.addr) :
    ∃ ops c' m' e, bindStep L.segs sy c b = some (ops, c') ∧
      execOps (step L.segs) ops m = some m' ∧ Tracks L sy c' m' ∧
      m'.bound = m.bound ++ [e] ∧ Performs sy b e ∧ c'.addr = b.addr+8 ∧
      c'.seg = segmentOf L.segs b.addr := by
  obtain ⟨i, seg, hf, hi, hc, hend⟩ := L.slot_segment hs
  obtain ⟨ord, hord, hordEq⟩ := ordinal_ops L.segs sy c m b.id ht.ordinal
  let m₁ : Machine := { m with ordinal := ord }
  have hsym := symbol_ops L.segs sy c m₁ b.id ht.symbol
  let m₂ : Machine := { m₁ with symbol := some (sy.name b.id, sy.flags b.id), pointer := true }
  obtain ⟨ops, hops, hplace⟩ := place_ops L c m₂ b.addr i seg ht.place hf hi hc hseam
  let m₃ : Machine := { m₂ with segment := some i, offset := b.addr-seg.vmaddr }
  have hadd := addend_ops L.segs c m₃ b.addend ht.addend
  let m₄ : Machine := { m₃ with addend := b.addend }
  have habove := hc.1
  have hin : m₄.offset+8 ≤ seg.vmsize := by simp only [m₄, m₃]; omega
  have hdo := do_bind L.segs m₄ seg i (sy.name b.id) (sy.flags b.id) rfl hi rfl rfl hin
  let e : Bound := ⟨b.addr, ord, sy.name b.id, sy.flags b.id, b.addend⟩
  have he : seg.vmaddr+m₄.offset = b.addr := by simp only [m₄, m₃]; omega
  let c' : Cursor := ⟨(sy.ordinal b.id).or c.ordinal, some (b.id, sy.flags b.id), some i,
    b.addr+8, b.addend⟩
  refine ⟨ordinalOps sy c b.id ++ symbolOps sy c b.id ++ ops ++ addendOps c b.addend ++ [.bind], c',
    { m₄ with offset := m₄.offset+8, bound := m₄.bound ++ [e] }, e,
    ?_, ?_, ?_, rfl, ?_, rfl, by simp only [segmentOf, hf]; rfl⟩
  · rw [bindStep, hops]
    rfl
  · simp only [execOps_append, hord, Option.bind_some, hsym, m₁, hplace, m₂, hadd, m₃, execOps,
      step, hdo, m₄]
    simp only [m₄, m₃] at he
    rw [he]
  · refine ⟨fun o h => hordEq o h, ?_, rfl, ?_⟩
    · intro id flags h
      obtain ⟨rfl, rfl⟩ := Prod.mk.inj (Option.some.inj h)
      exact ⟨rfl, rfl⟩
    · intro j hj
      obtain rfl := Option.some.inj hj
      refine ⟨seg, rfl, hi, hc.2.2, by simp only [c']; omega, hend, ?_⟩
      simp only [c', m₄, m₃]
      omega
  · exact ⟨rfl, fun o h => hordEq o (by simp [h]), rfl, rfl, rfl⟩

/-- At a seam the place stays where it is, past the end of the segment
last set, and dyld refuses the bind. -/
theorem bind_seam (L : Layout) (sy : Symbols) (c : Cursor) (m : Machine) (b : Bind)
    (ht : Tracks L sy c m) (hs : L.Slot b.addr) (hseam : ¬ Seamless L.segs c b.addr) :
    ∃ ops c', bindStep L.segs sy c b = some (ops, c') ∧
      execOps (step L.segs) ops m = none := by
  obtain ⟨haddr, hseg⟩ := Classical.not_imp.mp hseam
  obtain ⟨hset, hother⟩ := not_or.mp hseg
  obtain ⟨j, hj⟩ := Option.ne_none_iff_exists'.mp hset
  obtain ⟨seg, hm, hi, hnamed, habove, hbelow, hoff⟩ := ht.place j hj
  have hplace : placeOps L.segs c b.addr = some ([], c.seg) := by
    rw [placeOps, if_neg (not_or.mpr ⟨hset, not_not.mpr haddr.symm⟩)]
  -- the segment last set would otherwise hold the slot, and be its segment
  have hpast : ¬ (c.addr-seg.vmaddr+8 ≤ seg.vmsize) := by
    intro hin
    have hc : seg.Contains b.addr := ⟨by omega, by omega, hnamed⟩
    apply hother
    rw [segmentOf, (L.slot_in hs hi hc).1, hj]
    rfl
  obtain ⟨ord, hord, -⟩ := ordinal_ops L.segs sy c m b.id ht.ordinal
  let m₁ : Machine := { m with ordinal := ord }
  have hsym := symbol_ops L.segs sy c m₁ b.id ht.symbol
  let m₂ : Machine := { m₁ with symbol := some (sy.name b.id, sy.flags b.id), pointer := true }
  have hadd := addend_ops L.segs c m₂ b.addend ht.addend
  refine ⟨ordinalOps sy c b.id ++ symbolOps sy c b.id ++ [] ++ addendOps c b.addend ++ [.bind], _,
    by rw [bindStep, hplace]; rfl, ?_⟩
  let m₃ : Machine := { m₂ with addend := b.addend }
  have hdo : doBind L.segs m₃ = none := by
    simp only [doBind, m₃, m₂, m₁, hm, hoff, Option.bind_eq_bind, Option.bind_some, hi]
    simp [hpast]
  simp only [execOps_append, hord, Option.bind_some, hsym, m₁, m₂, hadd, execOps, step, hdo, m₃,
    Option.bind_none]

/-- No slot starts a segment where the slot before it ends another. -/
def SeamFree (segs : List OutputSegment) : List Bind → Prop
  | b::b'::bs => (b'.addr = b.addr+8 → segmentOf segs b.addr = segmentOf segs b'.addr) ∧
      SeamFree segs (b'::bs)
  | _ => True

theorem bind_loop_some (L : Layout) (h16 : L.segs.length ≤ 16) (sy : Symbols) (c : Cursor)
    (binds : List Bind) (hs : ∀ b ∈ binds, L.Slot b.addr) :
    ∃ ops, bindLoop L.segs sy c binds = some ops ∧ ∀ o ∈ ops, Valid o := by
  induction binds generalizing c with
  | nil => exact ⟨[], rfl, by simp⟩
  | cons b bs ih =>
    obtain ⟨i, seg, hf, hi, hc, hend⟩ := L.slot_segment (hs b (by simp))
    have hlen : i < L.segs.length := (List.getElem?_eq_some_iff.mp hi).1
    have hends := L.ends seg (List.mem_of_getElem? hi)
    have hplace : ∃ p, placeOps L.segs c b.addr = some p ∧ ∀ o ∈ p.1, Valid o := by
      rw [placeOps, hf]
      split
      case isTrue =>
        by_cases hsame : c.seg = some i
        · exact ⟨([.addAddr (wrappingSub b.addr c.addr)], c.seg), by simp [hsame],
            by simpa [Valid] using wrapping_sub_lt b.addr c.addr⟩
        · refine ⟨([.segOffset i (b.addr-seg.vmaddr)], some i), by simp [hsame], ?_⟩
          simp only [List.mem_singleton, forall_eq, Valid]
          omega
      case isFalse => exact ⟨_, rfl, by simp⟩
    obtain ⟨⟨place, s⟩, hplace, hval⟩ := hplace
    have hord : ∀ o ∈ ordinalOps sy c b.id, Valid o := by
      unfold ordinalOps
      cases hid : sy.ordinal b.id with
      | none => simp
      | some ord =>
        have hge := sy.ordinal_ge _ _ hid
        have hlt := sy.ordinal_lt _ _ hid
        simp only
        split <;> simp [Valid]
        omega
    have hsym : ∀ o ∈ symbolOps sy c b.id, Valid o := by
      have := sy.name_nul b.id
      have := sy.flags_lt b.id
      unfold symbolOps
      split_ifs <;> simp_all [Valid]
    have hadd : ∀ o ∈ addendOps c b.addend, Valid o := by
      unfold addendOps
      split <;> simp [Valid]
    obtain ⟨more, hmore, hval'⟩ := ih
      ⟨(sy.ordinal b.id).or c.ordinal, some (b.id, sy.flags b.id), s, b.addr+8, b.addend⟩
      (fun b' hb => hs b' (by simp [hb]))
    refine ⟨_, by rw [bindLoop, bindStep, hplace]; simp [hmore]; rfl, ?_⟩
    intro o ho
    simp only [List.mem_append, List.mem_cons] at ho
    have hbind : Valid .bind := trivial
    grind

/-- Away from seams the opcodes perform the binds in their order. -/
theorem bind_loop (L : Layout) (sy : Symbols) (c : Cursor) (m : Machine) (binds : List Bind)
    (ht : Tracks L sy c m) (hs : ∀ b ∈ binds, L.Slot b.addr)
    (hhead : ∀ b ∈ binds.head?, Seamless L.segs c b.addr) (hfree : SeamFree L.segs binds) :
    ∃ ops m' es, bindLoop L.segs sy c binds = some ops ∧
      execOps (step L.segs) ops m = some m' ∧ m'.bound = m.bound ++ es ∧
      List.Forall₂ (Performs sy) binds es := by
  induction binds generalizing c m with
  | nil => exact ⟨[], m, [], rfl, rfl, by simp, .nil⟩
  | cons b bs ih =>
    obtain ⟨ops, c', m', e, hstep, hex, ht', hbound, hperf, haddr, hseg⟩ :=
      bind_step L sy c m b ht (hs b (by simp)) (hhead b (by simp))
    have hhead' : ∀ b' ∈ bs.head?, Seamless L.segs c' b'.addr := by
      intro b' hb' hcur
      cases bs with
      | nil => simp at hb'
      | cons b₂ bs =>
        obtain rfl : b₂ = b' := by simpa using hb'
        exact Or.inr (hseg.trans (hfree.1 (hcur.symm.trans haddr)))
    have hfree' : SeamFree L.segs bs := by
      cases bs with
      | nil => trivial
      | cons => exact hfree.2
    obtain ⟨more, m'', es, hloop, hex', hbound', hperf'⟩ :=
      ih c' m' ht' (fun b' hb => hs b' (by simp [hb])) hhead' hfree'
    refine ⟨ops ++ more, m'', e::es, by simp [bindLoop, hstep, hloop], ?_, ?_, .cons hperf hperf'⟩
    · rw [execOps_append, hex]
      exact hex'
    · rw [hbound', hbound, List.append_assoc, List.singleton_append]

/-- One seam is enough for dyld to refuse the stream. -/
theorem bind_loop_seam (L : Layout) (sy : Symbols) (c : Cursor) (m : Machine) (binds : List Bind)
    (ops : List Op) (ht : Tracks L sy c m) (hs : ∀ b ∈ binds, L.Slot b.addr)
    (hseam : ¬ ((∀ b ∈ binds.head?, Seamless L.segs c b.addr) ∧ SeamFree L.segs binds))
    (hops : bindLoop L.segs sy c binds = some ops) :
    execOps (step L.segs) ops m = none := by
  induction binds generalizing c m ops with
  | nil => simp [SeamFree] at hseam
  | cons b bs ih =>
    by_cases hb : Seamless L.segs c b.addr
    · obtain ⟨now, c', m', e, hstep, hex, ht', -, -, haddr, hseg⟩ :=
        bind_step L sy c m b ht (hs b (by simp)) hb
      simp only [bindLoop, hstep, Option.bind_eq_bind, Option.bind_some] at hops
      obtain ⟨more, hmore, hcat⟩ := Option.bind_eq_some_iff.mp hops
      obtain rfl := Option.some.inj hcat
      rw [execOps_append, hex]
      refine ih c' m' more ht' (fun b' hb => hs b' (by simp [hb])) ?_ hmore
      rintro ⟨hhead, hfree⟩
      refine hseam ⟨by simpa using hb, ?_⟩
      cases bs with
      | nil => trivial
      | cons b₂ bs =>
        refine ⟨fun hcur => ?_, hfree⟩
        rcases hhead b₂ (by simp) (haddr.trans hcur.symm) with hnone | heq
        · obtain ⟨i, seg, hf, -⟩ := L.slot_segment (hs b (by simp))
          simp [hseg, segmentOf, hf] at hnone
        · exact hseg.symm.trans heq
    · obtain ⟨now, c', hstep, hex⟩ := bind_seam L sy c m b ht (hs b (by simp)) hb
      simp only [bindLoop, hstep, Option.bind_eq_bind, Option.bind_some] at hops
      obtain ⟨more, hmore, hcat⟩ := Option.bind_eq_some_iff.mp hops
      obtain rfl := Option.some.inj hcat
      rw [execOps_append, hex]
      rfl

/-- The stream performs exactly the listed binds, each inside the segment
last set. -/
def Performed (L : Layout) (sy : Symbols) (binds : List Bind) : Prop :=
  ∃ ops m rest, bindOps L.segs sy binds = some ops ∧
    execute codec (step L.segs) (encode ops) {} = some (m, rest) ∧
    List.Forall₂ (Performs sy) binds m.bound

theorem tracks_initial (L : Layout) (sy : Symbols) : Tracks L sy {} {} :=
  ⟨by simp, by simp, rfl, by simp⟩

/-- dyld performs the listed binds exactly when no slot starts a segment
where the slot listed before it ends another. -/
theorem bind_ops_performed_iff (L : Layout) (h16 : L.segs.length ≤ 16) (sy : Symbols)
    (binds : List Bind) (hs : ∀ b ∈ binds, L.Slot b.addr) :
    Performed L sy binds ↔ SeamFree L.segs binds := by
  obtain ⟨ops, hops, hval⟩ := bind_loop_some L h16 sy {} binds hs
  have hhead : ∀ b ∈ binds.head?, Seamless L.segs {} b.addr := fun b _ _ => Or.inl rfl
  have hprog := execute_program codec (step L.segs) ops hval
    (padding (ops.flatMap encodeOp ++ [0]).length) {}
  have hbytes : ops.flatMap codec.encode ++ codec.stop::padding (ops.flatMap encodeOp ++ [0]).length =
      encode ops := by simp [encode, codec]
  rw [hbytes] at hprog
  constructor
  · rintro ⟨ops', m, rest, hops', hex, -⟩
    obtain rfl : ops = ops' := Option.some.inj (hops.symm.trans hops')
    by_contra hfree
    have hnone := bind_loop_seam L sy {} {} binds ops (tracks_initial L sy) hs
      (fun h => hfree h.2) hops
    rw [hprog, hnone] at hex
    simp at hex
  · intro hfree
    obtain ⟨ops', m, es, hops', hex, hbound, hperf⟩ :=
      bind_loop L sy {} {} binds (tracks_initial L sy) hs hhead hfree
    obtain rfl : ops = ops' := Option.some.inj (hops.symm.trans hops')
    refine ⟨ops, m, _, hops, by rw [hprog, hex]; rfl, ?_⟩
    rw [hbound]
    simpa using hperf

/-- A symbol `_f` of the first library. -/
def oneSymbol : Symbols where
  name _ := [95, 102]
  ordinal _ := some 1
  flags _ := 0
  name_nul := by simp
  ordinal_ge _ _ h := by cases h; decide
  ordinal_lt _ _ h := by cases h; decide
  flags_lt _ := by decide

theorem bind_ops_performed_apart :
    Performed adjacent oneSymbol [⟨0x2008, 0, 0⟩, ⟨0x1ff8, 0, 0⟩, ⟨0x1ff0, 0, 4⟩] :=
  (bind_ops_performed_iff adjacent (by decide) oneSymbol _ (by decide)).mpr
    ⟨by decide, by decide, trivial⟩

/-- The last slot of one segment and the first of the next: the second
bind is at the end of the first segment, and refused. -/
theorem bind_ops_refused_at_seam :
    (∀ b ∈ [(⟨0x1ff8, 0, 0⟩ : Bind), ⟨0x2000, 0, 0⟩], adjacent.Slot b.addr) ∧
      ¬ Performed adjacent oneSymbol [⟨0x1ff8, 0, 0⟩, ⟨0x2000, 0, 0⟩] := by
  refine ⟨by decide, ?_⟩
  rintro ⟨ops, m, rest, hops, hex, -⟩
  have hrun : (bindOps adjacent.segs oneSymbol [⟨0x1ff8, 0, 0⟩, ⟨0x2000, 0, 0⟩]).bind
      (fun ops => execute codec (step adjacent.segs) (encode ops) {}) = none := by decide +kernel
  rw [hops, Option.bind_some, hex] at hrun
  simp at hrun

end MoldMacho.BindInfo
