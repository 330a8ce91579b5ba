import MoldMacho.Dwarf.Reader

/-!
# Reading with checked sums

The reader's operations as the code's checks of overflow have them: an operation
gives a value, finds that there is none, or overflows. The shift of a number's
groups is a signed word of 32 bits, so a number overflows it by its length alone.
-/

set_option autoImplicit false

namespace MoldMacho.Dwarf
open Bytes Leb128

/-- Why nothing is read. -/
inductive Stop where
  | missing
  | overflow
  deriving DecidableEq

abbrev Parse := StateT Reader (Except Stop)

variable {α β : Type}

def ofRead (m : Read α) : Parse α := fun r =>
  match m r with
  | none => .error .missing
  | some x => .ok x

def take (n : ℕ) : Parse (List UInt8) := ofRead (Reader.take n)
def u8 : Parse UInt8 := ofRead Reader.u8

/-- A word of `n` bytes, lowest first. -/
def word (n : ℕ) : Parse ℕ := do return ofLe (← take n)

def u16 : Parse ℕ := word 2
def u32 : Parse ℕ := word 4
def u64 : Parse ℕ := word 8

def skip (n : ℕ) : Parse Unit := do discard (take n)

/-- The loop that reads a number; `last` is what its last byte makes of the value. -/
def lebFrom (last : BitVec 64 → ℕ → UInt8 → BitVec 64) (val : BitVec 64) (shift : ℕ)
    (r : Reader) : Except Stop (BitVec 64 × Reader) :=
  match h : Reader.u8 r with
  | none => .error .missing
  | some (b,next) =>
    let val := orGroup val (BitVec.ofNat 32 shift) b
    if 2^31 ≤ shift+7 then .error .overflow
    else if b &&& 0x80 = 0 then .ok (last val (shift+7) b,next)
    else lebFrom last val (shift+7) next
termination_by r.data.length - r.pos
decreasing_by exact Reader.u8_shrinks h

def ulebLast (val : BitVec 64) (_shift : ℕ) (_b : UInt8) : BitVec 64 := val

def slebLast (val : BitVec 64) (shift : ℕ) (b : UInt8) : BitVec 64 :=
  val ||| Reader.signBits (BitVec.ofNat 32 shift) b

def uleb : Parse ℕ := do return (← lebFrom ulebLast 0#64 0).toNat
def sleb : Parse ℤ := do return (← lebFrom slebLast 0#64 0).toInt

/-- The bytes up to the next null, which the reader moves past too. -/
def cstr : Parse (List UInt8) := fun r =>
  if r.pos ≤ r.data.length then
    match r.rest.findIdx? (· == 0) with
    | none => .error .missing
    | some n => .ok (r.rest.take n,{ r with pos := r.pos+(n+1) })
  else .error .missing

/-! ## What an operation reads -/

/-- How many bytes a number takes, up to the first that says there are no more. -/
def lebLength : List UInt8 → ℕ
  | [] => 0
  | b::l => if b &&& 0x80 = 0 then 1 else lebLength l+1

/-- A number is not so long that its shift overflows. -/
def LebFits (l : List UInt8) : Prop := 7*lebLength l < 2^31

theorem leb_length_le (l : List UInt8) : lebLength l ≤ l.length := by
  induction l with
  | nil => exact le_rfl
  | cons b l ih =>
    rw [lebLength, List.length_cons]
    split
    · exact Nat.le_add_left _ _
    · exact Nat.succ_le_succ ih

/-- A reader within its data, with some bytes before it. -/
def Reader.At (r : Reader) (l : List UInt8) : Prop := r.pos ≤ r.data.length ∧ r.rest = l

/-- An operation reads some bytes as a value, if it does not overflow. -/
def Reads (op : Parse α) (bytes : List UInt8) (v : α) : Prop :=
  ∀ (r : Reader) (tail : List UInt8), r.At (bytes ++ tail) → op r ≠ .error .overflow →
    ∃ r', op r = .ok (v,r') ∧ r'.At tail

/-- An operation moves the reader on by at least `n` bytes. -/
def Consumes (n : ℕ) (op : Parse α) : Prop :=
  ∀ (r : Reader) (v : α) (r' : Reader), op r = .ok (v,r') → r'.rest.length + n ≤ r.rest.length

/-- An operation never overflows. -/
def Safe (op : Parse α) : Prop := ∀ r, op r ≠ .error .overflow

/-- At a reader, an operation overflows just if a number is too long that it reads: those
that start at some places. -/
def Overflows (op : Parse α) (r : Reader) (lebs : List UInt8 → Prop) : Prop :=
  op r = .error .overflow ↔ ∃ l, lebs l ∧ ¬LebFits l

theorem bind_ok {op : Parse α} {f : α → Parse β} {r r' : Reader} {v : β}
    (h : (op >>= f) r = .ok (v,r')) : ∃ u r₁, op r = .ok (u,r₁) ∧ f u r₁ = .ok (v,r') := by
  change Except.bind (op r) (fun x => f x.1 x.2) = _ at h
  cases hop : op r with
  | error e =>
    rw [hop] at h
    cases h
  | ok x =>
    rw [hop] at h
    exact ⟨x.1,x.2,rfl,h⟩

theorem bind_of_ok {op : Parse α} (f : α → Parse β) {r r₁ : Reader} {u : α}
    (h : op r = .ok (u,r₁)) : (op >>= f) r = f u r₁ := by
  change Except.bind (op r) (fun x => f x.1 x.2) = _
  rw [h]
  rfl

theorem bind_of_error {op : Parse α} (f : α → Parse β) {r : Reader} {e : Stop}
    (h : op r = .error e) : (op >>= f) r = .error e := by
  change Except.bind (op r) (fun x => f x.1 x.2) = _
  rw [h]
  rfl

theorem bind_safe {op : Parse α} {f : α → Parse β} {r : Reader}
    (h : (op >>= f) r ≠ .error .overflow) : op r ≠ .error .overflow := fun hop =>
  h (bind_of_error f hop)

theorem Reads.bind {op : Parse α} {f : α → Parse β} {bytes more : List UInt8} {u : α} {v : β}
    (h : Reads op bytes u) (hf : Reads (f u) more v) : Reads (op >>= f) (bytes ++ more) v := by
  intro r tail hr hsafe
  rw [List.append_assoc] at hr
  obtain ⟨r₁,hop,hrest⟩ := h r _ hr (bind_safe hsafe)
  rw [bind_of_ok f hop] at hsafe ⊢
  exact hf r₁ tail hrest hsafe

theorem Reads.pure (v : α) : Reads (Pure.pure v) [] v := fun r _ hr _ => ⟨r,rfl,hr⟩

/-- What is read is the last, and then made a value. -/
theorem Reads.last {op : Parse α} {f : α → Parse β} {bytes : List UInt8} {u : α} {v : β}
    (h : Reads op bytes u) (hf : f u = Pure.pure v) : Reads (op >>= f) bytes v := by
  have hbind := h.bind (f := f) (hf ▸ Reads.pure v)
  rwa [List.append_nil] at hbind

theorem Reads.map {op : Parse α} {bytes : List UInt8} {u : α} (h : Reads op bytes u) (f : α → β) :
    Reads (do return f (← op)) bytes (f u) := h.last rfl

/-! ## What moves on -/

section Consumes
variable {op : Parse α} {m n : ℕ}

theorem Consumes.bind {f : α → Parse β} (h : Consumes m op) (hf : ∀ u, Consumes n (f u)) :
    Consumes (m+n) (op >>= f) := by
  intro r v r' hok
  obtain ⟨u,r₁,hop,hrun⟩ := bind_ok hok
  have hlen := h _ _ _ hop
  have hlen' := hf u _ _ _ hrun
  omega

theorem Consumes.pure (v : α) : Consumes 0 (Pure.pure v) := by
  intro r u r' h
  cases h
  exact le_rfl

theorem Consumes.fail (e : Stop) : Consumes n (throw e : Parse α) := by
  intro r v r' h
  cases h

theorem Consumes.mono (h : Consumes n op) (hle : m ≤ n) : Consumes m op := by
  intro r v r' hok
  have hop := h r v r' hok
  omega

theorem Consumes.any (h : Consumes n op) : Consumes 0 op := h.mono (Nat.zero_le n)

theorem Consumes.map (h : Consumes n op) (f : α → β) : Consumes n (do return f (← op)) :=
  h.bind fun u => Consumes.pure (f u)

theorem Consumes.ite {p : Prop} [Decidable p] {op' : Parse α} (h : Consumes n op)
    (h' : Consumes n op') : Consumes n (if p then op else op') := by
  split
  · exact h
  · exact h'

end Consumes

/-! ## What overflows -/

namespace Safe

theorem bind {op : Parse α} {f : α → Parse β} (h : Safe op) (hf : ∀ u, Safe (f u)) :
    Safe (op >>= f) := by
  intro r hbad
  cases hop : op r with
  | error e =>
    rw [bind_of_error f hop] at hbad
    cases hbad
    exact h r hop
  | ok x =>
    rw [bind_of_ok f hop] at hbad
    exact hf x.1 x.2 hbad

theorem pure (v : α) : Safe (Pure.pure v) := fun _ => nofun

theorem fail : Safe (throw .missing : Parse α) := fun _ => nofun

theorem map {op : Parse α} (h : Safe op) (f : α → β) : Safe (do return f (← op)) :=
  h.bind fun u => pure (f u)

theorem ite {p : Prop} [Decidable p] {op op' : Parse α} (h : p → Safe op) (h' : Safe op') :
    Safe (if p then op else op') := by
  split
  · next hp => exact h hp
  · exact h'

end Safe

section Overflows
variable {op : Parse α} {r : Reader} {lebs : List UInt8 → Prop}

/-- An operation that reads no number does not overflow. -/
theorem Safe.overflows (h : Safe op) (r : Reader) : Overflows op r fun _ => False :=
  iff_of_false (h r) fun ⟨_,hl,_⟩ => hl

theorem Overflows.congr {lebs' : List UInt8 → Prop} (h : Overflows op r lebs)
    (hlebs : ∀ l, lebs l ↔ lebs' l) : Overflows op r lebs' := by
  obtain rfl : lebs = lebs' := funext fun l => propext (hlebs l)
  exact h

theorem Overflows.bind {f : α → Parse β} {q : α → Reader → List UInt8 → Prop}
    (h : Overflows op r lebs) (hf : ∀ u r', op r = .ok (u,r') → Overflows (f u) r' (q u r')) :
    Overflows (op >>= f) r fun l => lebs l ∨ ∃ u r', op r = .ok (u,r') ∧ q u r' l := by
  cases hop : op r with
  | error e =>
    rw [Overflows, hop, Except.error.injEq] at h
    rw [Overflows, bind_of_error f hop, Except.error.injEq, h]
    simp
  | ok x =>
    have hnone : ∀ l, lebs l → LebFits l := by
      intro l hl
      by_contra hlong
      rw [Overflows, hop] at h
      cases h.2 ⟨l,hl,hlong⟩
    rw [Overflows, bind_of_ok f hop]
    refine (hf x.1 x.2 hop).trans ?_
    constructor
    · rintro ⟨l,hl,hlong⟩
      exact ⟨l,Or.inr ⟨x.1,x.2,rfl,hl⟩,hlong⟩
    · rintro ⟨l,hl | ⟨u,r',hx,hl⟩,hlong⟩
      · exact absurd (hnone l hl) hlong
      · cases hx
        exact ⟨l,hl,hlong⟩

/-- What is done with a value once it is read overflows nothing. -/
theorem Overflows.last {f : α → Parse β} (h : Overflows op r lebs)
    (hf : ∀ u, Safe (f u)) : Overflows (op >>= f) r lebs := by
  refine (h.bind fun u r' _ => (hf u).overflows r').congr fun l => ?_
  exact ⟨fun hl => hl.resolve_right (by rintro ⟨_,_,_,hno⟩; exact hno),Or.inl⟩

theorem Overflows.map (h : Overflows op r lebs) (f : α → β) :
    Overflows (do return f (← op)) r lebs := h.last fun u => Safe.pure (f u)

end Overflows

/-! ## Bytes and words -/

theorem of_read_ok {m : Read α} {r r' : Reader} {v : α} (h : ofRead m r = .ok (v,r')) :
    m r = some (v,r') := by
  rw [ofRead] at h
  split at h
  · cases h
  · next x hx =>
    cases h
    exact hx

theorem of_read_safe (m : Read α) : Safe (ofRead m) := by
  intro r
  rw [ofRead]
  split <;> exact nofun

theorem take_consumes (n : ℕ) : Consumes n (take n) := by
  intro r v r' h
  obtain ⟨bytes,hbytes,heq⟩ := Option.map_eq_some_iff.1 (of_read_ok h)
  cases heq
  have hle := (bytes_at_some hbytes).1
  simp only [Reader.rest, List.length_drop]
  omega

theorem take_safe (n : ℕ) : Safe (take n) := of_read_safe _

theorem Reader.At.next {r : Reader} {bytes tail : List UInt8} (h : r.At (bytes ++ tail)) :
    r.pos+bytes.length ≤ r.data.length ∧
      { r with pos := r.pos+bytes.length : Reader }.At tail := by
  have hlen := Reader.rest_length r
  rw [h.2, List.length_append] at hlen
  have hpos := h.1
  have hle : r.pos+bytes.length ≤ r.data.length := by omega
  refine ⟨hle,hle,?_⟩
  rw [Reader.rest, ← List.drop_drop, ← Reader.rest, h.2, List.drop_left]

theorem take_reads (bytes : List UInt8) : Reads (take bytes.length) bytes bytes := by
  intro r tail hr _
  obtain ⟨hle,hnext⟩ := hr.next
  refine ⟨_,?_,hnext⟩
  rw [take, ofRead, Reader.take, bytesAt, if_pos hle, ← Reader.rest, hr.2, List.take_left]
  rfl

theorem u8_consumes : Consumes 1 u8 := by
  intro r b r' h
  obtain ⟨⟨bytes,next⟩,htake,hhead⟩ := Option.bind_eq_some_iff.1 (of_read_ok h)
  obtain ⟨b',-,heq⟩ := Option.map_eq_some_iff.1 hhead
  cases heq
  exact take_consumes 1 r bytes _ (by rw [take, ofRead, htake])

theorem u8_safe : Safe u8 := of_read_safe _

theorem u8_reads (b : UInt8) : Reads u8 [b] b := by
  intro r tail hr _
  have hread := (Reader.u8_cons hr.2).1
  refine ⟨{ r with pos := r.pos+1 },?_,hr.next.2⟩
  rw [u8, ofRead, hread]

theorem word_safe (n : ℕ) : Safe (word n) := (take_safe n).map ofLe

theorem word_consumes (n : ℕ) : Consumes n (word n) := (take_consumes n).map ofLe

theorem word_reads (bytes : List UInt8) : Reads (word bytes.length) bytes (ofLe bytes) :=
  (take_reads bytes).map ofLe

theorem skip_safe (n : ℕ) : Safe (skip n) := (take_safe n).map fun _ => ()

theorem skip_consumes (n : ℕ) : Consumes n (skip n) := (take_consumes n).map fun _ => ()

theorem skip_reads (bytes : List UInt8) : Reads (skip bytes.length) bytes () :=
  (take_reads bytes).map fun _ => ()

/-! ## Numbers -/

section Numbers
variable {last : BitVec 64 → ℕ → UInt8 → BitVec 64} {val v : BitVec 64} {shift : ℕ}

theorem leb_from_cons {r : Reader} {b : UInt8} {l : List UInt8} (h : r.rest = b::l) :
    lebFrom last val shift r =
      if 2^31 ≤ shift+7 then .error .overflow
      else if b &&& 0x80 = 0 then
        .ok (last (orGroup val (BitVec.ofNat 32 shift) b) (shift+7) b,{ r with pos := r.pos+1 })
      else lebFrom last (orGroup val (BitVec.ofNat 32 shift) b) (shift+7)
        { r with pos := r.pos+1 } := by
  have hb := (Reader.u8_cons h).1
  rw [lebFrom]
  split
  · next hread =>
    rw [hb] at hread
    cases hread
  · next b' next hread =>
    rw [hb] at hread
    cases hread
    rfl

theorem leb_from_nil {r : Reader} (h : r.rest = []) :
    lebFrom last val shift r = .error .missing := by
  rw [lebFrom]
  split
  · rfl
  · next hread =>
    rw [Reader.u8_nil h] at hread
    cases hread

theorem leb_from_consumes : Consumes 1 (lebFrom last val shift) := by
  intro r v r' h
  obtain ⟨l,hl⟩ : ∃ l, r.rest = l := ⟨_,rfl⟩
  induction l generalizing val shift r with
  | nil =>
    rw [leb_from_nil hl] at h
    cases h
  | cons b l ih =>
    have hnext := (Reader.u8_cons hl).2
    rw [leb_from_cons hl] at h
    rw [hl, List.length_cons]
    split at h
    · cases h
    · split at h
      · cases h
        rw [hnext]
      · have hlen := ih _ h hnext
        rw [hnext] at hlen
        omega

/-- Only a long number overflows. -/
theorem leb_from_overflow {r : Reader} {l : List UInt8} (hl : r.rest = l) (hshift : shift < 2^31) :
    lebFrom last val shift r = .error .overflow ↔ 2^31 ≤ shift + 7*lebLength l := by
  induction l generalizing val shift r with
  | nil =>
    rw [leb_from_nil hl]
    exact iff_of_false nofun (Nat.not_le.2 hshift)
  | cons b l ih =>
    rw [leb_from_cons hl, lebLength]
    by_cases hlong : 2^31 ≤ shift+7
    · rw [if_pos hlong]
      refine iff_of_true rfl ?_
      split <;> omega
    · rw [if_neg hlong]
      split
      · exact iff_of_false nofun hlong
      · rw [ih (Reader.u8_cons hl).2 (Nat.not_le.1 hlong)]
        omega

/-- Without overflow, a number is read as the loop that wraps reads it. -/
theorem uleb_from_wraps {r : Reader} {l : List UInt8} (hl : r.rest = l)
    (h : shift + 7*lebLength l < 2^31) :
    lebFrom ulebLast val shift r = ofRead (Reader.ulebFrom val (BitVec.ofNat 32 shift)) r := by
  rw [ofRead]
  induction l generalizing val shift r with
  | nil => rw [leb_from_nil hl, Reader.uleb_from_nil hl]
  | cons b l ih =>
    rw [lebLength] at h
    rw [leb_from_cons hl, if_neg (by split at h <;> omega), Reader.uleb_from_cons hl]
    by_cases hlast : b &&& 0x80 = 0
    · rw [if_pos hlast, if_pos hlast]
      rfl
    · rw [if_neg hlast] at h
      rw [if_neg hlast, if_neg hlast, ih (Reader.u8_cons hl).2 (by omega), ← shift_add]

theorem sleb_from_wraps {r : Reader} {l : List UInt8} (hl : r.rest = l)
    (h : shift + 7*lebLength l < 2^31) :
    lebFrom slebLast val shift r = ofRead (Reader.slebFrom val (BitVec.ofNat 32 shift)) r := by
  rw [ofRead]
  induction l generalizing val shift r with
  | nil => rw [leb_from_nil hl, Reader.sleb_from_nil hl]
  | cons b l ih =>
    rw [lebLength] at h
    rw [leb_from_cons hl, if_neg (by split at h <;> omega), Reader.sleb_from_cons hl]
    by_cases hlast : b &&& 0x80 = 0
    · rw [if_pos hlast, if_pos hlast, shift_add]
      rfl
    · rw [if_neg hlast] at h
      rw [if_neg hlast, if_neg hlast, ih (Reader.u8_cons hl).2 (by omega), ← shift_add]

end Numbers

theorem uleb_consumes : Consumes 1 uleb := leb_from_consumes.map _

theorem sleb_consumes : Consumes 1 sleb := leb_from_consumes.map _

theorem leb_overflows (last : BitVec 64 → ℕ → UInt8 → BitVec 64) (r : Reader) :
    Overflows (lebFrom last 0#64 0) r fun l => l = r.rest := by
  rw [Overflows, leb_from_overflow rfl (by decide)]
  simp [LebFits]

theorem uleb_overflows (r : Reader) : Overflows uleb r fun l => l = r.rest :=
  (leb_overflows _ r).map _

theorem sleb_overflows (r : Reader) : Overflows sleb r fun l => l = r.rest :=
  (leb_overflows _ r).map _

/-- A number that is read fits. -/
theorem leb_fits {op : Parse α} {r : Reader} (h : Overflows op r fun l => l = r.rest)
    (hsafe : op r ≠ .error .overflow) : LebFits r.rest := by
  by_contra hlong
  exact hsafe (h.2 ⟨_,rfl,hlong⟩)

theorem decode_uleb_append {l rest : List UInt8} {n : ℕ} (h : decodeUleb l = some (n,rest))
    (tail : List UInt8) :
    decodeUleb (l ++ tail) = some (n,rest ++ tail) ∧
      l.length = lebLength (l ++ tail)+rest.length := by
  induction l generalizing n rest with
  | nil => cases h
  | cons b l ih =>
    rw [List.cons_append, decodeUleb, lebLength, List.length_cons]
    rw [decodeUleb] at h
    split at h
    · next hb =>
      cases h
      rw [if_pos hb, if_pos ((high_clear b).2 hb), Nat.add_comm]
      exact ⟨rfl,rfl⟩
    · next hb =>
      obtain ⟨⟨m,rest'⟩,hdecode,heq⟩ := Option.map_eq_some_iff.1 h
      cases heq
      obtain ⟨hmore,hlen⟩ := ih hdecode
      rw [if_neg hb, hmore, if_neg (fun h => hb ((high_clear b).1 h))]
      exact ⟨rfl,by omega⟩

theorem decode_sleb_append {l rest : List UInt8} {n : ℤ} (h : decodeSleb l = some (n,rest))
    (tail : List UInt8) :
    decodeSleb (l ++ tail) = some (n,rest ++ tail) ∧
      l.length = lebLength (l ++ tail)+rest.length := by
  induction l generalizing n rest with
  | nil => cases h
  | cons b l ih =>
    rw [List.cons_append, decodeSleb, lebLength, List.length_cons]
    rw [decodeSleb] at h
    split at h
    · next hb =>
      cases h
      have hlow : b < 0x80 := UInt8.lt_trans hb (by decide)
      rw [if_pos hb, if_pos ((high_clear b).2 hlow), Nat.add_comm]
      exact ⟨rfl,rfl⟩
    · next hb =>
      split at h
      · next hb' =>
        cases h
        rw [if_neg hb, if_pos hb', if_pos ((high_clear b).2 hb'), Nat.add_comm]
        exact ⟨rfl,rfl⟩
      · next hb' =>
        obtain ⟨⟨m,rest'⟩,hdecode,heq⟩ := Option.map_eq_some_iff.1 h
        cases heq
        obtain ⟨hmore,hlen⟩ := ih hdecode
        rw [if_neg hb, if_neg hb', hmore, if_neg (fun h => hb' ((high_clear b).1 h))]
        exact ⟨rfl,by omega⟩

theorem Reader.At.end_pos {r : Reader} {bytes tail : List UInt8} (h : r.At (bytes ++ tail)) :
    r.data.length - tail.length = r.pos+bytes.length := by
  have hlen := Reader.rest_length r
  have hpos := h.1
  rw [h.2, List.length_append] at hlen
  omega

/-- Any bytes that are a number are read as it, to 64 bits. -/
theorem uleb_reads {bytes : List UInt8} {n : ℕ} (h : decodeUleb bytes = some (n,[])) :
    Reads uleb bytes (n % 2^64) := by
  intro r tail hr hsafe
  obtain ⟨hdecode,hlen⟩ := decode_uleb_append h tail
  rw [List.nil_append] at hdecode
  rw [List.length_nil] at hlen
  have hfits : LebFits (bytes ++ tail) := hr.2 ▸ leb_fits (uleb_overflows r) hsafe
  rw [LebFits] at hfits
  have hread := @read_uleb_from 0#64 0 n _ tail hdecode (by rw [List.length_append]; omega)
  have hloop := @uleb_from_wraps 0#64 0 r _ hr.2 (by omega)
  rw [ofRead, Reader.uleb_from_rest _ _ hr.2, hread, Option.map_some] at hloop
  dsimp only at hloop
  rw [hr.end_pos] at hloop
  refine ⟨_,?_,hr.next.2⟩
  rw [uleb, bind_of_ok _ hloop, BitVec.shiftLeft_zero, BitVec.zero_or, BitVec.ofInt_natCast,
    BitVec.toNat_ofNat]
  rfl

theorem sleb_reads {bytes : List UInt8} {n : ℤ} (h : decodeSleb bytes = some (n,[])) :
    Reads sleb bytes (BitVec.ofInt 64 n).toInt := by
  intro r tail hr hsafe
  obtain ⟨hdecode,hlen⟩ := decode_sleb_append h tail
  rw [List.nil_append] at hdecode
  rw [List.length_nil] at hlen
  have hfits : LebFits (bytes ++ tail) := hr.2 ▸ leb_fits (sleb_overflows r) hsafe
  rw [LebFits] at hfits
  have hloop := @sleb_from_wraps 0#64 0 r _ hr.2 (by omega)
  rw [ofRead, Reader.sleb_from_rest hdecode (by rw [List.length_append]; omega) hr.2] at hloop
  dsimp only at hloop
  rw [hr.end_pos] at hloop
  refine ⟨_,?_,hr.next.2⟩
  rw [sleb, bind_of_ok _ hloop, BitVec.shiftLeft_zero, BitVec.zero_or]
  rfl

/-! ## Strings -/

theorem cstr_consumes : Consumes 1 cstr := by
  intro r v r' h
  rw [cstr] at h
  split at h
  · split at h
    · cases h
    · next n hn =>
      cases h
      have hlt := (List.findIdx?_eq_some_iff_getElem.1 hn).1
      rw [Reader.rest_length] at hlt
      rw [Reader.rest_length, Reader.rest_length]
      dsimp only
      omega
  · cases h

theorem cstr_safe : Safe cstr := by
  intro r
  rw [cstr]
  intro hover
  split at hover
  · split at hover <;> cases hover
  · cases hover

theorem cstr_ok {r : Reader} {s tail : List UInt8} (hs : 0 ∉ s) (hr : r.At (s ++ 0::tail)) :
    cstr r = .ok (s,{ r with pos := r.pos+(s.length+1) }) := by
  have hfind : r.rest.findIdx? (· == 0) = some s.length := by
    rw [hr.2, List.findIdx?_eq_some_iff_getElem]
    refine ⟨by simp,by simp,fun j hj => ?_⟩
    have hne : s[j] ≠ 0 := fun hzero => hs (hzero ▸ List.getElem_mem hj)
    rw [List.getElem_append_left hj]
    simpa using hne
  rw [cstr, if_pos hr.1, hfind, hr.2]
  dsimp only
  rw [List.take_left]

theorem cstr_reads {s : List UInt8} (hs : 0 ∉ s) : Reads cstr (s ++ [0]) s := by
  intro r tail hr _
  have hnext := hr.next.2
  rw [List.append_assoc, List.singleton_append] at hr
  exact ⟨_,cstr_ok hs hr,by simpa using hnext⟩

end MoldMacho.Dwarf
