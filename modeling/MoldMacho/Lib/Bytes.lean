import Mathlib.Data.List.Basic
import Mathlib.Data.Nat.Notation
import Mathlib.Tactic.Ring

/-!
# Little-endian words in a byte buffer

Numbers as bytes, lowest first, reads and writes at an offset, and a run
of word patches. Patches that lie apart do not see each other.
-/

set_option autoImplicit false

namespace MoldMacho.Bytes

/-- The low `n` bytes of a number. -/
def toLe : ℕ → ℕ → List UInt8
  | 0, _ => []
  | n+1, v => (v%256).toUInt8 :: toLe n (v/256)

def ofLe : List UInt8 → ℕ
  | [] => 0
  | b::bs => b.toNat + 256*ofLe bs

/-- `n` bytes at `off`, if the buffer has them. -/
def bytesAt (buf : List UInt8) (off n : ℕ) : Option (List UInt8) :=
  if off+n ≤ buf.length then some ((buf.drop off).take n) else none

def readLe (n : ℕ) (buf : List UInt8) (off : ℕ) : Option ℕ :=
  (bytesAt buf off n).map ofLe

/-- The buffer with `bytes` in place at `off`. -/
def writeAt (buf : List UInt8) (off : ℕ) (bytes : List UInt8) : List UInt8 :=
  buf.take off ++ bytes ++ buf.drop (off+bytes.length)

@[simp] theorem to_le_length (n v : ℕ) : (toLe n v).length = n := by
  induction n generalizing v with
  | zero => rfl
  | succ n ih => simp [toLe, ih]

theorem of_to_le (n v : ℕ) : ofLe (toLe n v) = v % 256^n := by
  induction n generalizing v with
  | zero => simp [toLe, ofLe, Nat.mod_one]
  | succ n ih =>
    have hb : (v%256).toUInt8.toNat = v%256 := by
      simp [Nat.mod_eq_of_lt (Nat.mod_lt v (by decide : 0 < 256))]
    rw [toLe, ofLe, hb, ih, pow_succ', Nat.mod_mul]

theorem of_le_lt (bs : List UInt8) : ofLe bs < 256^bs.length := by
  induction bs with
  | nil => simp [ofLe]
  | cons b bs ih =>
    have hb : b.toNat < 256 := b.toNat_lt
    rw [ofLe, List.length_cons, pow_succ]
    omega

/-! The order of byte strings. -/

theorem bytes_lt {a b : List UInt8} : a < b ↔ a.map UInt8.toNat < b.map UInt8.toNat := by
  induction a generalizing b with
  | nil =>
    cases b with
    | nil => simp
    | cons y b => simp
  | cons x a ih =>
    cases b with
    | nil => simp
    | cons y b =>
      rw [List.map_cons, List.map_cons, List.cons_lt_cons_iff, List.cons_lt_cons_iff, ih,
        UInt8.lt_iff_toNat_lt, UInt8.toNat_inj]

/-! Reads. -/

theorem bytes_at_some {buf bytes : List UInt8} {off n : ℕ} (h : bytesAt buf off n = some bytes) :
    off+n ≤ buf.length ∧ bytes = (buf.drop off).take n := by
  unfold bytesAt at h
  split at h
  case isTrue hle => exact ⟨hle,(Option.some.inj h).symm⟩
  case isFalse => contradiction

theorem read_le_lt {n off v : ℕ} {buf : List UInt8} (h : readLe n buf off = some v) :
    v < 256^n := by
  rw [readLe, Option.map_eq_some_iff] at h
  obtain ⟨bytes,hb,rfl⟩ := h
  obtain ⟨hle,rfl⟩ := bytes_at_some hb
  have := of_le_lt ((buf.drop off).take n)
  rwa [List.length_take, List.length_drop, Nat.min_eq_left (by omega)] at this

theorem read_le_some (n off : ℕ) (buf : List UInt8) (h : off+n ≤ buf.length) :
    ∃ v, readLe n buf off = some v := by
  rw [readLe, bytesAt, if_pos h]
  exact ⟨_,rfl⟩

/-- Reading a number laid down leaves what was laid down after it. -/
theorem read_field {buf c : List UInt8} {off n v : ℕ} (hoff : off ≤ buf.length)
    (h : buf.drop off = toLe n v ++ c) :
    readLe n buf off = some (v % 256^n) ∧ off+n ≤ buf.length ∧ buf.drop (off+n) = c := by
  have hlen := congrArg List.length h
  simp only [List.length_drop, List.length_append, to_le_length] at hlen
  have hle : off+n ≤ buf.length := by omega
  refine ⟨?_,hle,?_⟩
  · rw [readLe, bytesAt, if_pos hle, h, List.take_left' (to_le_length n v), Option.map_some,
      of_to_le]
  · rw [← List.drop_drop, h, List.drop_left' (to_le_length n v)]

theorem bytes_at_in {buf : List UInt8} {off n : ℕ} (h : off+n ≤ buf.length) :
    ∃ bytes, bytesAt buf off n = some bytes ∧ bytes.length = n := by
  rw [bytesAt, if_pos h]
  refine ⟨_,rfl,?_⟩
  rw [List.length_take, List.length_drop]
  omega

/-- Bytes of a slice of a buffer. -/
theorem bytes_at_slice {buf b : List UInt8} {m n off k : ℕ} (hk : 0 < k)
    (h : bytesAt ((buf.drop m).take n) off k = some b) : bytesAt buf (off+m) k = some b := by
  obtain ⟨hle,rfl⟩ := bytes_at_some h
  rw [List.length_take, List.length_drop] at hle
  rw [bytesAt, if_pos (by omega), List.drop_take, List.take_take, List.drop_drop,
    Nat.min_eq_left (by omega), Nat.add_comm m]

/-- Two runs of bytes, one after the other. -/
theorem bytes_at_join {buf a b : List UInt8} {off m n : ℕ} (ha : bytesAt buf off m = some a)
    (hb : bytesAt buf (off+m) n = some b) : bytesAt buf off (m+n) = some (a ++ b) := by
  obtain ⟨hm,rfl⟩ := bytes_at_some ha
  obtain ⟨hn,rfl⟩ := bytes_at_some hb
  rw [bytesAt, if_pos (by omega), List.take_add, List.drop_drop]

theorem bytes_at_drop {buf bytes : List UInt8} {off n : ℕ} (h : bytesAt buf off n = some bytes) :
    off ≤ buf.length ∧ buf.drop off = bytes ++ buf.drop (off+n) := by
  obtain ⟨hle,rfl⟩ := bytes_at_some h
  constructor
  · omega
  · rw [← List.drop_drop, List.take_append_drop]

theorem bytes_at_append {buf bytes : List UInt8} {off n : ℕ} (h : bytesAt buf off n = some bytes)
    (more : List UInt8) : bytesAt (buf ++ more) off n = some bytes := by
  obtain ⟨hle,rfl⟩ := bytes_at_some h
  rw [bytesAt, if_pos (by simp; omega), List.drop_append_of_le_length (by omega),
    List.take_append_of_le_length (by simp; omega)]

theorem bytes_at_end (buf bytes : List UInt8) :
    bytesAt (buf ++ bytes) buf.length bytes.length = some bytes := by
  rw [bytesAt, if_pos (by simp), List.drop_left, List.take_length]

theorem drop_next {buf a c : List UInt8} {off : ℕ} (hoff : off ≤ buf.length)
    (h : buf.drop off = a ++ c) :
    off+a.length ≤ buf.length ∧ buf.drop (off+a.length) = c := by
  have hlen := congrArg List.length h
  simp only [List.length_drop, List.length_append] at hlen
  constructor
  · omega
  · rw [← List.drop_drop, h, List.drop_left]

/-! Big-endian words. -/

def toBe (n v : ℕ) : List UInt8 := (toLe n v).reverse

def readBe (n : ℕ) (buf : List UInt8) (off : ℕ) : Option ℕ :=
  (bytesAt buf off n).map fun bytes => ofLe bytes.reverse

@[simp] theorem to_be_length (n v : ℕ) : (toBe n v).length = n := by
  rw [toBe, List.length_reverse, to_le_length]

theorem bytes_at_field {buf a c : List UInt8} {off : ℕ} (hoff : off ≤ buf.length)
    (h : buf.drop off = a ++ c) : bytesAt buf off a.length = some a := by
  have hle := congrArg List.length h
  rw [List.length_drop, List.length_append] at hle
  rw [bytesAt, if_pos (by omega), h, List.take_left]

theorem read_be_field {buf c : List UInt8} {off n v : ℕ} (hoff : off ≤ buf.length)
    (h : buf.drop off = toBe n v ++ c) :
    readBe n buf off = some (v % 256^n) ∧ off+n ≤ buf.length ∧ buf.drop (off+n) = c := by
  obtain ⟨hle,hdrop⟩ := drop_next hoff h
  have hbytes := bytes_at_field hoff h
  rw [to_be_length] at hle hdrop hbytes
  refine ⟨?_,hle,hdrop⟩
  rw [readBe, hbytes, Option.map_some, toBe, List.reverse_reverse, of_to_le]

theorem read_be_lt {n off v : ℕ} {buf : List UInt8} (h : readBe n buf off = some v) :
    v < 256^n := by
  rw [readBe, Option.map_eq_some_iff] at h
  obtain ⟨bytes,hb,rfl⟩ := h
  obtain ⟨hle,rfl⟩ := bytes_at_some hb
  have hlt := of_le_lt ((buf.drop off).take n).reverse
  rwa [List.length_reverse, List.length_take, List.length_drop, Nat.min_eq_left (by omega)] at hlt

/-- An item of a run stands after those before it. -/
theorem drop_item {α : Type} {enc : α → List UInt8} {buf c : List UInt8} {l : List α} {k : ℕ} {a : α}
    (ha : l[k]? = some a) {off : ℕ} (hoff : off ≤ buf.length)
    (h : buf.drop off = l.flatMap enc ++ c) :
    off+((l.take k).flatMap enc).length ≤ buf.length ∧
      ∃ c', buf.drop (off+((l.take k).flatMap enc).length) = enc a ++ c' := by
  obtain ⟨hk,hget⟩ := List.getElem?_eq_some_iff.1 ha
  have hsplit : l = l.take k ++ a :: l.drop (k+1) := by
    rw [← hget, ← List.drop_eq_getElem_cons hk, List.take_append_drop]
  rw [hsplit, List.flatMap_append, List.flatMap_cons, List.append_assoc, List.append_assoc] at h
  obtain ⟨hle,hdrop⟩ := drop_next hoff h
  exact ⟨hle,_,hdrop⟩

/-! Runs of items of one size, read one after another. -/

section Runs
variable {α β : Type} {enc : α → List UInt8} {read : ℕ → Option β} {g : α → β} {n : ℕ}
  {buf c : List UInt8}

theorem read_run (hlen : ∀ a, (enc a).length = n) (l : List α)
    (hread : ∀ a ∈ l, ∀ off c, off ≤ buf.length → buf.drop off = enc a ++ c → read off = some (g a))
    {off : ℕ} (hoff : off ≤ buf.length) (h : buf.drop off = l.flatMap enc ++ c) :
    (List.range l.length).mapM (fun j => read (off+j*n)) = some (l.map g) := by
  induction l generalizing off with
  | nil => rfl
  | cons a l ih =>
    rw [List.flatMap_cons, List.append_assoc] at h
    obtain ⟨hle,hdrop⟩ := drop_next hoff h
    rw [hlen a] at hle hdrop
    have hi := ih (fun b hb => hread b (by simp [hb])) hle hdrop
    rw [List.length_cons, List.range_succ_eq_map, List.mapM_cons, Nat.zero_mul, Nat.add_zero,
      hread a (by simp) off _ hoff h, List.mapM_map]
    have hshift : ((fun j => read (off+j*n)) ∘ Nat.succ) = fun j => read (off+n+j*n) := by
      funext j
      rw [Function.comp, Nat.succ_mul]
      congr 1
      omega
    rw [hshift, hi]
    rfl

theorem read_run_at (hlen : ∀ a, (enc a).length = n) {l : List α} {j : ℕ} {a : α}
    (ha : l[j]? = some a) {off : ℕ} (hoff : off ≤ buf.length) (h : buf.drop off = l.flatMap enc ++ c) :
    off+j*n ≤ buf.length ∧ ∃ c', buf.drop (off+j*n) = enc a ++ c' := by
  induction l generalizing off j with
  | nil => simp at ha
  | cons b l ih =>
    rw [List.flatMap_cons, List.append_assoc] at h
    cases j with
    | zero =>
      obtain rfl := Option.some.inj ha
      exact ⟨by omega,_,by rw [Nat.zero_mul, Nat.add_zero]; exact h⟩
    | succ j =>
      obtain ⟨hle,hdrop⟩ := drop_next hoff h
      rw [hlen b] at hle hdrop
      have hi := ih ha hle hdrop
      rwa [Nat.succ_mul, Nat.add_comm (j*n), ← Nat.add_assoc]

end Runs

/-- A run of numbers. -/
theorem read_le_run (n : ℕ) {buf c : List UInt8} (l : List ℕ) {off : ℕ} (hoff : off ≤ buf.length)
    (h : buf.drop off = l.flatMap (toLe n) ++ c) :
    (List.range l.length).mapM (fun j => readLe n buf (off+j*n)) =
      some (l.map (· % 256^n)) :=
  read_run (to_le_length n) l (fun _ _ _ _ hle hd => (read_field hle hd).1) hoff h

/-! Writes. -/

theorem write_at_length {buf bytes : List UInt8} {off : ℕ} (h : off+bytes.length ≤ buf.length) :
    (writeAt buf off bytes).length = buf.length := by
  simp only [writeAt, List.length_append, List.length_take, List.length_drop]
  omega

theorem bytes_at_write {buf : List UInt8} {off : ℕ} (bytes : List UInt8)
    (h : off+bytes.length ≤ buf.length) :
    bytesAt (writeAt buf off bytes) off bytes.length = some bytes := by
  rw [bytesAt, write_at_length h, if_pos h, writeAt, List.append_assoc,
    List.drop_left' (by simp; omega), List.take_left]

theorem bytes_at_write_apart {buf bytes : List UInt8} {off : ℕ} (h : off+bytes.length ≤ buf.length)
    {off' n : ℕ} (ha : off'+n ≤ off ∨ off+bytes.length ≤ off') :
    bytesAt (writeAt buf off bytes) off' n = bytesAt buf off' n := by
  rw [bytesAt, bytesAt, write_at_length h]
  split
  case isFalse => rfl
  case isTrue hle =>
    congr 1
    apply List.ext_getElem?
    intro i
    rw [List.getElem?_take, List.getElem?_take]
    split
    case isFalse => rfl
    case isTrue hi =>
      rw [List.getElem?_drop, List.getElem?_drop, writeAt]
      cases ha with
      | inl ha =>
        rw [List.append_assoc, List.getElem?_append_left (by simp; omega),
          List.getElem?_take_of_lt (by omega)]
      | inr ha =>
        rw [List.getElem?_append_right (by simp; omega), List.getElem?_drop]
        congr 1
        simp
        omega

theorem read_le_write {buf : List UInt8} {off n v : ℕ} (h : off+n ≤ buf.length) :
    readLe n (writeAt buf off (toLe n v)) off = some (v % 256^n) := by
  have hw : bytesAt (writeAt buf off (toLe n v)) off (toLe n v).length = _ :=
    bytes_at_write (toLe n v) (by simpa using h)
  rw [to_le_length] at hw
  rw [readLe, hw, Option.map_some, of_to_le]

/-! Words of several fields. -/

theorem or_shift {a m : ℕ} (ha : a < 2^m) (b : ℕ) : a ||| (b <<< m) = a + 2^m*b := by
  rw [Nat.or_comm, Nat.shiftLeft_eq, Nat.mul_comm b, Nat.add_comm, Nat.two_pow_add_eq_or_of_lt ha]

theorem or_shift_twice {a b m k : ℕ} (ha : a < 2^m) (hb : b < 2^k) (c : ℕ) :
    a ||| (b <<< m) ||| (c <<< (m+k)) = a + 2^m*(b + 2^k*c) := by
  have hlow : a + 2^m*b < 2^(m+k) := by
    calc a + 2^m*b < 2^m + 2^m*b := Nat.add_lt_add_right ha _
      _ = 2^m*(b+1) := by rw [Nat.mul_add, Nat.mul_one, Nat.add_comm]
      _ ≤ 2^m*2^k := Nat.mul_le_mul_left _ hb
      _ = 2^(m+k) := (pow_add 2 m k).symm
  rw [or_shift ha, or_shift hlow, pow_add]
  ring

/-! Patches. -/

/-- A word rewritten in place, from what it held. -/
structure Patch where
  off : ℕ
  word : ℕ → Option ℕ

def Patch.apply (buf : List UInt8) (p : Patch) : Option (List UInt8) := do
  let val ← readLe 8 buf p.off
  let word ← p.word val
  some (writeAt buf p.off (toLe 8 word))

def Patch.Apart (p : Patch) (off n : ℕ) : Prop := off+n ≤ p.off ∨ p.off+8 ≤ off

/-- One patch writes its word and leaves what lies apart from it. -/
theorem patch_apply {buf : List UInt8} {p : Patch} {val word : ℕ} (hin : p.off+8 ≤ buf.length)
    (hval : readLe 8 buf p.off = some val) (hword : p.word val = some word) :
    ∃ out, p.apply buf = some out ∧ out.length = buf.length ∧
      readLe 8 out p.off = some (word % 2^64) ∧
      ∀ off n, p.Apart off n → bytesAt out off n = bytesAt buf off n := by
  refine ⟨writeAt buf p.off (toLe 8 word),?_,?_,?_,?_⟩
  · simp [Patch.apply, hval, hword]
  · exact write_at_length (by simpa using hin)
  · exact read_le_write hin
  · intro off n ha
    exact bytes_at_write_apart (by simpa using hin) (by simpa [Patch.Apart] using ha)

/-- Patches that lie apart each see the buffer as it was. -/
theorem patches_apply (ps : List Patch) (buf : List UInt8)
    (hapart : ps.Pairwise fun p q => p.Apart q.off 8) (hin : ∀ p ∈ ps, p.off+8 ≤ buf.length)
    (hword : ∀ p ∈ ps, ∀ val, readLe 8 buf p.off = some val → ∃ word, p.word val = some word) :
    ∃ out, ps.foldlM Patch.apply buf = some out ∧ out.length = buf.length ∧
      (∀ p ∈ ps, ∀ val word, readLe 8 buf p.off = some val → p.word val = some word →
        readLe 8 out p.off = some (word % 2^64)) ∧
      ∀ off n, (∀ p ∈ ps, p.Apart off n) → bytesAt out off n = bytesAt buf off n := by
  induction ps generalizing buf with
  | nil => exact ⟨buf,rfl,rfl,by simp,fun _ _ _ => rfl⟩
  | cons p ps ih =>
    obtain ⟨hp,hps⟩ := List.pairwise_cons.1 hapart
    obtain ⟨val,hval⟩ := read_le_some 8 p.off buf (hin p (by simp))
    obtain ⟨word,hw⟩ := hword p (by simp) val hval
    obtain ⟨mid,hmid,hlen,hread,hframe⟩ := patch_apply (hin p (by simp)) hval hw
    have hsame : ∀ q ∈ ps, readLe 8 mid q.off = readLe 8 buf q.off := by
      intro q hq
      rw [readLe, readLe, hframe q.off 8 (hp q hq)]
    obtain ⟨out,hout,hlen',hread',hframe'⟩ := ih mid hps
      (fun q hq => by rw [hlen]; exact hin q (by simp [hq]))
      (fun q hq v hv => hword q (by simp [hq]) v (by rw [← hsame q hq]; exact hv))
    refine ⟨out,?_,hlen'.trans hlen,?_,?_⟩
    · rw [List.foldlM_cons, hmid]
      exact hout
    · intro q hq v w hv hw'
      cases List.mem_cons.1 hq with
      | inl he =>
        subst he
        rw [hval, Option.some.injEq] at hv
        subst hv
        rw [hw, Option.some.injEq] at hw'
        subst hw'
        have hfr := hframe' q.off 8 fun r hr => by
          have := hp r hr
          simp only [Patch.Apart] at this ⊢
          omega
        rw [readLe, hfr]
        exact hread
      | inr hm => exact hread' q hm v w (by rw [hsame q hm]; exact hv) hw'
    · intro off n ha
      rw [hframe' off n fun q hq => ha q (by simp [hq])]
      exact hframe off n (ha p (by simp))

end MoldMacho.Bytes
