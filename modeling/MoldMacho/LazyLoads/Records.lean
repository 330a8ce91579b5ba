import MoldMacho.Lib.Pieces
import MoldMacho.LazyLoads.Slots

/-!
# The records of the lazy dylibs

A record has words, the offsets of the symbols' names, the name of the dylib and
those of the symbols, each ended by a zero.
-/

set_option autoImplicit false

namespace MoldMacho.LazyLoads

open Symbols Align Bytes Pieces Rows

/-- Writes over some of a buffer; none where the source panics. -/
def put (buf : List UInt8) (off : ℕ) (bytes : List UInt8) : Option (List UInt8) :=
  if off+bytes.length ≤ buf.length then some (writeAt buf off bytes) else none

structure Addresses where
  base : ℕ
  isecAddr : ℕ → ℕ
  lazyLoadGot : ℕ

def Addresses.slotAddr (a : Addresses) (i : ℕ) : ℕ := a.lazyLoadGot+i*8

def dyldChainedPtr64Offset : ℕ := 6

def headerWords (ctx : Context) (a : Addresses) (r : LazyDylib) : List ℕ :=
  let isWeak := (ctx.dylibs[r.dylib]?.map Dylib.isWeak).getD false
  [24+r.syms.length*4, a.isecAddr r.flag-a.base,
    (dyldChainedPtr64Offset <<< 16) ||| isWeak.toNat,
    a.slotAddr r.gotStart-a.base, r.syms.length, 24]

/-- A symbol's name after the names before, and its offset in the array. -/
def putSym (ctx : Context) (st : List UInt8 × ℕ) (e : SymbolId × ℕ) : Option (List UInt8 × ℕ) := do
  let named ← put st.1 st.2 (ctx.names e.1)
  let record ← put named (24+e.2*4) (toLe 4 st.2)
  some (record,st.2+(ctx.names e.1).length+1)

def copyRecord (ctx : Context) (a : Addresses) (r : LazyDylib) (record : List UInt8) :
    Option (List UInt8) := do
  let record ← (headerWords ctx a r).zipIdx.foldlM (fun buf e => put buf (e.2*4) (toLe 4 e.1)) record
  let strs := 24+r.syms.length*4
  let record ← put record strs (ctx.installName r.dylib)
  let (record,_) ← r.syms.zipIdx.foldlM (putSym ctx) (record,strs+(ctx.installName r.dylib).length+1)
  some record

def copyDylib (ctx : Context) (a : Addresses) (buf : List UInt8) (r : LazyDylib) :
    Option (List UInt8) := do
  let record ← bytesAt buf r.offset r.size
  let out ← copyRecord ctx a r record
  some (writeAt buf r.offset out)

def copyBuf (ctx : Context) (a : Addresses) (dylibs : List LazyDylib) (buf : List UInt8) :
    Option (List UInt8) := dylibs.foldlM (copyDylib ctx a) buf

/-! ## The bytes of a record -/

def zeros (n : ℕ) : List UInt8 := List.replicate n 0

@[simp] theorem zeros_length (n : ℕ) : (zeros n).length = n := List.length_replicate

theorem zeros_add (m n : ℕ) : zeros (m+n) = zeros m ++ zeros n := List.replicate_add m n 0

/-- Bytes put where there are zeros. -/
theorem put_zeros (front bytes back : List UInt8) {n : ℕ} (off : ℕ)
    (hoff : off = front.length) (hn : bytes.length ≤ n) :
    put (front ++ zeros n ++ back) off bytes =
      some (front ++ bytes ++ zeros (n-bytes.length) ++ back) := by
  subst hoff
  obtain ⟨k,rfl⟩ := Nat.exists_eq_add_of_le hn
  have hle : front.length+bytes.length ≤ (front ++ zeros (bytes.length+k) ++ back).length := by
    simp only [List.length_append, zeros_length]
    omega
  rw [put, if_pos hle, writeAt, Nat.add_sub_cancel_left, zeros_add, List.append_assoc front,
    List.take_left, List.drop_append]
  simp

/-- The words of a table written one by one. -/
theorem put_words (n : ℕ) {ws : List ℕ} {front : List UInt8} {k : ℕ} (back : List UInt8)
    (hk : front.length = k*n) :
    (ws.zipIdx k).foldlM (fun buf e => put buf (e.2*n) (toLe n e.1))
        (front ++ zeros (ws.length*n) ++ back) =
      some (front ++ ws.flatMap (toLe n) ++ back) := by
  have hrows : (ws.zipIdx k).flatMap (fun e => toLe n e.1) = ws.flatMap (toLe n) := by
    rw [← List.flatMap_map, List.zipIdx_map_fst]
  rw [← hrows]
  exact rows_written (fun i => i*n) (fun e => toLe n e.1) (fun _ => (Nat.zero_add _).symm)
    (fun _ => to_le_length _ _) back (by rw [hk, Nat.zero_add]) (zeros_length _)

/-- Where names start that follow one another, each ended by a zero. -/
def nameOffsets : ℕ → List Name → List ℕ
  | _, [] => []
  | start, name::names => start::nameOffsets (start+name.length+1) names

def nameBytes (names : List Name) : List UInt8 := names.flatMap (· ++ [0])

theorem put_sym {ctx : Context} {id : SymbolId} {front : List UInt8} (strs : List UInt8)
    {k m n start : ℕ} (hk : front.length = 24+k*4) (hstart : start = front.length+(m+1)*4+strs.length)
    (hn : (ctx.names id).length+1 ≤ n) :
    putSym ctx (front ++ zeros ((m+1)*4) ++ strs ++ zeros n,start) (id,k) =
      some (front ++ toLe 4 start ++ zeros (m*4) ++ (strs ++ (ctx.names id ++ [0])) ++
        zeros (n-((ctx.names id).length+1)),start+(ctx.names id).length+1) := by
  obtain ⟨rest,rfl⟩ := Nat.exists_eq_add_of_le hn
  have hname := put_zeros (front ++ zeros ((m+1)*4) ++ strs) (ctx.names id) []
    (n := (ctx.names id).length+1+rest) start
    (by rw [List.length_append, List.length_append, zeros_length, hstart]) (by omega)
  have hrest : (ctx.names id).length+1+rest-(ctx.names id).length = 1+rest := by omega
  rw [List.append_nil, List.append_nil, hrest] at hname
  have hoff := put_zeros front (toLe 4 start) (strs ++ ctx.names id ++ zeros (1+rest))
    (n := (m+1)*4) (24+k*4) hk.symm (by simp)
  rw [← List.append_assoc, ← List.append_assoc, to_le_length, Nat.succ_mul, Nat.add_sub_cancel] at hoff
  have hlast : zeros (1+rest) = [0] ++ zeros rest := zeros_add 1 rest
  rw [putSym, hname, Option.bind_eq_bind, Option.bind_some, Nat.succ_mul, hoff, Option.bind_some,
    hlast, Nat.add_sub_cancel_left]
  simp only [List.append_assoc]

theorem put_syms (ctx : Context) (syms : List SymbolId) (front strs : List UInt8) (k n start : ℕ)
    (hk : front.length = 24+k*4) (hstart : start = front.length+syms.length*4+strs.length)
    (hn : (nameBytes (syms.map ctx.names)).length ≤ n) :
    ∃ stop, (syms.zipIdx k).foldlM (putSym ctx)
        (front ++ zeros (syms.length*4) ++ strs ++ zeros n,start) =
      some (front ++ (nameOffsets start (syms.map ctx.names)).flatMap (toLe 4) ++ strs ++
        nameBytes (syms.map ctx.names) ++ zeros (n-(nameBytes (syms.map ctx.names)).length),stop) := by
  induction syms generalizing front strs k n start with
  | nil => exact ⟨start,by simp [zeros, nameOffsets, nameBytes]⟩
  | cons id syms ih =>
    have hbytes : nameBytes ((id::syms).map ctx.names) =
        ctx.names id ++ [0] ++ nameBytes (syms.map ctx.names) := rfl
    have hlen : (nameBytes ((id::syms).map ctx.names)).length =
        (ctx.names id).length+1+(nameBytes (syms.map ctx.names)).length := by
      rw [hbytes, List.length_append, List.length_append, List.length_singleton]
    rw [hlen] at hn ⊢
    have hstep := put_sym strs hk hstart (Nat.le_trans (Nat.le_add_right _ _) hn)
    obtain ⟨stop,hrest⟩ := ih (front ++ toLe 4 start) (strs ++ (ctx.names id ++ [0]))
      (k+1) (n-((ctx.names id).length+1)) (start+(ctx.names id).length+1)
      (by simp; omega) (by simp at hstart ⊢; omega) (by omega)
    refine ⟨stop,?_⟩
    rw [List.zipIdx_cons, List.foldlM_cons, List.length_cons, hstep, Option.bind_eq_bind,
      Option.bind_some, hrest, hbytes, Nat.sub_add_eq n ((ctx.names id).length+1),
      List.map_cons, nameOffsets]
    simp only [List.flatMap_cons, List.append_assoc]

/-- All of a record. -/
def recordBytes (ctx : Context) (a : Addresses) (r : LazyDylib) : List UInt8 :=
  let names := r.syms.map ctx.names
  let install := ctx.installName r.dylib
  let start := 24+r.syms.length*4
  let used := recordLength ctx install r.syms
  (headerWords ctx a r).flatMap (toLe 4) ++
    (nameOffsets (start+install.length+1) names).flatMap (toLe 4) ++
    (install ++ [0]) ++ nameBytes names ++ zeros (r.size-used)

theorem name_bytes_length (ctx : Context) (syms : List SymbolId) :
    (nameBytes (syms.map ctx.names)).length = (syms.map fun id => (ctx.names id).length+1).sum := by
  simp [nameBytes, Function.comp_def]

theorem record_length_parts (ctx : Context) (install : Name) (syms : List SymbolId) :
    recordLength ctx install syms =
      24+(syms.length*4+(install.length+(1+(nameBytes (syms.map ctx.names)).length))) := by
  rw [recordLength, name_bytes_length]
  omega

/-- The record is written in a buffer of zeros that it fits. -/
theorem copy_record {ctx : Context} {a : Addresses} {r : LazyDylib}
    (h : recordLength ctx (ctx.installName r.dylib) r.syms ≤ r.size) :
    copyRecord ctx a r (zeros r.size) = some (recordBytes ctx a r) := by
  obtain ⟨rest,hrest⟩ := Nat.exists_eq_add_of_le h
  have hpad : r.size-recordLength ctx (ctx.installName r.dylib) r.syms = rest := by omega
  rw [record_length_parts] at hrest
  have hwords : ((headerWords ctx a r).flatMap (toLe 4)).length = 24 := by
    simp [headerWords]
  -- the buffer has room for the words, then the offsets, then the names
  have hzeros : zeros r.size =
      [] ++ zeros ((headerWords ctx a r).length*4) ++ (zeros (r.syms.length*4) ++
        zeros ((ctx.installName r.dylib).length+(1+((nameBytes (r.syms.map ctx.names)).length+rest)))) := by
    rw [List.nil_append, ← zeros_add, ← zeros_add, hrest]
    congr 1
    simp only [headerWords, List.length_cons, List.length_nil]
    omega
  have hinstall := put_zeros ((headerWords ctx a r).flatMap (toLe 4) ++ zeros (r.syms.length*4))
    (ctx.installName r.dylib) [] (24+r.syms.length*4)
    (by rw [List.length_append, hwords, zeros_length])
    (Nat.le_add_right _ (1+((nameBytes (r.syms.map ctx.names)).length+rest)))
  rw [List.append_nil, List.append_nil, Nat.add_sub_cancel_left, zeros_add 1] at hinstall
  obtain ⟨stop,hsyms⟩ := put_syms ctx r.syms ((headerWords ctx a r).flatMap (toLe 4))
    (ctx.installName r.dylib ++ [0]) 0 ((nameBytes (r.syms.map ctx.names)).length+rest)
    (24+r.syms.length*4+(ctx.installName r.dylib).length+1) hwords
    (by rw [hwords, List.length_append, List.length_singleton, Nat.add_assoc])
    (Nat.le_add_right _ _)
  have hone : zeros 1 = [0] := rfl
  rw [← List.append_assoc, Nat.add_sub_cancel_left] at hsyms
  rw [copyRecord, hzeros, put_words 4 _ rfl, Option.bind_eq_bind, Option.bind_some, List.nil_append,
    ← List.append_assoc]
  dsimp only
  rw [hinstall, Option.bind_some, hone, ← List.append_assoc, hsyms, recordBytes, hpad]
  rfl

/-- A record's bytes and padding are of its size, where they fit. -/
def LazyDylib.Fits (ctx : Context) (r : LazyDylib) : Prop :=
  recordLength ctx (ctx.installName r.dylib) r.syms ≤ r.size

theorem offsets_length (start : ℕ) (names : List Name) :
    (nameOffsets start names).length = names.length := by
  induction names generalizing start with
  | nil => rfl
  | cons name names ih => rw [nameOffsets, List.length_cons, List.length_cons, ih]

theorem words_length (ws : List ℕ) : (ws.flatMap (toLe 4)).length = ws.length*4 := by
  induction ws with
  | nil => rfl
  | cons w ws ih =>
    rw [List.flatMap_cons, List.length_append, ih, to_le_length, List.length_cons, Nat.succ_mul,
      Nat.add_comm]

theorem record_bytes_length {ctx : Context} (a : Addresses) {r : LazyDylib} (h : r.Fits ctx) :
    (recordBytes ctx a r).length = r.size := by
  have hparts := record_length_parts ctx (ctx.installName r.dylib) r.syms
  have hwords : (headerWords ctx a r).length = 6 := rfl
  rw [LazyDylib.Fits] at h
  simp only [recordBytes, List.length_append, words_length, offsets_length, List.length_map, hwords,
    List.length_singleton, zeros_length]
  omega

theorem copy_records {ctx : Context} (a : Addresses) {l : List LazyDylib} {lo hi : ℕ}
    (h : Tiles LazyDylib.offset LazyDylib.size lo l hi) (hfit : ∀ r ∈ l, r.Fits ctx)
    (front : List UInt8) (hfront : front.length = lo) :
    copyBuf ctx a l (front ++ zeros (hi-lo)) = some (front ++ l.flatMap (recordBytes ctx a)) := by
  induction l generalizing lo front with
  | nil =>
    obtain rfl : lo = hi := h
    simp [copyBuf, zeros]
  | cons r l ih =>
    obtain ⟨rfl,hrest⟩ := h
    have hr := hfit r List.mem_cons_self
    have hle : r.offset+r.size ≤ hi := hrest.in_row.le
    have hlen := record_bytes_length a hr
    have hzeros : zeros (hi-r.offset) = zeros r.size ++ zeros (hi-(r.offset+r.size)) := by
      rw [← zeros_add]
      congr 1
      omega
    have hread : bytesAt (front ++ zeros (hi-r.offset)) r.offset r.size = some (zeros r.size) := by
      rw [bytesAt, if_pos (by rw [List.length_append, zeros_length]; omega), ← hfront, List.drop_left,
        hfront, hzeros, List.take_left' (zeros_length r.size)]
    have hwrite : writeAt (front ++ zeros (hi-r.offset)) r.offset (recordBytes ctx a r) =
        front ++ recordBytes ctx a r ++ zeros (hi-(r.offset+r.size)) := by
      rw [writeAt, hlen, hzeros, ← hfront, List.take_left, List.drop_append]
      simp
    have hstep : copyDylib ctx a (front ++ zeros (hi-r.offset)) r =
        some (front ++ recordBytes ctx a r ++ zeros (hi-(r.offset+r.size))) := by
      rw [copyDylib, hread, Option.bind_eq_bind, Option.bind_some, copy_record hr,
        Option.bind_some, hwrite]
    have hnext := ih hrest (fun x hx => hfit x (List.mem_cons_of_mem r hx))
      (front ++ recordBytes ctx a r) (by rw [List.length_append, hlen, hfront])
    rw [copyBuf] at hnext
    rw [copyBuf, List.foldlM_cons, hstep, Option.bind_eq_bind, Option.bind_some, hnext,
      List.flatMap_cons, List.append_assoc]

/-! ## Reading a record -/

/-- A name's offset leads to it. -/
theorem names_hold {buf : List UInt8} {names : List Name} {start k : ℕ} {name : Name}
    (h : Holds buf start (nameBytes names)) (hk : names[k]? = some name) :
    ∃ off, (nameOffsets start names)[k]? = some off ∧ Holds buf off (name ++ [0]) := by
  induction names generalizing start k with
  | nil => cases hk
  | cons first names ih =>
    have hcons : nameBytes (first::names) = first ++ [0] ++ nameBytes names := rfl
    rw [hcons] at h
    cases k with
    | zero =>
      obtain rfl := Option.some.inj hk
      exact ⟨start,rfl,h.left⟩
    | succ k =>
      have hright := h.right
      rw [List.length_append, List.length_singleton] at hright
      exact ih hright hk

/-- What a reader finds in a record: its words, the dylib's name where the first of them
says, and each symbol's name where its offset leads. -/
structure RecordReads (ctx : Context) (a : Addresses) (r : LazyDylib) (record : List UInt8) :
    Prop where
  words : ∀ (i : ℕ) w, (headerWords ctx a r)[i]? = some w → readLe 4 record (i*4) = some (w%2^32)
  install : ∃ off, readLe 4 record 0 = some off ∧
    bytesAt record off ((ctx.installName r.dylib).length+1) = some (ctx.installName r.dylib ++ [0])
  names : ∀ (i : ℕ) id, r.syms[i]? = some id → ∃ off, readLe 4 record (24+i*4) = some off ∧
    bytesAt record off ((ctx.names id).length+1) = some (ctx.names id ++ [0])

theorem holds_word {buf : List UInt8} {pos n v : ℕ} (h : Holds buf pos (toLe n v)) :
    readLe n buf pos = some (v % 256^n) := by
  obtain ⟨hle,c,hc⟩ := h
  exact (read_field hle hc).1

theorem holds_ended {buf : List UInt8} {pos : ℕ} {name : Name} (h : Holds buf pos (name ++ [0])) :
    bytesAt buf pos (name.length+1) = some (name ++ [0]) := by
  have hbytes := h.bytes_at
  rwa [List.length_append, List.length_singleton] at hbytes

theorem record_reads {ctx : Context} (a : Addresses) {r : LazyDylib} (h : r.Fits ctx)
    (hsize : r.size < 2^32) : RecordReads ctx a r (recordBytes ctx a r) := by
  have hall : Holds (recordBytes ctx a r) 0
      ((headerWords ctx a r).flatMap (toLe 4) ++
        (nameOffsets (24+r.syms.length*4+(ctx.installName r.dylib).length+1)
          (r.syms.map ctx.names)).flatMap (toLe 4) ++
        (ctx.installName r.dylib ++ [0]) ++ nameBytes (r.syms.map ctx.names) ++
        zeros (r.size-recordLength ctx (ctx.installName r.dylib) r.syms)) := by
    have hself := holds_mid [] (recordBytes ctx a r) []
    rwa [List.nil_append, List.append_nil] at hself
  have hwords : ∀ (i : ℕ) w, (headerWords ctx a r)[i]? = some w →
      readLe 4 (recordBytes ctx a r) (i*4) = some (w%2^32) := by
    intro i w hw
    have hrow := hall.left.left.left.left.row (fun _ _ => to_le_length 4 _) hw
    rw [Nat.zero_add] at hrow
    exact holds_word hrow
  have hlen := record_bytes_length a h
  constructor
  case words => exact hwords
  case install =>
    have hinstall := hall.left.left.right
    have hsix : (headerWords ctx a r).length = 6 := rfl
    rw [List.length_append, words_length, words_length, offsets_length, List.length_map,
      Nat.zero_add, hsix] at hinstall
    have hle := hinstall.stop_le
    refine ⟨24+r.syms.length*4,?_,holds_ended hinstall⟩
    rw [← Nat.mod_eq_of_lt (a := 24+r.syms.length*4) (b := 2^32) (by omega)]
    exact hwords 0 _ rfl
  case names =>
    intro i id hid
    have hnames := hall.left.right
    simp only [List.length_append, words_length, offsets_length, List.length_map,
      List.length_singleton, Nat.zero_add] at hnames
    obtain ⟨off,hoff,hname⟩ := names_hold hnames (by rw [List.getElem?_map, hid]; rfl)
    have hrow := hall.left.left.left.right.row (fun _ _ => to_le_length 4 _) hoff
    rw [words_length, Nat.zero_add] at hrow
    have hle := hname.stop_le
    refine ⟨off,?_,holds_ended hname⟩
    rw [← Nat.mod_eq_of_lt (a := off) (b := 256^4) (by omega)]
    exact holds_word hrow

end MoldMacho.LazyLoads
