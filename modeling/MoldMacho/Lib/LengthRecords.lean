import MoldMacho.Lib.Bytes

/-!
# Records that begin with their length

A section of records, each of which starts with four bytes that hold the length of
the rest, splits into them. Records are laid out one after another by offsets of 32
bits and copied into a buffer of the section's size, or appended.
-/

set_option autoImplicit false

namespace MoldMacho.LengthRecords
open Bytes

/-- The record's first four bytes are the length of the others. -/
def Prefixed (rec : List UInt8) : Prop := readLe 4 rec 0 = some (rec.length-4)

/-- The records from an offset on, each with where it starts. -/
def split (contents : List UInt8) (pos : ℕ) : Option (List (ℕ × List UInt8)) :=
  if pos < contents.length then
    match readLe 4 contents pos with
    | none => none
    | some len =>
      match bytesAt contents pos (4+len) with
      | none => none
      | some rec => (split contents (pos+4+len)).map fun recs => (pos,rec)::recs
  else some []
termination_by contents.length - pos

/-- Where records that stand one after another start. -/
def placed : ℕ → List (List UInt8) → List (ℕ × List UInt8)
  | _, [] => []
  | pos, rec::recs => (pos,rec)::placed (pos+rec.length) recs

theorem prefixed_length {rec : List UInt8} (h : Prefixed rec) : 4 ≤ rec.length := by
  obtain ⟨bytes,hbytes,-⟩ := Option.map_eq_some_iff.1 h
  have hle := (bytes_at_some hbytes).1
  omega

/-- Records that stand one after another are what the section splits into. -/
theorem split_placed {contents : List UInt8} {recs : List (List UInt8)} {pos : ℕ}
    (hrecs : ∀ rec ∈ recs, Prefixed rec) (hpos : pos ≤ contents.length)
    (h : contents.drop pos = recs.flatten) : split contents pos = some (placed pos recs) := by
  induction recs generalizing pos with
  | nil =>
    rw [List.flatten_nil, List.drop_eq_nil_iff] at h
    rw [split, if_neg (by omega)]
    rfl
  | cons rec recs ih =>
    have hrec := hrecs rec List.mem_cons_self
    have hlen := prefixed_length hrec
    rw [List.flatten_cons] at h
    obtain ⟨hnext,hdrop⟩ := drop_next hpos h
    have hread : readLe 4 contents pos = some (rec.length-4) := by
      obtain ⟨bytes,hbytes,hval⟩ := Option.map_eq_some_iff.1 hrec
      obtain ⟨-,rfl⟩ := bytes_at_some hbytes
      rw [readLe, bytesAt, if_pos (by omega), Option.map_some, h,
        List.take_append_of_le_length hlen]
      exact congrArg some hval
    have hbytes := bytes_at_field hpos h
    rw [split, if_pos (by omega), hread]
    dsimp only
    rw [show 4 + (rec.length-4) = rec.length by omega, hbytes]
    dsimp only
    rw [show pos + 4 + (rec.length-4) = pos + rec.length by omega,
      ih (fun rec' hrec' => hrecs rec' (List.mem_cons_of_mem _ hrec')) hnext hdrop]
    rfl

/-- Each record stands past those before it, and ends with the section or before. -/
theorem placed_apart (recs : List (List UInt8)) (pos : ℕ) :
    (∀ p ∈ placed pos recs, pos ≤ p.1 ∧ p.1+p.2.length ≤ pos+recs.flatten.length) ∧
      (placed pos recs).Pairwise fun p q => p.1+p.2.length ≤ q.1 := by
  induction recs generalizing pos with
  | nil => exact ⟨by simp [placed],List.Pairwise.nil⟩
  | cons rec recs ih =>
    obtain ⟨hin,hapart⟩ := ih (pos+rec.length)
    rw [List.flatten_cons, List.length_append]
    constructor
    · intro p hp
      rcases List.mem_cons.1 hp with rfl | hp
      · exact ⟨le_rfl,by dsimp only; omega⟩
      · obtain ⟨hlow,hhigh⟩ := hin p hp
        constructor <;> omega
    · exact List.pairwise_cons.2 ⟨fun p hp => (hin p hp).1,hapart⟩

/-! ## Laying records out -/

section Place
variable {ρ : Type}

/-- Each record with its offset, in 32 bits, from `off` on. -/
def place (size : ρ → ℕ) : ℕ → List ρ → List (ρ × ℕ)
  | _, [] => []
  | off, r::rs => (r,off)::place size ((off+size r) % 2^32) rs

/-- The offset past the last. -/
def stop (size : ρ → ℕ) (off : ℕ) (rs : List ρ) : ℕ := rs.foldl (fun off r => (off+size r) % 2^32) off

variable {size : ρ → ℕ}

theorem place_map_fst (off : ℕ) (rs : List ρ) : (place size off rs).map Prod.fst = rs := by
  induction rs generalizing off with
  | nil => rfl
  | cons r rs ih => rw [place, List.map_cons, ih]

theorem stop_mod {off : ℕ} (hoff : off < 2^32) (rs : List ρ) :
    stop size off rs = (off + (rs.map size).sum) % 2^32 := by
  induction rs generalizing off with
  | nil => exact (Nat.mod_eq_of_lt hoff).symm
  | cons r rs ih =>
    show stop size ((off+size r) % 2^32) rs = _
    rw [ih (Nat.mod_lt _ (by decide)), List.map_cons, List.sum_cons, Nat.mod_add_mod, Nat.add_assoc]

variable {img : ρ × ℕ → List UInt8}

/-- Records within 32 bits start where they stand. -/
theorem place_placed (hsize : ∀ p, (img p).length = size p.1) {off : ℕ} {rs : List ρ}
    (h : off + (rs.map size).sum < 2^32) :
    (place size off rs).map (fun p => (p.2,img p)) = placed off ((place size off rs).map img) := by
  induction rs generalizing off with
  | nil => rfl
  | cons r rs ih =>
    rw [List.map_cons, List.sum_cons] at h
    rw [place, List.map_cons, List.map_cons, placed, Nat.mod_eq_of_lt (by omega), ih (by omega),
      hsize]

theorem place_flatten_length (hsize : ∀ p, (img p).length = size p.1) (off : ℕ) (rs : List ρ) :
    ((place size off rs).map img).flatten.length = (rs.map size).sum := by
  induction rs generalizing off with
  | nil => rfl
  | cons r rs ih =>
    rw [place, List.map_cons, List.flatten_cons, List.length_append, ih, hsize, List.map_cons,
      List.sum_cons]

end Place

/-! ## Copying records into a buffer -/

/-- Writes bytes in place, if the buffer has room. -/
def put (buf : List UInt8) (off : ℕ) (bytes : List UInt8) : Option (List UInt8) :=
  if off+bytes.length ≤ buf.length then some (writeAt buf off bytes) else none

theorem write_get {buf bytes : List UInt8} {off : ℕ} (h : off+bytes.length ≤ buf.length) (i : ℕ) :
    (writeAt buf off bytes)[i]? =
      if off ≤ i ∧ i < off+bytes.length then bytes[i-off]? else buf[i]? := by
  have hlen : (buf.take off).length = off := by
    rw [List.length_take]
    omega
  rw [writeAt, List.append_assoc]
  rcases Nat.lt_or_ge i off with hi | hi
  · rw [List.getElem?_append_left (by omega), List.getElem?_take_of_lt hi, if_neg (by omega)]
  · rw [List.getElem?_append_right (by omega), hlen]
    rcases Nat.lt_or_ge i (off+bytes.length) with hi' | hi'
    · rw [List.getElem?_append_left (by omega), if_pos ⟨hi,hi'⟩]
    · rw [List.getElem?_append_right (by omega), List.getElem?_drop, if_neg (by omega)]
      congr 1
      omega

/-- A write inside what was written before is a write of that, changed. -/
theorem write_inside {buf bytes inner : List UInt8} {off p : ℕ}
    (h : off+bytes.length ≤ buf.length) (hp : p+inner.length ≤ bytes.length) :
    writeAt (writeAt buf off bytes) (off+p) inner = writeAt buf off (writeAt bytes p inner) := by
  have hlen := write_at_length hp
  have hbuf := write_at_length h
  apply List.ext_getElem?
  intro i
  rw [write_get (by omega), write_get h, write_get (by rw [hlen]; exact h), hlen, write_get hp]
  by_cases hin : off ≤ i ∧ i < off+bytes.length
  · rw [if_pos hin, if_pos hin]
    by_cases hi : p ≤ i-off ∧ i-off < p+inner.length
    · rw [if_pos hi, if_pos (by omega)]
      congr 1
      omega
    · rw [if_neg hi, if_neg (by omega)]
  · rw [if_neg hin, if_neg hin, if_neg (by omega)]

section Copy
variable {ρ : Type} {size : ρ → ℕ} {img : ρ × ℕ → List UInt8}

/-- Records copied to their offsets in a buffer under 4 GiB stand one after another. -/
theorem puts_placed (hsize : ∀ p, (img p).length = size p.1) {rs : List ρ} {off : ℕ}
    {buf out : List UInt8} (hbuf : buf.length < 2^32) (hoff : off ≤ buf.length)
    (h : (place size off rs).foldlM (fun buf p => put buf p.2 (img p)) buf = some out) :
    off + (rs.map size).sum ≤ buf.length ∧ out.take off = buf.take off ∧
      out.drop off =
        ((place size off rs).map img).flatten ++ buf.drop (off + (rs.map size).sum) := by
  induction rs generalizing off buf with
  | nil =>
    obtain rfl := Option.some.inj h
    simp [place, hoff]
  | cons r rs ih =>
    rw [place, List.foldlM_cons, Option.bind_eq_bind, Option.bind_eq_some_iff] at h
    obtain ⟨mid,hmid,h⟩ := h
    rw [put] at hmid
    dsimp only at hmid
    split at hmid
    · next hle =>
      obtain rfl := Option.some.inj hmid
      have hr : (img (r,off)).length = size r := hsize (r,off)
      rw [hr] at hle
      have hlen : (writeAt buf off (img (r,off))).length = buf.length :=
        write_at_length (by rw [hr]; exact hle)
      -- The record ends in the buffer, so its end fits 32 bits.
      rw [Nat.mod_eq_of_lt (by omega)] at h
      obtain ⟨hsum,htake,hdrop⟩ := ih (by omega) (by omega) h
      have hfirst : (writeAt buf off (img (r,off))).take (off+size r) =
          buf.take off ++ img (r,off) := by
        rw [writeAt, List.take_append_of_le_length (by simp; omega), List.take_of_length_le]
        simp
        omega
      have hrest : (writeAt buf off (img (r,off))).drop (off + size r + (rs.map size).sum) =
          buf.drop (off + size r + (rs.map size).sum) := by
        rw [writeAt, List.drop_append, List.drop_eq_nil_of_le (by simp; omega), List.nil_append,
          List.drop_drop]
        congr 1
        simp
        omega
      rw [hlen] at hsum
      rw [hrest] at hdrop
      rw [hfirst] at htake
      rw [List.map_cons, List.sum_cons, place, Nat.mod_eq_of_lt (by omega), List.map_cons,
        List.flatten_cons, ← Nat.add_assoc]
      refine ⟨hsum,?_,?_⟩
      · have htake' := congrArg (List.take off) htake
        rw [List.take_take, Nat.min_eq_left (by omega),
          List.take_append_of_le_length (by simp; omega), List.take_take, Nat.min_self] at htake'
        exact htake'
      · have hout := congrArg (List.drop off) (List.take_append_drop (off+size r) out)
        rw [htake, hdrop, List.append_assoc, List.drop_append_of_le_length (by simp; omega),
          List.drop_eq_nil_of_le (by simp), List.nil_append] at hout
        rw [← hout, List.append_assoc]
    · cases hmid

/-- A buffer with room takes every record. -/
theorem puts_some (hsize : ∀ p, (img p).length = size p.1) {rs : List ρ} {off : ℕ}
    {buf : List UInt8} (hbuf : buf.length < 2^32) (h : off + (rs.map size).sum ≤ buf.length) :
    ∃ out, (place size off rs).foldlM (fun buf p => put buf p.2 (img p)) buf = some out := by
  induction rs generalizing off buf with
  | nil => exact ⟨buf,rfl⟩
  | cons r rs ih =>
    rw [List.map_cons, List.sum_cons] at h
    have hr : (img (r,off)).length = size r := hsize (r,off)
    have hlen : (writeAt buf off (img (r,off))).length = buf.length :=
      write_at_length (by omega)
    obtain ⟨out,hout⟩ := @ih ((off+size r) % 2^32) (writeAt buf off (img (r,off))) (by omega)
      (by rw [Nat.mod_eq_of_lt (by omega)]; omega)
    refine ⟨out,?_⟩
    rw [place, List.foldlM_cons, put, if_pos (by dsimp only; omega)]
    exact hout

end Copy

end MoldMacho.LengthRecords
