import MoldMacho.Lib.Bytes
import MoldMacho.Lib.LengthRecords
import MoldMacho.Lib.Lists
import MoldMacho.Lib.Rows

/-!
# Bytes laid out in pieces

A run of fields, each a little-endian integer of a width; bytes that stand at
an offset of a buffer; and words filled in once the buffer is laid out.
-/

set_option autoImplicit false

namespace MoldMacho.Pieces

open Bytes MoldMacho.Lists Rows
open LengthRecords (put)

section Fields

/-- Fields by width and value. -/
def fieldBytes (fields : List (ℕ × ℕ)) : List UInt8 := fields.flatMap fun f => toLe f.1 f.2

def width (fields : List (ℕ × ℕ)) : ℕ := (fields.map Prod.fst).sum

@[simp] theorem field_bytes_length (fields : List (ℕ × ℕ)) :
    (fieldBytes fields).length = width fields := by
  induction fields with
  | nil => rfl
  | cons f fields ih =>
    rw [fieldBytes, List.flatMap_cons, List.length_append, to_le_length, width, List.map_cons,
      List.sum_cons]
    exact congrArg _ ih

end Fields

section Held

variable {buf a b : List UInt8} {pos : ℕ}

/-- The bytes stand at an offset of the buffer. -/
def Holds (buf : List UInt8) (pos : ℕ) (bytes : List UInt8) : Prop :=
  pos ≤ buf.length ∧ ∃ c, buf.drop pos = bytes ++ c

theorem Holds.bytes_at (h : Holds buf pos a) : bytesAt buf pos a.length = some a := by
  obtain ⟨hle,c,hc⟩ := h
  exact bytes_at_field hle hc

theorem Holds.left (h : Holds buf pos (a ++ b)) : Holds buf pos a := by
  obtain ⟨hle,c,hc⟩ := h
  exact ⟨hle,b ++ c,by rw [hc, List.append_assoc]⟩

theorem Holds.right (h : Holds buf pos (a ++ b)) : Holds buf (pos+a.length) b := by
  obtain ⟨hle,c,hc⟩ := h
  rw [List.append_assoc] at hc
  exact ⟨(drop_next hle hc).1,c,(drop_next hle hc).2⟩

theorem Holds.stop_le (h : Holds buf pos a) : pos+a.length ≤ buf.length := by
  obtain ⟨hle,c,hc⟩ := h
  exact (drop_next hle hc).1

theorem holds_mid (front bytes back : List UInt8) :
    Holds (front ++ bytes ++ back) front.length bytes :=
  ⟨by simp,back,by rw [List.append_assoc, List.drop_left]⟩

/-- A buffer's bytes in a file it is part of. -/
theorem Holds.inside (h : Holds buf pos a) (front back : List UInt8) :
    Holds (front ++ buf ++ back) (front.length+pos) a := by
  obtain ⟨hle,c,hc⟩ := h
  refine ⟨?_,c ++ back,?_⟩
  · rw [List.length_append, List.length_append]
    omega
  · rw [List.append_assoc, ← List.drop_drop, List.drop_left, List.drop_append_of_le_length hle,
      hc, List.append_assoc]

/-- The first bytes of those held. -/
theorem Holds.take (h : Holds buf pos a) (n : ℕ) :
    bytesAt buf pos (a.take n).length = some (a.take n) := by
  rw [← List.take_append_drop n a] at h
  exact h.left.bytes_at

/-- A field read at its place. -/
theorem Holds.field {fields : List (ℕ × ℕ)} (h : Holds buf pos (fieldBytes fields)) (k : ℕ)
    {n v : ℕ} (hk : fields[k]? = some (n,v)) {off : ℕ} (hoff : off = pos+width (fields.take k)) :
    readLe n buf off = some (v % 256^n) := by
  obtain ⟨hle,c,hc⟩ := h
  obtain ⟨hle',c',hdrop⟩ := drop_item hk hle hc
  have hlen : ((fields.take k).flatMap fun f => toLe f.1 f.2).length = width (fields.take k) :=
    field_bytes_length _
  rw [hlen, ← hoff] at hle' hdrop
  exact (read_field hle' hdrop).1

theorem flat_map_take_length {α : Type} {enc : α → List UInt8} {n : ℕ} {rows : List α}
    (hlen : ∀ r ∈ rows, (enc r).length = n) {k : ℕ} (hk : k ≤ rows.length) :
    ((rows.take k).flatMap enc).length = k*n := by
  induction k with
  | zero => rw [List.take_zero, Nat.zero_mul]; rfl
  | succ k ih =>
    have hget : rows[k]? = some rows[k] := List.getElem?_eq_getElem hk
    rw [List.take_add_one, hget, List.flatMap_append, List.length_append, ih (by omega),
      Nat.succ_mul, Option.toList_some, List.flatMap_singleton, hlen _ (List.getElem_mem hk)]

/-- A row of a table whose rows are of one size. -/
theorem Holds.row {α : Type} {enc : α → List UInt8} {n : ℕ} {rows : List α}
    (hlen : ∀ r ∈ rows, (enc r).length = n) (h : Holds buf pos (rows.flatMap enc)) {k : ℕ} {r : α}
    (hk : rows[k]? = some r) : Holds buf (pos+k*n) (enc r) := by
  obtain ⟨hle,c,hc⟩ := h
  have hrow := drop_item hk hle hc
  obtain ⟨hlt,hget⟩ := List.getElem?_eq_some_iff.1 hk
  rwa [flat_map_take_length hlen hlt.le] at hrow

/-- A table read row by row. -/
theorem Holds.rows {α β : Type} {enc : α → List UInt8} {n : ℕ} {rows : List α}
    (hlen : ∀ r ∈ rows, (enc r).length = n) (h : Holds buf pos (rows.flatMap enc))
    {read : ℕ → Option β} {g : α → β}
    (hread : ∀ k r, rows[k]? = some r → Holds buf (pos+k*n) (enc r) → read (pos+k*n) = some (g r)) :
    (List.range rows.length).mapM (fun k => read (pos+k*n)) = some (rows.map g) :=
  mapM_range_some fun k r hk => hread k r hk (h.row hlen hk)

theorem tiles_length {α : Type} {enc : α → List UInt8} {start size : α → ℕ} {l : List α} {lo hi : ℕ}
    (h : Tiles start size lo l hi) (hlen : ∀ x ∈ l, (enc x).length = size x) :
    lo+(l.flatMap enc).length = hi := by
  induction l generalizing lo with
  | nil => exact h
  | cons y l ih =>
    have hrest := ih h.2 fun z hz => hlen z (List.mem_cons_of_mem y hz)
    rw [List.flatMap_cons, List.length_append, hlen y List.mem_cons_self, ← Nat.add_assoc, hrest]

/-- What stands at its place in a row without gaps. -/
theorem tiles_hold {α : Type} {enc : α → List UInt8} {start size : α → ℕ} {l : List α} {lo hi : ℕ}
    (h : Tiles start size lo l hi) (hlen : ∀ x ∈ l, (enc x).length = size x) (front : List UInt8)
    (hfront : front.length = lo) {x : α} (hx : x ∈ l) :
    Holds (front ++ l.flatMap enc) (start x) (enc x) := by
  induction l generalizing lo front with
  | nil => cases hx
  | cons y l ih =>
    obtain ⟨rfl,hrest⟩ := h
    rw [List.flatMap_cons, ← List.append_assoc]
    rcases List.mem_cons.1 hx with rfl | hx
    · rw [← hfront]
      exact holds_mid front (enc x) _
    · refine ih hrest (fun z hz => hlen z (List.mem_cons_of_mem y hz)) _ ?_ hx
      rw [List.length_append, hfront, hlen y List.mem_cons_self]

end Held

section Filled

theorem write_at_mid {front old new : List UInt8} (hlen : new.length = old.length)
    (back : List UInt8) {pos : ℕ} (hpos : pos = front.length) :
    writeAt (front ++ old ++ back) pos new = front ++ new ++ back := by
  subst hpos
  rw [writeAt, List.append_assoc front, List.take_left, hlen, ← List.drop_drop, List.drop_left,
    List.drop_left]

/-- Rows of one size, each written at its place. -/
theorem rows_written {α : Type} (place : ℕ → ℕ) (enc : α × ℕ → List UInt8) {w lo : ℕ}
    (hplace : ∀ k, place k = lo+k*w) (hlen : ∀ e, (enc e).length = w) {l : List α} {k : ℕ}
    {front old : List UInt8} (back : List UInt8) (hfront : front.length = lo+k*w)
    (hold : old.length = l.length*w) :
    (l.zipIdx k).foldlM (fun buf e => put buf (place e.2) (enc e)) (front ++ old ++ back) =
      some (front ++ (l.zipIdx k).flatMap enc ++ back) := by
  induction l generalizing k front old with
  | nil =>
    rw [List.length_nil, Nat.zero_mul] at hold
    simp [List.eq_nil_of_length_eq_zero hold]
  | cons a l ih =>
    rw [List.length_cons, Nat.succ_mul] at hold
    have hrow : (old.take w).length = w := by
      rw [List.length_take]
      omega
    have hput : put (front ++ old ++ back) (place k) (enc (a,k)) =
        some (front ++ enc (a,k) ++ old.drop w ++ back) := by
      have hle : place k+(enc (a,k)).length ≤ (front ++ old ++ back).length := by
        rw [hplace, hlen, List.length_append, List.length_append]
        omega
      have hmid : writeAt (front ++ old.take w ++ (old.drop w ++ back)) (place k) (enc (a,k)) =
          front ++ enc (a,k) ++ (old.drop w ++ back) :=
        write_at_mid ((hlen _).trans hrow.symm) _ ((hplace k).trans hfront.symm)
      rw [List.append_assoc front, ← List.append_assoc (old.take w), List.take_append_drop,
        ← List.append_assoc] at hmid
      rw [put, if_pos hle, hmid, ← List.append_assoc]
    have hnext : (front ++ enc (a,k)).length = lo+(k+1)*w := by
      rw [List.length_append, hfront, hlen, Nat.succ_mul, Nat.add_assoc]
    rw [List.zipIdx_cons, List.foldlM_cons, hput, Option.bind_eq_bind, Option.bind_some,
      ih hnext (by rw [List.length_drop]; omega), List.flatMap_cons, List.append_assoc front]

theorem rows_hold {α : Type} (place : ℕ → ℕ) (enc : α × ℕ → List UInt8) (front : List UInt8)
    {w lo : ℕ} (hplace : ∀ k, place k = lo+k*w) (hlen : ∀ e, (enc e).length = w) {l : List α}
    {old : List UInt8} (hfront : front.length = lo) (hold : old.length = l.length*w) :
    ∃ back, l.zipIdx.foldlM (fun buf e => put buf (place e.2) (enc e)) (front ++ old) =
        some (front ++ back) ∧
      ∀ k a, l[k]? = some a → Holds (front ++ back) (place k) (enc (a,k)) := by
  have hwritten :=
    rows_written place enc hplace hlen (k := 0) [] (by rw [hfront, Nat.zero_mul]; rfl) hold
  rw [List.append_nil, List.append_nil] at hwritten
  refine ⟨_,hwritten,fun k a hk => ?_⟩
  have hall := holds_mid front (l.zipIdx.flatMap enc) []
  rw [List.append_nil, hfront] at hall
  rw [hplace]
  exact hall.row (fun e _ => hlen e) (by rw [List.getElem?_zipIdx, hk]; simp)

end Filled

end MoldMacho.Pieces
