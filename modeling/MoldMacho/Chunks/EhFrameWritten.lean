import MoldMacho.Chunks.EhFrameSection
import MoldMacho.Lib.Lists

/-!
# What the `__eh_frame` of the output means

The section splits by the records' lengths into the FDEs kept and the CIEs they use.
Each FDE's CIE pointer leads back to its own CIE, its function and its LSDA are at
their output addresses, and its other bytes are the object's.
-/

set_option autoImplicit false

namespace MoldMacho.EhFrameSection
open MoldMacho.Arch (MachRel)
open MoldMacho.EhFrame (Augmentation readLetter skipUlebs readPcrel readValue wrap32 wrap64)
open MoldMacho.InputSections
open Bytes LengthRecords Leb128 Links Replacements

/-! ## The personality of a CIE -/

/-- Where the letters of an augmentation string have the personality's pointer:
past the encoding that the last `P` stands for. -/
def personalityFrom (data : List UInt8) : ℕ × Augmentation → List UInt8 → Option ℕ
  | _, [] => none
  | s, c::letters =>
    match readLetter data s c with
    | none => none
    | some next =>
      (personalityFrom data next letters).or (if c = 'P'.toUInt8 then some (s.1+1) else none)

/-- The offset of a CIE's personality pointer. -/
def personalityPos (data : List UInt8) : Option ℕ := do
  let len ← (data.drop 9).findIdx? fun b => b == 0
  let rest ← skipUlebs 4 (data.drop (9+len+1))
  if data[9]? = some 'z'.toUInt8 then
    personalityFrom data (data.length - rest.length,{}) ((data.drop 10).take (len-1))
  else none

/-- A number ends at the first byte that does not say there are more. -/
theorem decode_uleb_rest {l rest : List UInt8} {n : ℕ} (h : decodeUleb l = some (n,rest)) :
    ∃ k, l.findIdx? (· < 0x80) = some k ∧ l.length = k+1+rest.length := by
  induction l generalizing n rest with
  | nil => cases h
  | cons b l ih =>
    rw [decodeUleb] at h
    rw [List.findIdx?_cons]
    split at h
    · next hb =>
      cases h
      exact ⟨0,by simp [hb],by simp; omega⟩
    · next hb =>
      obtain ⟨⟨m,rest'⟩,hdecode,heq⟩ := Option.map_eq_some_iff.1 h
      obtain ⟨k,hk,hlen⟩ := ih hdecode
      cases heq
      exact ⟨k+1,by simp [hb, hk],by simp; omega⟩

theorem skip_ulebs_le {n : ℕ} {l rest : List UInt8} (h : skipUlebs n l = some rest) :
    rest.length ≤ l.length := by
  induction n generalizing l with
  | zero =>
    cases h
    exact le_rfl
  | succ n ih =>
    obtain ⟨⟨m,mid⟩,hdecode,hrest⟩ := Option.bind_eq_some_iff.1 h
    obtain ⟨k,-,hlen⟩ := decode_uleb_rest hdecode
    have hle := ih hrest
    omega

theorem read_letter_le {data : List UInt8} {s next : ℕ × Augmentation} {c : UInt8}
    (h : readLetter data s c = some next) : s.1 ≤ next.1 := by
  obtain ⟨pos,aug⟩ := s
  simp only [readLetter] at h
  split at h
  · obtain ⟨enc,-,rfl⟩ := Option.map_eq_some_iff.1 h
    exact Nat.le_succ pos
  · split at h
    · obtain ⟨enc,-,rfl⟩ := Option.map_eq_some_iff.1 h
      exact Nat.le_add_right _ _
    · split at h
      · obtain ⟨enc,-,rfl⟩ := Option.map_eq_some_iff.1 h
        exact Nat.le_succ pos
      · cases h
        exact le_rfl

theorem personality_from_gt {data : List UInt8} {s : ℕ × Augmentation} {letters : List UInt8}
    {p : ℕ} (h : personalityFrom data s letters = some p) : s.1 < p := by
  induction letters generalizing s with
  | nil => cases h
  | cons c letters ih =>
    rw [personalityFrom] at h
    split at h
    · cases h
    · next next hnext =>
      rcases Option.or_eq_some_iff.1 h with h | ⟨-,h⟩
      · exact (read_letter_le hnext).trans_lt (ih h)
      · split at h
        · cases h
          exact Nat.lt_succ_self _
        · cases h

/-- The pointer is past the length and the ID. -/
theorem personality_pos_ge {data : List UInt8} {p : ℕ} (h : personalityPos data = some p) :
    8 ≤ p := by
  simp only [personalityPos, Option.bind_eq_bind, Option.bind_eq_some_iff] at h
  obtain ⟨len,hlen,rest,hrest,h⟩ := h
  split at h
  · have hlt := personality_from_gt h
    have hle := skip_ulebs_le hrest
    have hin := (List.findIdx?_eq_some_iff_getElem.1 hlen).1
    rw [List.length_drop] at hle hin
    dsimp only at hlt
    omega
  · cases h

/-! ## Records as they are read -/

/-- A CIE as it is read: its length and its zero ID. -/
structure CieOk (cie : CieRecord) : Prop where
  len : Prefixed cie.data
  id : readLe 4 cie.data 4 = some 0

/-- What is taken for the relocation of a CIE's personality is that of its
pointer, all of which is in the CIE. -/
def CellIn (cie : CieRecord) : Prop := ∀ sym, cie.personality = some sym →
  personalityPos cie.data = some cie.personalityOffset ∧
    cie.personalityOffset+4 ≤ cie.data.length

/-- The CIEs that the FDEs kept use have their personalities' cells. -/
def CellsIn (ctx : Context) (kept : FdeRecord → Bool) : Prop :=
  ∀ fde ∈ ctx.fdes, kept fde = true → ∀ cie, ctx.cies[fde.cie]? = some cie → CellIn cie

/-- An FDE as it is read: its length, and the fields that its CIE gives it. -/
structure FdeOk (fde : FdeRecord) (cie : CieRecord) : Prop where
  len : Prefixed fde.data
  fields : 8+2*cie.pcSize ≤ fde.data.length
  lsda : fde.lsda ≠ none →
    ∃ pos, fde.lsdaPos cie.pcSize = some pos ∧ pos+cie.lsdaSize ≤ fde.data.length

structure RecordsOk (ctx : Context) : Prop where
  cies : ∀ cie ∈ ctx.cies, CieOk cie
  fdes : ∀ fde ∈ ctx.fdes, ∃ cie, ctx.cies[fde.cie]? = some cie ∧ FdeOk fde cie

theorem pc_size_cases (cie : CieRecord) : cie.pcSize = 4 ∨ cie.pcSize = 8 := by
  rw [CieRecord.pcSize]
  split
  · exact Or.inl rfl
  · exact Or.inr rfl

theorem lsda_size_cases (cie : CieRecord) : cie.lsdaSize = 4 ∨ cie.lsdaSize = 8 := by
  rw [CieRecord.lsdaSize]
  split
  · exact Or.inl rfl
  · exact Or.inr rfl

/-- The LSDA pointer is past the function's address and size. -/
theorem lsda_pos_ge {fde : FdeRecord} {n pos : ℕ} (h : fde.lsdaPos n = some pos) :
    8+2*n+1 ≤ pos := by
  obtain ⟨k,-,rfl⟩ := Option.map_eq_some_iff.1 h
  omega

/-! ## Pointers -/

/-- The distance from a place to a target fits a field of a size. -/
def InReach (size target place : ℕ) : Prop :=
  size = 8 ∨ distance target place < 2^31 ∨ 2^64 - 2^31 ≤ distance target place

theorem distance_add (target place : ℕ) : wrap64 (place + distance target place) = wrap64 target := by
  simp only [distance, wrap64]
  omega

/-- A distance in reach reads back as the target's address. -/
theorem read_distance {rec : List UInt8} {pos size target recAddr : ℕ} (hsize : size = 4 ∨ size = 8)
    (h : readLe size rec pos = some (distance target (recAddr+pos) % 256^size))
    (hreach : InReach size target (recAddr+pos)) :
    readPcrel rec pos size recAddr = some (wrap64 target) := by
  have hlt : distance target (recAddr+pos) < 2^64 := Nat.mod_lt _ (by decide)
  have hadd := distance_add target (recAddr+pos)
  rcases hsize with rfl | rfl
  · rw [readPcrel, readValue, if_pos rfl, h, Option.map_some, Option.map_some]
    congr 1
    rw [← hadd]
    rcases hreach with heq | hlow | hhigh
    · cases heq
    · have hmod : distance target (recAddr+pos) % 256^4 = distance target (recAddr+pos) :=
        Nat.mod_eq_of_lt (by omega)
      rw [hmod, if_pos hlow]
    · have hmod : distance target (recAddr+pos) % 256^4 =
          distance target (recAddr+pos) - (2^64-2^32) := by omega
      rw [hmod, if_neg (by omega), Nat.sub_add_cancel (by omega)]
  · rw [readPcrel, readValue, if_neg (by decide), h, Option.map_some]
    congr 1
    rw [show 256^8 = 2^64 from rfl, Nat.mod_eq_of_lt hlt]
    exact hadd

/-! ## What is written for a record -/

section Images
variable (ctx : Context) (image : Image)

/-- A CIE with its personality's cell written, if that is in it. -/
def cieImage (cie : CieRecord) (off : ℕ) : List UInt8 :=
  match cie.personality with
  | none => cie.data
  | some sym =>
    if cie.personalityOffset+4 ≤ cie.data.length then
      writeAt cie.data cie.personalityOffset
        (toLe 4 (distance (image.gotAddr sym) (image.ehFrameAddr+off+cie.personalityOffset)))
    else cie.data

/-- The FDE with its CIE pointer and its function written. -/
def fdeHead (fde : FdeRecord) (cie : CieRecord) (fdeAddr ptr : ℕ) : List UInt8 :=
  writeAt (writeAt fde.data 4 (toLe 4 ptr)) 8
    (toLe cie.pcSize (distance (addrOf ctx image fde.isec + fde.funcOffset) (fdeAddr+8)))

def fdeImage (fde : FdeRecord) (cie : CieRecord) (fdeAddr ptr : ℕ) : List UInt8 :=
  let head := fdeHead ctx image fde cie fdeAddr ptr
  match fde.lsda with
  | none => head
  | some (isec,lsdaOff) =>
    let pos := (fde.lsdaPos cie.pcSize).getD 0
    writeAt head pos
      (toLe cie.lsdaSize (distance (addrOf ctx image isec + lsdaOff) (fdeAddr+pos)))

variable {ctx image} {fde : FdeRecord} {cie : CieRecord} {fdeAddr ptr : ℕ}

theorem cie_image_length (image : Image) (cie : CieRecord) (off : ℕ) :
    (cieImage image cie off).length = cie.data.length := by
  rw [cieImage]
  split
  · rfl
  · split
    · next hin =>
      apply write_at_length
      rw [to_le_length]
      exact hin
    · rfl

theorem fde_head_length (hok : FdeOk fde cie) :
    (fdeHead ctx image fde cie fdeAddr ptr).length = fde.data.length := by
  have hfields := hok.fields
  have hsize := pc_size_cases cie
  have hlen : (writeAt fde.data 4 (toLe 4 ptr)).length = fde.data.length :=
    write_at_length (by rw [to_le_length]; omega)
  rw [fdeHead, write_at_length (by rw [to_le_length]; omega), hlen]

theorem fde_image_length (hok : FdeOk fde cie) :
    (fdeImage ctx image fde cie fdeAddr ptr).length = fde.data.length := by
  have hhead := @fde_head_length ctx image fde cie fdeAddr ptr hok
  rw [fdeImage]
  dsimp only
  split
  · exact hhead
  · next isec lsdaOff hlsda =>
    obtain ⟨pos,hpos,hle⟩ := hok.lsda (by rw [hlsda]; exact Option.some_ne_none _)
    rw [hpos, Option.getD_some, write_at_length (by rw [to_le_length, hhead]; exact hle), hhead]

/-- A write inside a record of a buffer writes the record changed. -/
theorem put_inside {buf rec bytes : List UInt8} {off p : ℕ} (h : off+rec.length ≤ buf.length)
    (hp : p+bytes.length ≤ rec.length) :
    put (writeAt buf off rec) (off+p) bytes = some (writeAt buf off (writeAt rec p bytes)) := by
  rw [put, write_at_length h, if_pos (by omega), write_inside h hp]

/-- Relocating a record of a buffer writes the record relocated. -/
theorem relocate_fde (hcie : ctx.cies[fde.cie]? = some cie) (hok : FdeOk fde cie)
    {buf : List UInt8} {off : ℕ} (h : off+fde.data.length ≤ buf.length) :
    relocateFde ctx image fde (writeAt buf off fde.data) off fdeAddr ptr =
      some (writeAt buf off (fdeImage ctx image fde cie fdeAddr ptr)) := by
  have hfields := hok.fields
  have hsize := pc_size_cases cie
  have hlen : (writeAt fde.data 4 (toLe 4 ptr)).length = fde.data.length :=
    write_at_length (by rw [to_le_length]; omega)
  have hhead := @fde_head_length ctx image fde cie fdeAddr ptr hok
  rw [relocateFde, hcie]
  simp only [Option.bind_eq_bind, Option.bind_some]
  rw [put_inside h (by rw [to_le_length]; omega), Option.bind_some,
    put_inside (by rw [hlen]; exact h) (by rw [to_le_length]; omega), Option.bind_some, fdeImage]
  dsimp only
  cases hlsda : fde.lsda with
  | none => rfl
  | some place =>
    obtain ⟨pos,hpos,hle⟩ := hok.lsda (by rw [hlsda]; exact Option.some_ne_none _)
    dsimp only
    rw [hpos, Option.bind_some, Option.getD_some]
    exact put_inside (by rw [← fdeHead, hhead]; exact h)
      (by rw [← fdeHead, to_le_length, hhead]; exact hle)

/-! ## What its fields mean -/

theorem read_write_apart {rec bytes : List UInt8} {p n off : ℕ} (h : p+bytes.length ≤ rec.length)
    (ha : off+n ≤ p ∨ p+bytes.length ≤ off) :
    readLe n (writeAt rec p bytes) off = readLe n rec off := by
  rw [readLe, readLe, bytes_at_write_apart h ha]

theorem get_write_apart {rec bytes : List UInt8} {p i : ℕ} (h : p+bytes.length ≤ rec.length)
    (hi : ¬ (p ≤ i ∧ i < p+bytes.length)) : (writeAt rec p bytes)[i]? = rec[i]? := by
  rw [write_get h, if_neg hi]

/-- The record of an FDE at an offset of the section, its CIE's at another. -/
structure FdeWritten (ctx : Context) (image : Image) (fde : FdeRecord) (cie : CieRecord)
    (pos ciePos : ℕ) (rec : List UInt8) : Prop where
  length : rec.length = fde.data.length
  back : ciePos < pos
  pointer : readLe 4 rec 4 = some (pos+4-ciePos)
  function : ∀ r, Ends (replacementOf ctx.isecs) fde.isec r →
    InReach cie.pcSize (image.isecAddr r + fde.funcOffset) (image.ehFrameAddr+pos+8) →
    readPcrel rec 8 cie.pcSize (image.ehFrameAddr+pos) =
      some (wrap64 (image.isecAddr r + fde.funcOffset))
  lsda : ∀ isec off, fde.lsda = some (isec,off) → ∃ p, fde.lsdaPos cie.pcSize = some p ∧
    ∀ r, Ends (replacementOf ctx.isecs) isec r →
      InReach cie.lsdaSize (image.isecAddr r + off) (image.ehFrameAddr+pos+p) →
      readPcrel rec p cie.lsdaSize (image.ehFrameAddr+pos) = some (wrap64 (image.isecAddr r + off))
  rest : ∀ i, ¬ (4 ≤ i ∧ i < 8+cie.pcSize) →
    (∀ p, fde.lsda ≠ none → fde.lsdaPos cie.pcSize = some p → ¬ (p ≤ i ∧ i < p+cie.lsdaSize)) →
    rec[i]? = fde.data[i]?

/-- The record of a CIE: the object's, but for its personality's pointer, which
leads to the GOT slot. -/
structure CieWritten (image : Image) (cie : CieRecord) (pos : ℕ) (rec : List UInt8) : Prop where
  length : rec.length = cie.data.length
  id : readLe 4 rec 4 = some 0
  personality : ∀ sym, cie.personality = some sym → ∃ p, personalityPos cie.data = some p ∧
    (InReach 4 (image.gotAddr sym) (image.ehFrameAddr+pos+p) →
      readPcrel rec p 4 (image.ehFrameAddr+pos) = some (wrap64 (image.gotAddr sym)))
  rest : ∀ i, (∀ p, cie.personality ≠ none → personalityPos cie.data = some p →
      ¬ (p ≤ i ∧ i < p+4)) → rec[i]? = cie.data[i]?

theorem cie_written (hok : CieOk cie) (hcell : CellIn cie) (pos : ℕ) :
    CieWritten image cie pos (cieImage image cie pos) := by
  have hlen := cie_image_length image cie pos
  cases hsym : cie.personality with
  | none =>
    rw [cieImage, hsym]
    refine ⟨rfl,hok.id,?_,fun _ _ => rfl⟩
    intro _ h
    rw [hsym] at h
    cases h
  | some sym =>
    obtain ⟨hpos,hhigh⟩ := hcell sym hsym
    have hlow := personality_pos_ge hpos
    have hin {v : ℕ} : cie.personalityOffset + (toLe 4 v).length ≤ cie.data.length := by
      rw [to_le_length]
      exact hhigh
    rw [cieImage, hsym] at hlen ⊢
    dsimp only at hlen ⊢
    rw [if_pos hhigh] at hlen ⊢
    refine ⟨hlen,?_,?_,?_⟩
    · rw [read_write_apart hin (Or.inl hlow)]
      exact hok.id
    · intro sym' hsym'
      obtain rfl := Option.some.inj (hsym.symm.trans hsym')
      exact ⟨_,hpos,fun hreach => read_distance (Or.inl rfl) (read_le_write hhigh) hreach⟩
    · intro i hi
      refine get_write_apart hin ?_
      rw [to_le_length]
      exact hi _ (by rw [hsym]; exact Option.some_ne_none _) hpos

theorem fde_head_reads (hok : FdeOk fde cie) :
    readLe 4 (fdeHead ctx image fde cie fdeAddr ptr) 4 = some (ptr % 2^32) ∧
    readLe cie.pcSize (fdeHead ctx image fde cie fdeAddr ptr) 8 =
      some (distance (addrOf ctx image fde.isec + fde.funcOffset) (fdeAddr+8) %
        256^cie.pcSize) ∧
    ∀ i, ¬ (4 ≤ i ∧ i < 8+cie.pcSize) →
      (fdeHead ctx image fde cie fdeAddr ptr)[i]? = fde.data[i]? := by
  have hfields := hok.fields
  have hsize := pc_size_cases cie
  have hin : 4 + (toLe 4 ptr).length ≤ fde.data.length := by
    rw [to_le_length]
    omega
  have hlen : (writeAt fde.data 4 (toLe 4 ptr)).length = fde.data.length := write_at_length hin
  have hin' {v : ℕ} : 8 + (toLe cie.pcSize v).length ≤ (writeAt fde.data 4 (toLe 4 ptr)).length := by
    rw [to_le_length, hlen]
    omega
  refine ⟨?_,?_,?_⟩
  · rw [fdeHead, read_write_apart hin' (Or.inl le_rfl), read_le_write (by omega)]
    rfl
  · exact read_le_write (by omega)
  · intro i hi
    rw [fdeHead, get_write_apart hin' (by rw [to_le_length]; omega),
      get_write_apart hin (by rw [to_le_length]; omega)]

/-- Past the function's address the LSDA pointer is all that changes. -/
theorem fde_image_head (hok : FdeOk fde cie) {n off : ℕ} (h : off+n ≤ 8+cie.pcSize) :
    readLe n (fdeImage ctx image fde cie fdeAddr ptr) off =
      readLe n (fdeHead ctx image fde cie fdeAddr ptr) off := by
  rw [fdeImage]
  dsimp only
  split
  · rfl
  · next isec lsdaOff hlsda =>
    obtain ⟨pos,hpos,hle⟩ := hok.lsda (by rw [hlsda]; exact Option.some_ne_none _)
    have hge := lsda_pos_ge hpos
    rw [hpos, Option.getD_some,
      read_write_apart (by rw [to_le_length, fde_head_length hok]; exact hle) (Or.inl (by omega))]

theorem fde_written (hok : FdeOk fde cie) {pos ciePos : ℕ} (hback : ciePos < pos)
    (hptr : pos+4-ciePos < 2^32) :
    FdeWritten ctx image fde cie pos ciePos
      (fdeImage ctx image fde cie (image.ehFrameAddr+pos) (pos+4-ciePos)) := by
  obtain ⟨hpointer,hfunction,hrest⟩ :=
    @fde_head_reads ctx image fde cie (image.ehFrameAddr+pos) (pos+4-ciePos) hok
  refine ⟨fde_image_length hok,hback,?_,?_,?_,?_⟩
  · rw [fde_image_head hok (by omega), hpointer, Nat.mod_eq_of_lt hptr]
  · intro r hr hreach
    have haddr : addrOf ctx image fde.isec = image.isecAddr r := by
      rw [addrOf, resolve_to_eq hr]
    rw [haddr] at hfunction
    refine read_distance (pc_size_cases cie) ?_ hreach
    rw [fde_image_head hok le_rfl, hfunction]
  · intro isec off hlsda
    obtain ⟨p,hp,hle⟩ := hok.lsda (by rw [hlsda]; exact Option.some_ne_none _)
    refine ⟨p,hp,fun r hr hreach => ?_⟩
    have haddr : addrOf ctx image isec = image.isecAddr r := by
      rw [addrOf, resolve_to_eq hr]
    refine read_distance (lsda_size_cases cie) ?_ hreach
    rw [fdeImage, hlsda]
    dsimp only
    rw [hp, Option.getD_some, read_le_write (by rw [fde_head_length hok]; exact hle), haddr]
  · intro i hi hlsda
    rw [fdeImage]
    dsimp only
    split
    · exact hrest i hi
    · next isec off hsome =>
      have hne : fde.lsda ≠ none := by
        rw [hsome]
        exact Option.some_ne_none _
      obtain ⟨p,hp,hle⟩ := hok.lsda hne
      rw [hp, Option.getD_some, get_write_apart (by rw [to_le_length, fde_head_length hok]; exact hle)
        (by rw [to_le_length]; exact hlsda p hne hp)]
      exact hrest i hi

/-- A record with another's first four bytes and length begins with its length. -/
theorem prefixed_congr {rec rec' : List UInt8} (h : Prefixed rec) (hlen : rec'.length = rec.length)
    (hget : ∀ i < 4, rec'[i]? = rec[i]?) : Prefixed rec' := by
  have htake : rec'.take 4 = rec.take 4 := by
    apply List.ext_getElem?
    intro i
    rw [List.getElem?_take, List.getElem?_take]
    split
    · next hi => exact hget i hi
    · rfl
  rw [Prefixed, readLe, bytesAt, List.drop_zero] at h ⊢
  rw [htake, hlen]
  exact h

theorem FdeWritten.len {pos ciePos : ℕ} {rec : List UInt8}
    (h : FdeWritten ctx image fde cie pos ciePos rec) (hok : FdeOk fde cie) : Prefixed rec := by
  refine prefixed_congr hok.len h.length fun i hi => h.rest i (by omega) fun p _ hp => ?_
  have hge := lsda_pos_ge hp
  omega

theorem CieWritten.len {pos : ℕ} {rec : List UInt8} (h : CieWritten image cie pos rec)
    (hok : CieOk cie) : Prefixed rec := by
  refine prefixed_congr hok.len h.length fun i hi => h.rest i fun p _ hp => ?_
  have hlow := personality_pos_ge hp
  omega

end Images

/-! ## The section -/

/-- The records of a section: the FDEs kept, each once, and the CIEs they use, each
before its FDEs. -/
structure Lists (ctx : Context) (kept : FdeRecord → Bool) (rs : List EhRec) : Prop where
  nodup : rs.Nodup
  fdes : ∀ f, .fde f ∈ rs ↔ ∃ fde, ctx.fdes[f]? = some fde ∧ kept fde = true
  cies : ∀ c, .cie c ∈ rs ↔ ∃ fde ∈ ctx.fdes, kept fde = true ∧ fde.cie = c
  before : ∀ f fde, ctx.fdes[f]? = some fde → kept fde = true →
    [.cie fde.cie,.fde f].Sublist rs

section Written
variable (ctx : Context) (image : Image) (kept : FdeRecord → Bool)
variable (cieIs : CieRecord → ℕ → List UInt8 → Prop) (records : List (EhRec × ℕ))

/-- What the section has for a record at its offset. -/
def RecWritten (p : EhRec × ℕ) (rec : List UInt8) : Prop :=
  match p.1 with
  | .cie c => ∃ cie, ctx.cies[c]? = some cie ∧ cieIs cie p.2 rec
  | .fde f => ∃ fde cie ciePos, ctx.fdes[f]? = some fde ∧ ctx.cies[fde.cie]? = some cie ∧
    (.cie fde.cie,ciePos) ∈ records ∧ FdeWritten ctx image fde cie p.2 ciePos rec

/-- The section splits into its records, each where it was laid out. -/
structure Written (out : List UInt8) : Prop where
  lists : Lists ctx kept (records.map Prod.fst)
  split : ∃ recs, split out 0 = some recs ∧
    List.Forall₂ (fun p rec => rec.1 = p.2 ∧ RecWritten ctx image cieIs records p rec.2) records recs

end Written

section Image
variable {kept : FdeRecord → Bool} {cieIs : CieRecord → ℕ → List UInt8 → Prop}
variable (ctx : Context) (image : Image) (cieImg : CieRecord → ℕ → List UInt8)
variable (records : List (EhRec × ℕ))

def recImage (p : EhRec × ℕ) : List UInt8 :=
  match p.1 with
  | .cie c => (ctx.cies[c]?.map fun cie => cieImg cie p.2).getD []
  | .fde f =>
    (ctx.fdes[f]?.bind fun fde => ctx.cies[fde.cie]?.map fun cie =>
      fdeImage ctx image fde cie (image.ehFrameAddr+p.2) (ciePtr records fde p.2)).getD []

variable {ctx image cieImg records}

theorem rec_image_length (hok : RecordsOk ctx)
    (hcie : ∀ cie ∈ ctx.cies, ∀ pos, (cieImg cie pos).length = cie.data.length) (p : EhRec × ℕ) :
    (recImage ctx image cieImg records p).length = p.1.size ctx := by
  obtain ⟨r,off⟩ := p
  cases r with
  | cie c =>
    simp only [recImage, EhRec.size, EhRec.data]
    cases hc : ctx.cies[c]? with
    | none => rfl
    | some cie => exact hcie cie (List.mem_of_getElem? hc) off
  | fde f =>
    simp only [recImage, EhRec.size, EhRec.data]
    cases hf : ctx.fdes[f]? with
    | none => rfl
    | some fde =>
      obtain ⟨cie,hc,hfde⟩ := hok.fdes fde (List.mem_of_getElem? hf)
      rw [Option.bind_some, hc]
      exact fde_image_length hfde

theorem output_offset {r : EhRec} {off : ℕ} (hnodup : (records.map Prod.fst).Nodup)
    (h : (r,off) ∈ records) : outputOffset records r = off := by
  have hfind : ∃ p, records.find? (fun p => p.1 == r) = some p := by
    rw [← Option.isSome_iff_exists, List.find?_isSome]
    exact ⟨_,h,beq_self_eq_true r⟩
  obtain ⟨p,hp⟩ := hfind
  have hmem := List.mem_of_find?_eq_some hp
  have hkey := List.find?_some hp
  have heq : p = (r,off) := List.inj_on_of_nodup_map hnodup hmem h (eq_of_beq hkey)
  rw [outputOffset, hp, heq]
  rfl

/-- A CIE stands before each FDE that uses it. -/
theorem cie_before (hok : RecordsOk ctx) (hlists : Lists ctx kept (records.map Prod.fst))
    (hapart : records.Pairwise fun p q => p.2+p.1.size ctx ≤ q.2) {f off : ℕ} {fde : FdeRecord}
    (hf : ctx.fdes[f]? = some fde) (hkept : kept fde = true) (hmem : (.fde f,off) ∈ records) :
    ∃ ciePos, (.cie fde.cie,ciePos) ∈ records ∧ ciePos < off := by
  obtain ⟨pair,hsub,heq⟩ := List.sublist_map_iff.1 (hlists.before f fde hf hkept)
  match pair with
  | [(.cie c,ciePos),(.fde g,off')] =>
    obtain ⟨rfl,rfl⟩ : fde.cie = c ∧ f = g := by simpa using heq
    have hmem' : (EhRec.fde f,off') ∈ records := hsub.subset (by simp)
    obtain ⟨-,rfl⟩ : EhRec.fde f = EhRec.fde f ∧ off' = off :=
      Prod.mk.inj (List.inj_on_of_nodup_map hlists.nodup hmem' hmem rfl)
    have hle : ciePos + EhRec.size ctx (.cie fde.cie) ≤ off' := hapart.forall_sublist hsub
    obtain ⟨cie,hc,-⟩ := hok.fdes fde (List.mem_of_getElem? hf)
    have hpos := prefixed_length (hok.cies cie (List.mem_of_getElem? hc)).len
    have hsize : EhRec.size ctx (.cie fde.cie) = cie.data.length := by
      rw [EhRec.size, EhRec.data, hc]
      rfl
    exact ⟨ciePos,hsub.subset (by simp),by omega⟩

/-- Images that stand one after another make a section of the records. -/
theorem written_of (hok : RecordsOk ctx) (hlists : Lists ctx kept (records.map Prod.fst))
    (hlen : ∀ cie ∈ ctx.cies, ∀ pos, (cieImg cie pos).length = cie.data.length)
    (hcie : ∀ fde ∈ ctx.fdes, kept fde = true → ∀ cie, ctx.cies[fde.cie]? = some cie → ∀ pos,
      Prefixed (cieImg cie pos) ∧ cieIs cie pos (cieImg cie pos))
    (hplaced : records.map (fun p => (p.2,recImage ctx image cieImg records p)) =
      placed 0 (records.map (recImage ctx image cieImg records)))
    (hbound : ∀ p ∈ records, p.2+4 < 2^32) :
    Written ctx image kept cieIs records
      (records.map (recImage ctx image cieImg records)).flatten := by
  have hapart : records.Pairwise fun p q => p.2+p.1.size ctx ≤ q.2 := by
    have hpairs := (placed_apart (records.map (recImage ctx image cieImg records)) 0).2
    rw [← hplaced, List.pairwise_map] at hpairs
    refine hpairs.imp fun {p q} hle => ?_
    rw [← @rec_image_length ctx image cieImg records hok hlen p]
    exact hle
  have hrec : ∀ p ∈ records, Prefixed (recImage ctx image cieImg records p) ∧
      RecWritten ctx image cieIs records p (recImage ctx image cieImg records p) := by
    rintro ⟨r,off⟩ hp
    have hr : r ∈ records.map Prod.fst := List.mem_map_of_mem hp
    cases r with
    | cie c =>
      obtain ⟨fde,hfde,hkept,rfl⟩ := (hlists.cies c).1 hr
      obtain ⟨cie,hc,-⟩ := hok.fdes fde hfde
      obtain ⟨hinited,his⟩ := hcie fde hfde hkept cie hc off
      simp only [recImage, RecWritten, hc, Option.map_some, Option.getD_some]
      exact ⟨hinited,cie,rfl,his⟩
    | fde f =>
      obtain ⟨fde,hf,hkept⟩ := (hlists.fdes f).1 hr
      obtain ⟨cie,hc,hfde⟩ := hok.fdes fde (List.mem_of_getElem? hf)
      obtain ⟨ciePos,hcmem,hback⟩ := cie_before hok hlists hapart hf hkept hp
      have hoff := hbound _ hp
      have hptr : ciePtr records fde off = off+4-ciePos := by
        rw [ciePtr, output_offset hlists.nodup hcmem, wrap32]
        omega
      have hwritten := @fde_written ctx image fde cie hfde off ciePos hback (by omega)
      simp only [recImage, RecWritten, hf, hc, Option.bind_some, Option.map_some, Option.getD_some,
        hptr]
      exact ⟨hwritten.len hfde,fde,cie,ciePos,rfl,hc,hcmem,hwritten⟩
  refine ⟨hlists,_,split_placed ?_ (Nat.zero_le _) rfl,?_⟩
  · intro rec hmem
    obtain ⟨p,hp,rfl⟩ := List.mem_map.1 hmem
    exact (hrec p hp).1
  · rw [← hplaced, List.forall₂_map_right_iff, List.forall₂_same]
    exact fun p hp => ⟨rfl,(hrec p hp).2⟩

end Image

end MoldMacho.EhFrameSection
