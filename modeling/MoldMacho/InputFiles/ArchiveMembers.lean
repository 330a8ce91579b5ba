import Mathlib.Data.List.TakeWhile
import MoldMacho.Lib.Bytes
import MoldMacho.Lib.Decimal

/-!
# The members of an archive

An archive's members follow one another at even offsets, each after a header of 60
bytes. A name is in its header, before the body or in a table of names, and symbol
tables and the table of names are no members. Where the code would stop on an index
out of range or a sum past 64 bits there is an error.
-/

set_option autoImplicit false

namespace MoldMacho.Archive
open Decimal

inductive Panic where
  | outOfRange
  | overflow
  deriving DecidableEq

/-- Some bytes of a file, which start at an offset of it. -/
structure Slice where
  start : ℕ
  bytes : List UInt8
  deriving DecidableEq

def slice (data : List UInt8) (start stop : ℕ) : Except Panic Slice :=
  if start ≤ stop ∧ stop ≤ data.length then
    .ok { start, bytes := (data.drop start).take (stop-start) }
  else .error .outOfRange

def checked (n : ℕ) : Except Panic ℕ := if n < 2^64 then .ok n else .error .overflow

def isWhitespace (b : UInt8) : Bool :=
  b == 0x20 || b == 0x09 || b == 0x0a || b == 0x0c || b == 0x0d

/-- The leading decimal digits of a field. -/
def parseDecimal (bytes : List UInt8) : Except Panic ℕ :=
  ((bytes.dropWhile isWhitespace).takeWhile isDigit).foldlM
    (fun acc b => checked (acc*10 + digitValue b)) 0

def headerSize : ℕ := 60

structure ArHeader where
  name : List UInt8
  date : ℕ
  size : ℕ

def field (bytes : List UInt8) (start stop : ℕ) : List UInt8 := (bytes.drop start).take (stop-start)

def ArHeader.parse (bytes : List UInt8) : Except Panic ArHeader := do
  let date ← parseDecimal (field bytes 16 28)
  let size ← parseDecimal (field bytes 48 58)
  pure { name := bytes.take 16, date, size }

def slash : UInt8 := 0x2f

def sym64 : List UInt8 := [slash,0x53,0x59,0x4d,0x36,0x34,slash]
def bsdLong : List UInt8 := [0x23,0x31,slash]
def symdef : List UInt8 := [0x5f,0x5f,0x2e,0x53,0x59,0x4d,0x44,0x45,0x46]

def ArHeader.isStrtab (hdr : ArHeader) : Bool := [slash,slash,0x20].isPrefixOf hdr.name

def ArHeader.isSymtab (hdr : ArHeader) : Bool :=
  [slash,0x20].isPrefixOf hdr.name || (sym64 ++ [0x20]).isPrefixOf hdr.name

/-- Where some bytes first occur in others. -/
def findBytes (pat : List UInt8) : List UInt8 → Option ℕ
  | [] => if pat.isEmpty then some 0 else none
  | b::rest =>
    if pat.isPrefixOf (b::rest) then some 0 else (findBytes pat rest).map (· + 1)

def trimEnd (name : List UInt8) : List UInt8 := (name.reverse.dropWhile isWhitespace).reverse

/-- A member's name, and what its body is past a name in it. -/
def ArHeader.readName (hdr : ArHeader) (strtab : List UInt8) (body : Slice) :
    Except Panic (List UInt8 × Slice) :=
  if bsdLong.isPrefixOf hdr.name then do
    let len ← parseDecimal (hdr.name.drop 3)
    let len := min len body.bytes.length
    let name := body.bytes.take len
    pure (name.takeWhile (· ≠ 0),{ start := body.start+len, bytes := body.bytes.drop len })
  else if [slash].isPrefixOf hdr.name then do
    let offset ← parseDecimal (hdr.name.drop 1)
    let start := strtab.drop offset
    let stop := (findBytes [slash,0x0a] start).getD start.length
    pure (start.take stop,body)
  else
    let stop := (hdr.name.findIdx? (· == slash)).getD hdr.name.length
    pure (trimEnd (hdr.name.take stop),body)

structure Member where
  name : List UInt8
  body : Slice
  date : ℕ
  deriving DecidableEq

/-- Where the header at or after a position starts. -/
def evenPos (pos : ℕ) : ℕ := if pos % 2 ≠ 0 then pos+1 else pos

theorem le_even_pos (pos : ℕ) : pos ≤ evenPos pos ∧ evenPos pos ≤ pos+1 := by
  rw [evenPos]
  split <;> omega

/-- The members from `pos` on, with the table of names met before. -/
def membersFrom (data : List UInt8) (pos : ℕ) (strtab : List UInt8) :
    Except Panic (List Member) :=
  if data.length < pos then .error .overflow
  else if data.length - pos < 2 then .ok []
  else if data.length < evenPos pos + headerSize then .ok []
  else do
    let hdr ← ArHeader.parse ((data.drop (evenPos pos)).take headerSize)
    let bodyStart := evenPos pos + headerSize
    let stop := bodyStart + hdr.size
    if 2^64 ≤ stop then .error .overflow
    else
      let bodyEnd := min stop data.length
      let body ← slice data bodyStart bodyEnd
      if hdr.isStrtab then membersFrom data bodyEnd body.bytes
      else if hdr.isSymtab then membersFrom data bodyEnd strtab
      else
        let (name,body) ← hdr.readName strtab body
        if symdef.isPrefixOf name then membersFrom data bodyEnd strtab
        else
          let rest ← membersFrom data bodyEnd strtab
          .ok ({ name, body, date := hdr.date }::rest)
termination_by data.length - pos
decreasing_by
  all_goals
    have hpos := le_even_pos pos
    rw [headerSize] at *
    omega

def archiveMembers (data : List UInt8) : Except Panic (List Member) := membersFrom data 8 []

/-! ## Fields -/

theorem le_value_from (acc : ℕ) (bytes : List UInt8) : acc ≤ valueFrom acc bytes := by
  induction bytes generalizing acc with
  | nil => exact le_rfl
  | cons b bytes ih =>
    have hrest := ih (acc*10 + digitValue b)
    show acc ≤ valueFrom (acc*10 + digitValue b) bytes
    omega

/-- A sum that ends below 64 bits does not pass them. -/
theorem checked_value {bytes : List UInt8} {acc : ℕ} (h : valueFrom acc bytes < 2^64) :
    bytes.foldlM (fun acc b => checked (acc*10 + digitValue b)) acc =
      Except.ok (valueFrom acc bytes) := by
  induction bytes generalizing acc with
  | nil => rfl
  | cons b bytes ih =>
    have hle := le_value_from (acc*10 + digitValue b) bytes
    have h' : valueFrom (acc*10 + digitValue b) bytes < 2^64 := h
    rw [List.foldlM_cons, checked, if_pos (by omega)]
    exact ih h'

/-- The number in a field. -/
def decimalOf (bytes : List UInt8) : ℕ :=
  valueFrom 0 ((bytes.dropWhile isWhitespace).takeWhile isDigit)

theorem decimal_of_lt {bytes : List UInt8} {n : ℕ} (h : bytes.length ≤ n) :
    decimalOf bytes < 10^n := by
  have hlt := @value_lt ((bytes.dropWhile isWhitespace).takeWhile isDigit)
    (fun b hb => List.mem_takeWhile_imp hb) 0
  have hlen : ((bytes.dropWhile isWhitespace).takeWhile isDigit).length ≤ n :=
    ((List.takeWhile_sublist _).trans (List.dropWhile_sublist _)).length_le.trans h
  have hpow := Nat.pow_le_pow_right (show 0 < 10 by decide) hlen
  rw [decimalOf]
  omega

/-- A field of an archive is too short for its number to overflow. -/
theorem parse_decimal {bytes : List UInt8} (h : bytes.length ≤ 16) :
    parseDecimal bytes = .ok (decimalOf bytes) :=
  checked_value ((decimal_of_lt h).trans (by decide))

theorem field_length (bytes : List UInt8) (start stop : ℕ) :
    (field bytes start stop).length ≤ stop-start := by
  rw [field, List.length_take]
  exact Nat.min_le_left _ _

/-- What a header says. -/
def headerOf (bytes : List UInt8) : ArHeader where
  name := bytes.take 16
  date := decimalOf (field bytes 16 28)
  size := decimalOf (field bytes 48 58)

theorem parse_header (bytes : List UInt8) : ArHeader.parse bytes = .ok (headerOf bytes) := by
  rw [ArHeader.parse, parse_decimal ((field_length bytes 16 28).trans (by decide)),
    parse_decimal ((field_length bytes 48 58).trans (by decide))]
  rfl

theorem size_lt (bytes : List UInt8) : (headerOf bytes).size < 10^10 :=
  decimal_of_lt (field_length bytes 48 58)

/-! ## Hostile files -/

/-- A slice is of the file's bytes, in it. -/
structure Slice.In (data : List UInt8) (s : Slice) : Prop where
  inside : s.start + s.bytes.length ≤ data.length
  bytes : s.bytes = (data.drop s.start).take s.bytes.length

theorem slice_in {data : List UInt8} {start stop : ℕ} (h : start ≤ stop)
    (hstop : stop ≤ data.length) : ∃ s, slice data start stop = .ok s ∧ s.In data := by
  have hlen : ((data.drop start).take (stop-start)).length = stop-start := by
    rw [List.length_take, List.length_drop]
    omega
  refine ⟨_,if_pos ⟨h,hstop⟩,?_,?_⟩
  · dsimp only
    omega
  · dsimp only
    rw [hlen]

theorem Slice.In.drop {data : List UInt8} {s : Slice} (h : s.In data) {n : ℕ}
    (hn : n ≤ s.bytes.length) :
    Slice.In data { start := s.start+n, bytes := s.bytes.drop n } where
  inside := by
    have hinside := h.inside
    rw [List.length_drop]
    dsimp only
    omega
  bytes := by
    have hdrop := congrArg (List.drop n) h.bytes
    rw [List.drop_take, List.drop_drop] at hdrop
    rw [List.length_drop]
    exact hdrop

theorem read_name_in {data : List UInt8} {hdr : ArHeader} (hname : hdr.name.length ≤ 16)
    (strtab : List UInt8) {body : Slice} (hbody : body.In data) :
    ∃ name rest, hdr.readName strtab body = .ok (name,rest) ∧ rest.In data := by
  have hdrop (n : ℕ) : (hdr.name.drop n).length ≤ 16 := by
    rw [List.length_drop]
    omega
  rw [ArHeader.readName]
  split
  · rw [parse_decimal (hdrop 3)]
    exact ⟨_,_,rfl,hbody.drop (Nat.min_le_right _ _)⟩
  · split
    · rw [parse_decimal (hdrop 1)]
      exact ⟨_,_,rfl,hbody⟩
    · exact ⟨_,_,rfl,hbody⟩

/-- The rest of the members, past one with a header and a body. -/
def membersPast (data : List UInt8) (stop : ℕ) (strtab : List UInt8) (hdr : ArHeader)
    (body : Slice) : Except Panic (List Member) :=
  if hdr.isStrtab then membersFrom data stop body.bytes
  else if hdr.isSymtab then membersFrom data stop strtab
  else do
    let (name,body) ← hdr.readName strtab body
    if symdef.isPrefixOf name then membersFrom data stop strtab
    else
      let rest ← membersFrom data stop strtab
      .ok ({ name, body, date := hdr.date }::rest)

/-- Where a file has room for a header, it is read with the body that it has. -/
theorem members_from_header {data : List UInt8} (hdata : data.length < 2^63) {pos : ℕ}
    (hroom : evenPos pos + 60 ≤ data.length) (strtab : List UInt8) :
    ∃ body, slice data (evenPos pos + 60)
        (min (evenPos pos + 60 + (headerOf ((data.drop (evenPos pos)).take 60)).size) data.length) =
          .ok body ∧ body.In data ∧
      membersFrom data pos strtab = membersPast data
        (min (evenPos pos + 60 + (headerOf ((data.drop (evenPos pos)).take 60)).size) data.length)
        strtab (headerOf ((data.drop (evenPos pos)).take 60)) body := by
  have heven := le_even_pos pos
  have hsize := size_lt ((data.drop (evenPos pos)).take 60)
  obtain ⟨body,hbody,hin⟩ := @slice_in data (evenPos pos + 60)
    (min (evenPos pos + 60 + (headerOf ((data.drop (evenPos pos)).take 60)).size) data.length)
    (by omega) (Nat.min_le_right _ _)
  refine ⟨body,hbody,hin,?_⟩
  rw [membersFrom, if_neg (by omega), if_neg (by omega), headerSize, if_neg (by omega),
    parse_header]
  change (if 2^64 ≤ evenPos pos + 60 + _ then _ else _) = _
  rw [if_neg (by omega), hbody]
  rfl

/-- There are no members where there is no room for a header. -/
theorem members_from_end {data : List UInt8} {pos : ℕ} (hpos : pos ≤ data.length)
    (hroom : data.length < evenPos pos + 60) (strtab : List UInt8) :
    membersFrom data pos strtab = .ok [] := by
  rw [membersFrom, if_neg (by omega), headerSize, if_pos hroom, ite_self]

/-- Whatever a file holds, its members are found, in it and past one another. -/
theorem members_from_in {data : List UInt8} (hdata : data.length < 2^63) {pos : ℕ}
    (hpos : pos ≤ data.length) (strtab : List UInt8) :
    ∃ members, membersFrom data pos strtab = .ok members ∧ (∀ m ∈ members, m.body.In data) ∧
      60*members.length ≤ data.length - pos := by
  obtain ⟨n,hn⟩ : ∃ n, n = data.length - pos := ⟨_,rfl⟩
  induction n using Nat.strongRecOn generalizing pos strtab with
  | ind n ih =>
    have heven := le_even_pos pos
    by_cases hroom : evenPos pos + 60 ≤ data.length
    · obtain ⟨body,-,hin,hstep⟩ := members_from_header hdata hroom strtab
      have hnext (strtab : List UInt8) := ih _ (by omega)
        (Nat.min_le_right
          (evenPos pos + 60 + (headerOf ((data.drop (evenPos pos)).take 60)).size) data.length)
        strtab rfl
      have hname : (headerOf ((data.drop (evenPos pos)).take 60)).name.length ≤ 16 :=
        List.length_take_le _ _
      rw [hstep, membersPast]
      split
      · obtain ⟨members,hmembers,hall,hcount⟩ := hnext body.bytes
        exact ⟨members,hmembers,hall,by omega⟩
      · obtain ⟨members,hmembers,hall,hcount⟩ := hnext strtab
        split
        · exact ⟨members,hmembers,hall,by omega⟩
        · obtain ⟨name,rest,hread,hrest⟩ := read_name_in hname strtab hin
          rw [hread, hmembers]
          by_cases hsym : symdef.isPrefixOf name = true
          · exact ⟨members,if_pos hsym,hall,by omega⟩
          · refine ⟨_,if_neg hsym,List.forall_mem_cons.2 ⟨hrest,hall⟩,?_⟩
            rw [List.length_cons]
            omega
    · exact ⟨[],members_from_end hpos (Nat.not_le.1 hroom) strtab,by simp,by simp⟩

/-- Whatever a file holds past its magic, reading it stops after as many members as
there is room for, each with its body in the file. -/
theorem archive_members_in {data : List UInt8} (hmagic : 8 ≤ data.length)
    (hdata : data.length < 2^63) :
    ∃ members, archiveMembers data = .ok members ∧ (∀ m ∈ members, m.body.In data) ∧
      60*members.length ≤ data.length - 8 :=
  members_from_in hdata hmagic []

end MoldMacho.Archive
