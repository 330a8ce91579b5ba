import Mathlib.Data.List.DropRight
import Mathlib.Data.List.Infix
import MoldMacho.InputFiles.ArchiveMembers

/-!
# Archives as they are written

The ar format: records at even offsets, with names in the header, before the body or
in a table, and symbol tables among them. Reading gives the files back, but for
whitespace at the end of a name in its header.
-/

set_option autoImplicit false

namespace MoldMacho.Archive
open Decimal

structure File where
  name : List UInt8
  body : List UInt8
  date : ℕ
  deriving DecidableEq

def Member.file (m : Member) : File where
  name := m.name
  body := m.body.bytes
  date := m.date

/-- Where a file's name is. -/
inductive NameForm where
  | bsdShort
  /-- Before the body, with some NULs. -/
  | bsdLong (nuls : ℕ)
  | sysvShort
  /-- In the table of names. -/
  | sysvLong (offset : ℕ)

inductive Item where
  | file (f : File) (form : NameForm) (owner : List UInt8)
  | symtab (wide : Bool) (date : ℕ) (owner body : List UInt8)
  | strtab (date : ℕ) (owner table : List UInt8)

def padTo (n : ℕ) (bytes : List UInt8) : List UInt8 :=
  bytes ++ List.replicate (n - bytes.length) 0x20

def header (name : List UInt8) (date size : ℕ) (owner : List UInt8) : List UInt8 :=
  padTo 16 name ++ (padTo 12 (decimal date) ++ (owner ++ (padTo 10 (decimal size) ++ [0x60,0x0a])))

def record (name : List UInt8) (date : ℕ) (owner body : List UInt8) : List UInt8 :=
  header name date body.length owner ++ (body ++ List.replicate (body.length % 2) 0x0a)

def NameForm.field (form : NameForm) (name : List UInt8) : List UInt8 :=
  match form with
  | .bsdShort => name
  | .bsdLong nuls => Archive.bsdLong ++ decimal (name.length + nuls)
  | .sysvShort => name ++ [slash]
  | .sysvLong offset => slash::decimal offset

/-- What is stored of a file past its header. -/
def NameForm.stored (form : NameForm) (f : File) : List UInt8 :=
  match form with
  | .bsdLong nuls => f.name ++ List.replicate nuls 0 ++ f.body
  | _ => f.body

def symtabName (wide : Bool) : List UInt8 := if wide then sym64 else [slash]

/-- The record of an item: the name in its header, what is stored past it, and
its other fields. -/
def Item.name : Item → List UInt8
  | .file f form _ => form.field f.name
  | .symtab wide _ _ _ => symtabName wide
  | .strtab _ _ _ => [slash,slash]

def Item.stored : Item → List UInt8
  | .file f form _ => form.stored f
  | .symtab _ _ _ body => body
  | .strtab _ _ table => table

def Item.date : Item → ℕ
  | .file f _ _ => f.date
  | .symtab _ date _ _ => date
  | .strtab date _ _ => date

def Item.owner : Item → List UInt8
  | .file _ _ owner => owner
  | .symtab _ _ owner _ => owner
  | .strtab _ owner _ => owner

def Item.bytes (item : Item) : List UInt8 := record item.name item.date item.owner item.stored

def magic : List UInt8 := [0x21,0x3c,0x61,0x72,0x63,0x68,0x3e,0x0a]

def archive (items : List Item) : List UInt8 := magic ++ items.flatMap Item.bytes

/-- The file an item is for, unless it is a BSD symbol table. -/
def Item.file? : Item → Option File
  | .file f _ _ => if symdef.isPrefixOf f.name then none else some f
  | _ => none

def files (items : List Item) : List File := items.filterMap Item.file?

theorem files_cons (item : Item) (items : List Item) :
    files (item::items) = item.file?.toList ++ files items := by
  rw [files, List.filterMap_cons]
  cases item.file? <;> rfl

/-! ## What can be written -/

def lineEnd : List UInt8 := [slash,0x0a]

/-- A form can hold a name, with the table of names. A symbol table's name is not in
the table. -/
def NameForm.Holds (form : NameForm) (table name : List UInt8) : Prop :=
  match form with
  | .bsdShort => name.length ≤ 16 ∧ name.getLast? ≠ some 0x20
  | .bsdLong _ => 0 ∉ name
  | .sysvShort => name ≠ [] ∧ name.length ≤ 15 ∧ slash ∉ name
  | .sysvLong offset => ¬ symdef <+: name ∧ offset < 10^15 ∧ findBytes lineEnd name = none ∧
      name ++ lineEnd <+: table.drop offset

/-- A record's fields hold its numbers. -/
structure Fits (date : ℕ) (owner body : List UInt8) : Prop where
  date : date < 10^12
  owner : owner.length = 20
  body : body.length < 10^10

def Item.Holds (table : List UInt8) : Item → Prop
  | .file f form _ => form.Holds table f.name
  | _ => True

/-- The table of names past an item. -/
def Item.tablePast (table : List UInt8) : Item → List UInt8
  | .strtab _ _ names => names
  | _ => table

/-- The items can be written, with the table of names before them. -/
def ItemsOk : List UInt8 → List Item → Prop
  | _, [] => True
  | table, item::items =>
    Fits item.date item.owner item.stored ∧ item.Holds table ∧
      ItemsOk (item.tablePast table) items

/-! ## Headers -/

theorem pad_length {n : ℕ} {bytes : List UInt8} (h : bytes.length ≤ n) :
    (padTo n bytes).length = n := by
  rw [padTo, List.length_append, List.length_replicate]
  omega

theorem digit_plain {b : UInt8} (h : isDigit b = true) :
    isWhitespace b = false ∧ b ≠ 0x20 ∧ b ≠ slash ∧ b ≠ 0x53 := by
  have hlt := digit_value_lt h
  rw [← digit_of_value h]
  generalize digitValue b = n at hlt
  revert n
  decide

/-- A number is read from its digits, whatever but a digit follows. -/
theorem decimal_of_append (n : ℕ) {rest : List UInt8} (h : ∀ b ∈ rest.head?, isDigit b = false) :
    decimalOf (decimal n ++ rest) = n := by
  have hdigits := decimal_digits n
  have hdrop : (decimal n ++ rest).dropWhile isWhitespace = decimal n ++ rest := by
    cases hn : decimal n with
    | nil => exact absurd hn (decimal_ne_nil n)
    | cons b l =>
      have hspace := (digit_plain (hdigits b (hn ▸ List.mem_cons_self))).1
      rw [List.cons_append, List.dropWhile_cons_of_neg (by rw [hspace]; decide)]
  have htake : (decimal n ++ rest).takeWhile isDigit = decimal n := by
    rw [List.takeWhile_append_of_pos hdigits]
    cases rest with
    | nil => simp
    | cons b rest =>
      rw [List.takeWhile_cons_of_neg (by rw [h b rfl]; decide), List.append_nil]
  rw [decimalOf, hdrop, htake, decimal_value]

theorem spaces_head (n : ℕ) : ∀ b ∈ (List.replicate n (0x20 : UInt8)).head?, isDigit b = false := by
  intro b hb
  rw [List.eq_of_mem_replicate (List.mem_of_mem_head? hb)]
  decide

theorem decimal_of_pad (n k : ℕ) : decimalOf (padTo k (decimal n)) = n :=
  decimal_of_append n (spaces_head _)

/-- Past what comes before it, a field is what was put there. -/
theorem field_at {pre bytes post : List UInt8} {start stop : ℕ} (hpre : pre.length = start)
    (hstop : start + bytes.length = stop) : field (pre ++ (bytes ++ post)) start stop = bytes := by
  rw [field, List.drop_left' hpre, List.take_left' (by omega)]

section Header
variable {name owner body : List UInt8} {date size : ℕ}

theorem header_length (hname : name.length ≤ 16) (hdate : date < 10^12) (howner : owner.length = 20)
    (hsize : size < 10^10) : (header name date size owner).length = 60 := by
  simp only [header, List.length_append, pad_length hname,
    pad_length (decimal_length_le 11 hdate), pad_length (decimal_length_le 9 hsize), howner]
  rfl

theorem header_read (hname : name.length ≤ 16) (hdate : date < 10^12) (howner : owner.length = 20)
    (hsize : size < 10^10) :
    headerOf (header name date size owner) = { name := padTo 16 name, date, size } := by
  have hname16 := pad_length hname
  have hdate12 : (padTo 12 (decimal date)).length = 12 := pad_length (decimal_length_le 11 hdate)
  have hsize10 : (padTo 10 (decimal size)).length = 10 := pad_length (decimal_length_le 9 hsize)
  have hdateField : field (header name date size owner) 16 28 = padTo 12 (decimal date) :=
    field_at hname16 (by omega)
  have hsizeField : field (header name date size owner) 48 58 = padTo 10 (decimal size) := by
    have happend : header name date size owner =
        (padTo 16 name ++ padTo 12 (decimal date) ++ owner) ++
          (padTo 10 (decimal size) ++ [0x60,0x0a]) := by
      simp only [header, List.append_assoc]
    rw [happend]
    exact field_at (by simp only [List.length_append]; omega) (by omega)
  rw [headerOf, hdateField, hsizeField, decimal_of_pad, decimal_of_pad, header,
    List.take_left' hname16]

end Header

/-! ## Records -/

theorem even_pos_even {pos : ℕ} (h : pos % 2 = 0) : evenPos pos = pos := by
  rw [evenPos, if_neg (by omega)]

/-- A record is read with its fields and its body. -/
theorem members_from_record {pre post name owner body table : List UInt8} {date : ℕ}
    (hdata : (pre ++ (record name date owner body ++ post)).length < 2^63)
    (hpre : pre.length % 2 = 0) (hname : name.length ≤ 16) (hfits : Fits date owner body) :
    membersFrom (pre ++ (record name date owner body ++ post)) pre.length table =
      membersPast (pre ++ (record name date owner body ++ post))
        (pre.length + 60 + body.length) table
        { name := padTo 16 name, date, size := body.length }
        { start := pre.length + 60, bytes := body } := by
  have hheader := header_length hname hfits.date hfits.owner hfits.body
  have hread := header_read hname hfits.date hfits.owner hfits.body
  obtain ⟨data,hdef⟩ : ∃ data, data = pre ++ (record name date owner body ++ post) := ⟨_,rfl⟩
  rw [← hdef] at hdata ⊢
  have hsplit : data.drop pre.length = header name date body.length owner ++
      (body ++ (List.replicate (body.length % 2) 0x0a ++ post)) := by
    rw [hdef, List.drop_left, record]
    simp only [List.append_assoc]
  have hlen : pre.length + 60 + body.length ≤ data.length := by
    have hsum := congrArg List.length hsplit
    rw [List.length_drop] at hsum
    simp only [List.length_append] at hsum
    omega
  have hbody : data.drop (pre.length + 60) =
      body ++ (List.replicate (body.length % 2) 0x0a ++ post) := by
    rw [← List.drop_drop, hsplit, List.drop_left' hheader]
  obtain ⟨s,hs,-,hstep⟩ := @members_from_header data hdata pre.length
    (by rw [even_pos_even hpre]; omega) table
  rw [even_pos_even hpre, hsplit, List.take_left' hheader, hread] at hs hstep
  dsimp only at hs hstep
  rw [Nat.min_eq_left hlen] at hs hstep
  rw [slice, if_pos (by omega), hbody, List.take_left' (by omega)] at hs
  rw [hstep, ← Except.ok.inj hs]

/-- A body's padding is skipped. -/
theorem members_from_odd {data : List UInt8} (hdata : data.length < 2^63) {pos : ℕ}
    (hodd : pos % 2 = 1) (hpos : pos < data.length) (table : List UInt8) :
    membersFrom data pos table = membersFrom data (pos+1) table := by
  have heven : evenPos pos = pos+1 := by rw [evenPos, if_pos (by omega)]
  have hnext : evenPos (pos+1) = pos+1 := even_pos_even (by omega)
  by_cases hroom : pos+1+60 ≤ data.length
  · obtain ⟨body,hbody,-,hread⟩ := @members_from_header data hdata pos (by rw [heven]; exact hroom) table
    obtain ⟨body',hbody',-,hread'⟩ :=
      @members_from_header data hdata (pos+1) (by rw [hnext]; exact hroom) table
    rw [heven] at hbody hread
    rw [hnext] at hbody' hread'
    rw [hread, hread', Except.ok.inj (hbody.symm.trans hbody')]
  · rw [members_from_end hpos.le (by rw [heven]; omega),
      members_from_end hpos (by rw [hnext]; omega)]

/-! ## Names -/

/-- The name at an offset of the table of names. -/
def tableName (table : List UInt8) (offset : ℕ) : List UInt8 :=
  let start := table.drop offset
  start.take ((findBytes lineEnd start).getD start.length)

/-- What the name of a header is read as, and the body past it. -/
def ArHeader.nameRead (hdr : ArHeader) (table body : List UInt8) : List UInt8 × List UInt8 :=
  if bsdLong.isPrefixOf hdr.name then
    let len := min (decimalOf (hdr.name.drop 3)) body.length
    ((body.take len).takeWhile (· ≠ 0),body.drop len)
  else if [slash].isPrefixOf hdr.name then (tableName table (decimalOf (hdr.name.drop 1)),body)
  else
    (trimEnd (hdr.name.take ((hdr.name.findIdx? (· == slash)).getD hdr.name.length)),body)

theorem read_name_eq {hdr : ArHeader} (hname : hdr.name.length ≤ 16) (table : List UInt8)
    (start : ℕ) (body : List UInt8) :
    ∃ start', hdr.readName table { start, bytes := body } =
      .ok ((hdr.nameRead table body).1,
        { start := start', bytes := (hdr.nameRead table body).2 }) := by
  have hdrop (n : ℕ) : (hdr.name.drop n).length ≤ 16 := by
    rw [List.length_drop]
    omega
  rw [ArHeader.readName, ArHeader.nameRead]
  split
  · rw [parse_decimal (hdrop 3)]
    exact ⟨_,rfl⟩
  · split
    · rw [parse_decimal (hdrop 1)]
      exact ⟨_,rfl⟩
    · exact ⟨_,rfl⟩

theorem trim_spaces (name : List UInt8) (n : ℕ) :
    trimEnd (name ++ List.replicate n 0x20) = trimEnd name := by
  have hspaces : ∀ b ∈ List.replicate n (0x20 : UInt8), isWhitespace b = true := by
    intro b hb
    rw [List.eq_of_mem_replicate hb]
    rfl
  rw [trimEnd, trimEnd, List.reverse_append, List.reverse_replicate,
    List.dropWhile_append_of_pos hspaces]

theorem trim_eq {name : List UInt8} :
    trimEnd name = name ↔ ∀ b ∈ name.getLast?, isWhitespace b = false := by
  show name.rdropWhile isWhitespace = name ↔ _
  rw [List.rdropWhile_eq_self_iff]
  constructor
  · intro h b hb
    obtain ⟨hne,rfl⟩ := List.mem_getLast?_eq_getLast hb
    exact Bool.not_eq_true _ ▸ h hne
  · intro h hne
    rw [h _ (List.getLast?_eq_some_getLast hne)]
    decide

theorem prefix_mem {pat l : List UInt8} {b : UInt8} (hb : b ∈ pat) (hl : b ∉ l) :
    pat.isPrefixOf l = false := by
  rw [← Bool.not_eq_true, List.isPrefixOf_iff_prefix]
  exact fun hinit => hl (hinit.subset hb)

/-- The first end of a line is that of the name it ends. -/
theorem find_line_end {name : List UInt8} (h : findBytes lineEnd name = none) (rest : List UInt8) :
    findBytes lineEnd (name ++ lineEnd ++ rest) = some name.length := by
  induction name with
  | nil => rfl
  | cons b name ih =>
    rw [findBytes] at h
    split at h
    · cases h
    · next hfirst =>
      have hnone := Option.map_eq_none_iff.1 h
      have hnext : lineEnd.isPrefixOf (b::(name ++ lineEnd ++ rest)) = false := by
        cases name with
        | nil => simp [lineEnd, slash, List.isPrefixOf]
        | cons c name =>
          rw [lineEnd, List.isPrefixOf, List.isPrefixOf, List.isPrefixOf] at hfirst
          simpa [lineEnd, List.isPrefixOf] using hfirst
      rw [List.cons_append, List.cons_append, findBytes, hnext, ih hnone]
      rfl

/-! The three places of a name. -/

section Place
variable {hdr : ArHeader} {table body : List UInt8}

theorem name_read_before {len : ℕ} {rest : List UInt8} (hname : hdr.name = bsdLong ++ rest)
    (hrest : decimalOf rest = len) (hlen : len ≤ body.length) :
    hdr.nameRead table body = ((body.take len).takeWhile (· ≠ 0),body.drop len) := by
  have hinit : bsdLong.isPrefixOf hdr.name = true := by
    rw [hname, List.isPrefixOf_iff_prefix]
    exact List.prefix_append _ _
  have hdrop : hdr.name.drop 3 = rest := by rw [hname]; rfl
  rw [ArHeader.nameRead, if_pos hinit, hdrop, hrest]
  dsimp only
  rw [Nat.min_eq_left hlen]

theorem name_read_table {rest : List UInt8} (hname : hdr.name = slash::rest) :
    hdr.nameRead table body = (tableName table (decimalOf rest),body) := by
  have hbsd : bsdLong.isPrefixOf hdr.name = false := by rw [hname]; rfl
  have hinit : [slash].isPrefixOf hdr.name = true := by
    rw [hname, List.isPrefixOf_iff_prefix]
    exact ⟨rest,rfl⟩
  have hdrop : hdr.name.drop 1 = rest := by rw [hname]; rfl
  rw [ArHeader.nameRead, if_neg (by rw [hbsd]; decide), if_pos hinit, hdrop]

theorem name_read_here {stop : ℕ} (hbsd : bsdLong.isPrefixOf hdr.name = false)
    (hslash : [slash].isPrefixOf hdr.name = false)
    (hstop : (hdr.name.findIdx? (· == slash)).getD hdr.name.length = stop) :
    hdr.nameRead table body = (trimEnd (hdr.name.take stop),body) := by
  rw [ArHeader.nameRead, if_neg (by rw [hbsd]; decide), if_neg (by rw [hslash]; decide), hstop]

end Place

theorem table_name_eq {table name : List UInt8} {offset : ℕ}
    (hend : findBytes lineEnd name = none) (htable : name ++ lineEnd <+: table.drop offset) :
    tableName table offset = name := by
  obtain ⟨more,hmore⟩ := htable
  rw [tableName, ← hmore, find_line_end hend, Option.getD_some, List.append_assoc, List.take_left]

/-- The header of an item. -/
def Item.header (item : Item) : ArHeader where
  name := padTo 16 item.name
  date := item.date
  size := item.stored.length

/-- The header of a file is that of a file, and it has a name and the file's body. -/
def ReadsName (table : List UInt8) (f : File) (form : NameForm) (owner name : List UInt8) : Prop :=
  (Item.file f form owner).header.isStrtab = false ∧
    (Item.file f form owner).header.isSymtab = false ∧
    (Item.file f form owner).header.nameRead table (form.stored f) = (name,f.body)

section Name
variable {table owner : List UInt8} {f : File}

theorem bsd_short_reads (hslash : slash ∉ f.name) :
    ReadsName table f .bsdShort owner (trimEnd f.name) := by
  obtain ⟨hdr,hhdr⟩ : ∃ hdr, hdr = (Item.file f .bsdShort owner).header := ⟨_,rfl⟩
  have hname : hdr.name = padTo 16 f.name := by rw [hhdr]; rfl
  have hfield : slash ∉ hdr.name := by
    intro hmem
    rw [hname] at hmem
    rcases List.mem_append.1 hmem with hmem | hmem
    · exact hslash hmem
    · exact absurd (List.eq_of_mem_replicate hmem) (by decide)
  have hplain (pat : List UInt8) (hpat : slash ∈ pat) : pat.isPrefixOf hdr.name = false :=
    prefix_mem hpat hfield
  have hfind : hdr.name.findIdx? (· == slash) = none := by
    rw [List.findIdx?_eq_none_iff]
    intro b hb
    exact beq_false_of_ne fun heq => hfield (heq ▸ hb)
  rw [ReadsName, ← hhdr]
  refine ⟨hplain _ (by simp),?_,?_⟩
  · rw [ArHeader.isSymtab, hplain _ (by simp), hplain _ (by simp [sym64])]
    rfl
  · rw [name_read_here (hplain _ (by simp [bsdLong])) (hplain _ (by simp))
      (by rw [hfind, Option.getD_none]), List.take_length, hname, padTo, trim_spaces]
    rfl

theorem bsd_long_reads {nuls : ℕ} (h : (NameForm.bsdLong nuls).Holds table f.name)
    (hlen : ((NameForm.bsdLong nuls).stored f).length < 10^10) (table' : List UInt8) :
    ReadsName table' f (.bsdLong nuls) owner f.name := by
  obtain ⟨pre,hpre⟩ : ∃ pre, pre = f.name ++ List.replicate nuls 0 := ⟨_,rfl⟩
  have hstored : (NameForm.bsdLong nuls).stored f = pre ++ f.body := by rw [hpre]; rfl
  have hcount : pre.length = f.name.length + nuls := by
    rw [hpre, List.length_append, List.length_replicate]
  rw [hstored, List.length_append, hcount] at hlen
  have hname : pre.takeWhile (· ≠ 0) = f.name := by
    have hall : ∀ b ∈ f.name, decide (b ≠ 0) = true := fun b hb =>
      decide_eq_true fun hzero => h (hzero ▸ hb)
    rw [hpre, List.takeWhile_append_of_pos hall]
    cases nuls with
    | zero => simp
    | succ n => rw [List.replicate_succ, List.takeWhile_cons_of_neg (by decide), List.append_nil]
  have hfield : (Item.file f (.bsdLong nuls) owner).header.name =
      bsdLong ++ (decimal (f.name.length + nuls) ++
        List.replicate (16 - (bsdLong ++ decimal (f.name.length + nuls)).length) 0x20) := by
    rw [← List.append_assoc]
    rfl
  refine ⟨rfl,rfl,?_⟩
  rw [hstored, name_read_before hfield (decimal_of_append _ (spaces_head _)) ?_]
  · rw [List.take_left' hcount, List.drop_left' hcount, hname]
  · rw [List.length_append]
    omega

/-- A name with a slash after it is taken for one before the body if it is `#1`. -/
theorem bsd_long_slash {name rest : List UInt8} (hslash : slash ∉ name) (hname : name ≠ [0x23,0x31]) :
    bsdLong.isPrefixOf (name ++ slash::rest) = false := by
  match name with
  | [] => rfl
  | [c] => simp [bsdLong, List.isPrefixOf, slash]
  | [c,d] =>
    have hne : ¬ (0x23 = c ∧ 0x31 = d) := by
      rintro ⟨rfl,rfl⟩
      exact hname rfl
    simpa [bsdLong, List.isPrefixOf] using hne
  | c::d::e::name =>
    have he : slash ≠ e := fun heq => hslash (by simp [heq])
    simp [bsdLong, List.isPrefixOf, he]

/-- What a short name with a slash at its end is read as. -/
def sysvReadAs (name : List UInt8) : List UInt8 :=
  if name = [0x23,0x31] then [] else trimEnd name

theorem sysv_short_reads (h : NameForm.sysvShort.Holds table f.name) (table' : List UInt8) :
    ReadsName table' f .sysvShort owner (sysvReadAs f.name) := by
  obtain ⟨hne,hlen,hslash⟩ := h
  obtain ⟨hdr,hhdr⟩ : ∃ hdr, hdr = (Item.file f .sysvShort owner).header := ⟨_,rfl⟩
  have hfield : hdr.name = f.name ++
      slash::List.replicate (16 - (f.name ++ [slash]).length) 0x20 := by
    rw [hhdr]
    show f.name ++ [slash] ++ _ = _
    rw [List.append_assoc]
    rfl
  obtain ⟨c,cs,hc⟩ := List.exists_cons_of_ne_nil hne
  have hfirst : slash ≠ c := fun heq => hslash (by simp [hc, heq])
  have hplain (pat : List UInt8) : (slash::pat).isPrefixOf hdr.name = false := by
    rw [hfield, hc]
    simp [List.isPrefixOf, hfirst]
  rw [ReadsName, ← hhdr]
  refine ⟨hplain _,?_,?_⟩
  · rw [ArHeader.isSymtab, hplain, sym64, List.cons_append, hplain]
    rfl
  · by_cases hname : f.name = [0x23,0x31]
    · have hbefore : hdr.name = bsdLong ++ List.replicate 13 0x20 := by
        rw [hfield, hname]
        rfl
      rw [name_read_before hbefore (show _ = 0 by decide) (Nat.zero_le _), sysvReadAs,
        if_pos hname]
      rfl
    · have hfind : hdr.name.findIdx? (· == slash) = some f.name.length := by
        have hnone : f.name.findIdx? (· == slash) = none := by
          rw [List.findIdx?_eq_none_iff]
          exact fun b hb => beq_false_of_ne fun heq => hslash (heq ▸ hb)
        rw [hfield, List.findIdx?_append, hnone, List.findIdx?_cons, if_pos (beq_self_eq_true slash)]
        simp
      rw [name_read_here (hfield ▸ bsd_long_slash hslash hname) (hplain _)
        (by rw [hfind, Option.getD_some]), hfield, List.take_left, sysvReadAs, if_neg hname]
      rfl

theorem sysv_long_reads {offset : ℕ} (h : (NameForm.sysvLong offset).Holds table f.name) :
    ReadsName table f (.sysvLong offset) owner f.name := by
  obtain ⟨-,hoff,hend,hmore⟩ := h
  have hfield : (Item.file f (.sysvLong offset) owner).header.name = slash::(decimal offset ++
      List.replicate (16 - (slash::decimal offset).length) 0x20) := rfl
  obtain ⟨d,ds,hd⟩ := List.exists_cons_of_ne_nil (decimal_ne_nil offset)
  obtain ⟨-,hspace,hslash,hsym⟩ := digit_plain (decimal_digits offset d (hd ▸ List.mem_cons_self))
  refine ⟨?_,?_,?_⟩
  · rw [ArHeader.isStrtab, hfield, hd]
    simp [List.isPrefixOf, hslash.symm]
  · rw [ArHeader.isSymtab, hfield, hd]
    simp [List.isPrefixOf, sym64, hspace.symm, hsym.symm]
  · rw [name_read_table hfield, decimal_of_append _ (spaces_head _), table_name_eq hend hmore]
    rfl

end Name

/-! ## Names that are read back -/

/-- A name with a slash at its start that the header makes no table, and that the table
of names holds where the header says. -/
def NamesItself (table name : List UInt8) : Prop :=
  let hdr : ArHeader := { name := padTo 16 name, date := 0, size := 0 }
  hdr.isStrtab = false ∧ hdr.isSymtab = false ∧ [slash].isPrefixOf hdr.name = true ∧
    tableName table (decimalOf (hdr.name.drop 1)) = name

/-- A name in a header has no whitespace at its end, and no slash that is taken for the
end of the name or for the sign of another form. -/
def NameForm.Plain (form : NameForm) (table name : List UInt8) : Prop :=
  match form with
  | .bsdShort =>
    (slash ∉ name ∧ ∀ b ∈ name.getLast?, isWhitespace b = false) ∨ NamesItself table name
  | .sysvShort => name ≠ [0x23,0x31] ∧ ∀ b ∈ name.getLast?, isWhitespace b = false
  | _ => True

def Item.Plain (table : List UInt8) : Item → Prop
  | .file f form _ => ¬ symdef <+: f.name → form.Plain table f.name
  | _ => True

def ItemsPlain : List UInt8 → List Item → Prop
  | _, [] => True
  | table, item::items => item.Plain table ∧ ItemsPlain (item.tablePast table) items

theorem reads_name_iff {table owner name : List UInt8} {f : File} {form : NameForm}
    (h : ReadsName table f form owner name) :
    ReadsName table f form owner f.name ↔ name = f.name := by
  constructor
  · intro hname
    exact congrArg Prod.fst (h.2.2.symm.trans hname.2.2)
  · rintro rfl
    exact h

theorem before_slash (l : List UInt8) :
    slash ∉ l.take ((l.findIdx? (· == slash)).getD l.length) := by
  induction l with
  | nil => simp
  | cons b l ih =>
    rw [List.findIdx?_cons]
    split
    · simp
    · next hb =>
      have hne : slash ≠ b := fun heq => hb (by simp [heq])
      cases hfind : l.findIdx? (· == slash) with
      | none =>
        rw [hfind] at ih
        simpa [hne] using ih
      | some i =>
        rw [hfind] at ih
        simpa [hne] using ih

section Plain
variable {table owner : List UInt8} {f : File}

/-- A BSD name with a slash is read back just from the table of names. -/
theorem bsd_slash_iff (hslash : slash ∈ f.name) :
    ReadsName table f .bsdShort owner f.name ↔ NamesItself table f.name := by
  obtain ⟨hdr,hhdr⟩ : ∃ hdr, hdr = (Item.file f .bsdShort owner).header := ⟨_,rfl⟩
  have hstored : NameForm.bsdShort.stored f = f.body := rfl
  rw [ReadsName, ← hhdr, hstored]
  by_cases hfirst : [slash].isPrefixOf hdr.name = true
  · obtain ⟨rest,hrest⟩ := List.isPrefixOf_iff_prefix.1 hfirst
    have hread : hdr.nameRead table f.body = (tableName table (decimalOf rest),f.body) :=
      name_read_table hrest.symm
    have hdrop : hdr.name.drop 1 = rest := by rw [← hrest]; rfl
    rw [hread, ← hdrop, Prod.mk.injEq, hhdr]
    rw [hhdr] at hfirst
    exact ⟨fun h => ⟨h.1,h.2.1,hfirst,h.2.2.1⟩,fun h => ⟨h.1,h.2.1,h.2.2.2,rfl⟩⟩
  · refine iff_of_false ?_ (fun h => hfirst (hhdr ▸ h.2.2.1))
    rintro ⟨-,-,hread⟩
    by_cases hlong : bsdLong.isPrefixOf hdr.name = true
    · rw [ArHeader.nameRead, if_pos hlong] at hread
      obtain ⟨hname,hbody⟩ := Prod.mk.inj hread
      have hlen := congrArg List.length hbody
      rw [List.length_drop] at hlen
      have hnone : min (decimalOf (hdr.name.drop 3)) f.body.length = 0 := by omega
      rw [hnone, List.take_zero] at hname
      rw [← hname] at hslash
      cases hslash
    · rw [ArHeader.nameRead, if_neg hlong, if_neg hfirst] at hread
      have hname : trimEnd _ = f.name := congrArg Prod.fst hread
      rw [← hname] at hslash
      exact before_slash _ ((List.rdropWhile_prefix isWhitespace _).subset hslash)

theorem form_plain {form : NameForm} (h : form.Holds table f.name)
    (hlen : (form.stored f).length < 10^10) :
    ReadsName table f form owner f.name ↔ form.Plain table f.name := by
  cases form with
  | bsdShort =>
    by_cases hslash : slash ∈ f.name
    · rw [bsd_slash_iff hslash, NameForm.Plain]
      simp [hslash]
    · have hnot : ¬ NamesItself table f.name := by
        rintro ⟨-,-,hfirst,-⟩
        obtain ⟨rest,hrest⟩ := List.isPrefixOf_iff_prefix.1 hfirst
        have hmem : slash ∈ padTo 16 f.name := by
          show slash ∈ ArHeader.name { name := padTo 16 f.name, date := 0, size := 0 }
          rw [← hrest]
          exact List.mem_cons_self
        rcases List.mem_append.1 hmem with hmem | hmem
        · exact hslash hmem
        · exact absurd (List.eq_of_mem_replicate hmem) (by decide)
      rw [reads_name_iff (bsd_short_reads hslash), trim_eq, NameForm.Plain]
      simp [hslash, hnot]
  | bsdLong nuls => exact iff_of_true (bsd_long_reads h hlen table) trivial
  | sysvShort =>
    rw [reads_name_iff (sysv_short_reads h table), sysvReadAs, NameForm.Plain]
    split
    · next hname => simp [hname]
    · next hname => simp only [trim_eq, hname, ne_eq, not_false_eq_true, true_and]
  | sysvLong offset => exact iff_of_true (sysv_long_reads h) trivial

end Plain

theorem field_length_le {table : List UInt8} {f : File} {form : NameForm}
    (h : form.Holds table f.name) (hlen : (form.stored f).length < 10^10) :
    (form.field f.name).length ≤ 16 := by
  cases form with
  | bsdShort => exact h.1
  | bsdLong nuls =>
    have hstored : ((NameForm.bsdLong nuls).stored f).length =
        f.name.length + nuls + f.body.length := by
      simp only [NameForm.stored, List.length_append, List.length_replicate]
    have hdigits := decimal_length_le 9 (show f.name.length + nuls < 10^10 by omega)
    simp only [NameForm.field, bsdLong, List.length_append, List.length_cons, List.length_nil]
    omega
  | sysvShort =>
    have hname := h.2.1
    simp only [NameForm.field, List.length_append, List.length_singleton]
    omega
  | sysvLong offset =>
    have hdigits := decimal_length_le 14 h.2.1
    simp only [NameForm.field, List.length_cons]
    omega

/-! ## Symbol tables with names -/

/-- Whitespace at the end hides no symbol table. -/
theorem symdef_trim {name : List UInt8} (h : symdef <+: name) : symdef <+: trimEnd name := by
  show symdef <+: name.rdropWhile isWhitespace
  induction name using List.reverseRecOn with
  | nil => exact h
  | append_singleton name b ih =>
    rw [List.rdropWhile_concat]
    split
    · next hspace =>
      rcases List.prefix_concat_iff.1 h with heq | hinit
      · have hlast := congrArg List.getLast? heq
        rw [List.getLast?_concat] at hlast
        obtain rfl := Option.some.inj hlast
        cases hspace
      · exact ih hinit
    · exact h

/-- A name in a header that starts as a symbol table's is read as one. -/
theorem symdef_header {hdr : ArHeader} (h : symdef <+: hdr.name) (table body : List UInt8) :
    hdr.isStrtab = false ∧ hdr.isSymtab = false ∧
      symdef <+: (hdr.nameRead table body).1 := by
  obtain ⟨rest,hrest⟩ := h
  have hbsd : bsdLong.isPrefixOf hdr.name = false := by rw [← hrest]; rfl
  have hslash : [slash].isPrefixOf hdr.name = false := by rw [← hrest]; rfl
  refine ⟨by rw [ArHeader.isStrtab, ← hrest]; rfl,by rw [ArHeader.isSymtab, ← hrest]; rfl,?_⟩
  rw [name_read_here hbsd hslash rfl]
  refine symdef_trim (List.prefix_take_iff.2 ⟨⟨rest,hrest⟩,?_⟩)
  have hnone : symdef.findIdx? (· == slash) = none := by decide
  rw [← hrest, List.findIdx?_append, hnone, List.length_append]
  cases rest.findIdx? (· == slash) with
  | none => exact Nat.le_add_right _ _
  | some i => exact Nat.le_add_left _ _

/-! ## Archives -/

/-- The table of names past an item, and the file that it is read as. -/
def readStep (table : List UInt8) (item : Item) : List UInt8 × Option File :=
  if item.header.isStrtab then (item.stored,none)
  else if item.header.isSymtab then (table,none)
  else
    let (name,body) := item.header.nameRead table item.stored
    (table,if symdef.isPrefixOf name then none else some { name, body, date := item.date })

/-- The files that reading an archive gives. -/
def readFrom : List UInt8 → List Item → List File
  | _, [] => []
  | table, item::items =>
    let (table,read) := readStep table item
    read.toList ++ readFrom table items

theorem read_from_cons (table : List UInt8) (item : Item) (items : List Item) :
    readFrom table (item::items) =
      (readStep table item).2.toList ++ readFrom (readStep table item).1 items := rfl

theorem record_length {name owner body : List UInt8} {date : ℕ} (hname : name.length ≤ 16)
    (hfits : Fits date owner body) :
    (record name date owner body).length = 60 + body.length + body.length % 2 := by
  rw [record, List.length_append, header_length hname hfits.date hfits.owner hfits.body,
    List.length_append, List.length_replicate, Nat.add_assoc]

/-- What follows a record starts past its padding. -/
theorem members_from_next {pre post name owner body : List UInt8} {date : ℕ}
    (hdata : (pre ++ (record name date owner body ++ post)).length < 2^63)
    (hpre : pre.length % 2 = 0) (hname : name.length ≤ 16) (hfits : Fits date owner body)
    (table : List UInt8) :
    membersFrom (pre ++ (record name date owner body ++ post)) (pre.length + 60 + body.length) table =
      membersFrom (pre ++ (record name date owner body ++ post))
        (pre ++ record name date owner body).length table := by
  have hlen := record_length hname hfits
  rw [@List.length_append _ pre (record name date owner body), hlen]
  rcases Nat.mod_two_eq_zero_or_one body.length with heven | hodd
  · rw [heven, Nat.add_zero, Nat.add_assoc]
    rfl
  · rw [hodd, ← Nat.add_assoc, ← Nat.add_assoc]
    refine members_from_odd hdata (by omega) ?_ table
    rw [List.length_append, List.length_append, hlen]
    omega

theorem item_name_length {table : List UInt8} {item : Item} (h : item.Holds table)
    (hlen : item.stored.length < 10^10) : item.name.length ≤ 16 := by
  cases item with
  | file f form owner => exact field_length_le h hlen
  | symtab wide =>
    have hwide : (symtabName wide).length ≤ 16 := by cases wide <;> decide
    exact hwide
  | strtab => exact (by decide : [slash,slash].length ≤ 16)

/-- Reading goes on past an item as its step says. -/
theorem members_past_step (item : Item) (hname : item.name.length ≤ 16) (data : List UInt8)
    (stop start : ℕ) (table : List UInt8) {members : List Member}
    (h : membersFrom data stop (readStep table item).1 = .ok members) :
    ∃ members', membersPast data stop table item.header { start, bytes := item.stored } =
        .ok members' ∧
      members'.map Member.file = (readStep table item).2.toList ++ members.map Member.file := by
  rw [membersPast]
  rw [readStep] at h ⊢
  split
  · next hstrtab =>
    rw [if_pos hstrtab] at h
    exact ⟨members,h,rfl⟩
  · next hstrtab =>
    rw [if_neg hstrtab] at h
    split
    · next hsymtab =>
      rw [if_pos hsymtab] at h
      exact ⟨members,h,rfl⟩
    · next hsymtab =>
      rw [if_neg hsymtab] at h
      obtain ⟨start',hread⟩ := @read_name_eq item.header (pad_length hname).le table start item.stored
      rw [hread, show membersFrom data stop table = .ok members from h]
      dsimp only
      by_cases hsym : symdef.isPrefixOf (item.header.nameRead table item.stored).1 = true
      · rw [if_pos hsym]
        exact ⟨members,if_pos hsym,rfl⟩
      · rw [if_neg hsym]
        exact ⟨_,if_neg hsym,rfl⟩

/-- Reading an archive gives what the steps over its items give. -/
theorem members_from_items (items : List Item) {known table pre : List UInt8}
    (hok : ItemsOk known items) (hpre : pre.length % 2 = 0)
    (hdata : (pre ++ items.flatMap Item.bytes).length < 2^63) :
    ∃ members, membersFrom (pre ++ items.flatMap Item.bytes) pre.length table = .ok members ∧
      members.map Member.file = readFrom table items := by
  induction items generalizing known table pre with
  | nil =>
    refine ⟨[],members_from_end ?_ ?_ table,rfl⟩
    · simp
    · rw [even_pos_even hpre]
      simp
  | cons item items ih =>
    obtain ⟨hfits,hholds,hrest⟩ := hok
    have hname := item_name_length hholds hfits.body
    have hlen := record_length hname hfits
    rw [List.flatMap_cons, Item.bytes] at hdata ⊢
    have hdata' := hdata
    rw [← List.append_assoc] at hdata'
    obtain ⟨members,hread,hfiles⟩ := @ih _ (readStep table item).1 (pre ++ item.bytes) hrest
      (by rw [List.length_append, Item.bytes, hlen]; omega) hdata'
    rw [Item.bytes, List.append_assoc, ← members_from_next hdata hpre hname hfits] at hread
    rw [members_from_record hdata hpre hname hfits, read_from_cons, ← hfiles]
    exact members_past_step item hname _ _ _ table hread

/-! ## What is read back -/

section Step
variable {table known : List UInt8} {item : Item}

theorem reads_name_step {f : File} {form : NameForm} {owner name : List UInt8}
    (h : ReadsName table f form owner name) :
    readStep table (.file f form owner) =
      (table,if symdef.isPrefixOf name then none else some { f with name }) := by
  have hstored : (Item.file f form owner).stored = form.stored f := rfl
  rw [readStep, h.1, h.2.1, hstored, h.2.2]
  rfl

/-- Whatever the table of names, what stands for no file is read as none. -/
theorem read_step_none (h : item.Holds known) (hlen : item.stored.length < 10^10)
    (hfile : item.file? = none) (table : List UInt8) :
    readStep table item = (item.tablePast table,none) := by
  cases item with
  | symtab wide => cases wide <;> rfl
  | strtab => rfl
  | file f form owner =>
    have hsym : symdef.isPrefixOf f.name = true := by
      by_contra hnot
      rw [Item.file?, if_neg hnot] at hfile
      cases hfile
    have hinit := List.isPrefixOf_iff_prefix.1 hsym
    have hheader (hheader : symdef <+: (Item.file f form owner).header.name) :
        readStep table (.file f form owner) = (table,none) := by
      obtain ⟨hstrtab,hsymtab,hname⟩ := symdef_header hheader table (form.stored f)
      rw [readStep, hstrtab, hsymtab]
      exact congrArg (Prod.mk table) (if_pos (List.isPrefixOf_iff_prefix.2 hname))
    cases form with
    | bsdShort => exact hheader (hinit.trans (List.prefix_append _ _))
    | bsdLong nuls =>
      have hlong : (NameForm.bsdLong nuls).Holds known f.name := h
      rw [reads_name_step (bsd_long_reads hlong hlen table), if_pos hsym]
      rfl
    | sysvShort =>
      exact hheader ((hinit.trans (List.prefix_append _ _)).trans (List.prefix_append _ _))
    | sysvLong offset => exact absurd hinit h.1

/-- A plain item is read as its file. -/
theorem read_step_plain (h : item.Holds table) (hlen : item.stored.length < 10^10)
    (hplain : item.Plain table) : readStep table item = (item.tablePast table,item.file?) := by
  cases hfile : item.file? with
  | none => exact read_step_none h hlen hfile table
  | some f =>
    cases item with
    | symtab => cases hfile
    | strtab => cases hfile
    | file g form owner =>
      rw [Item.file?] at hfile
      split at hfile
      · cases hfile
      · next hsym =>
        have hnot : ¬ symdef <+: g.name := fun hinit => hsym (List.isPrefixOf_iff_prefix.2 hinit)
        rw [reads_name_step ((form_plain h hlen).2 (hplain hnot)), if_neg hsym, ← hfile]
        rfl

/-- What is read as its file is plain. -/
theorem plain_of_step (h : item.Holds table) (hlen : item.stored.length < 10^10)
    (hstep : (readStep table item).2 = item.file?) : item.Plain table := by
  cases item with
  | symtab => trivial
  | strtab => trivial
  | file f form owner =>
    intro hnot
    have hsym : ¬ symdef.isPrefixOf f.name = true := fun hsym =>
      hnot (List.isPrefixOf_iff_prefix.1 hsym)
    rw [Item.file?, if_neg hsym, readStep] at hstep
    refine (@form_plain table owner f form h hlen).1 ?_
    split at hstep
    · cases hstep
    · next hstrtab =>
      split at hstep
      · cases hstep
      · next hsymtab =>
        dsimp only at hstep
        split at hstep
        · cases hstep
        · have hread := Option.some.inj hstep
          exact ⟨Bool.not_eq_true _ ▸ hstrtab,Bool.not_eq_true _ ▸ hsymtab,
            Prod.ext (congrArg File.name hread) (congrArg File.body hread)⟩

end Step

/-- No more files are read than there are, whatever the table of names. -/
theorem read_from_length_le (items : List Item) {known : List UInt8} (hok : ItemsOk known items)
    (table : List UInt8) : (readFrom table items).length ≤ (files items).length := by
  induction items generalizing known table with
  | nil => exact le_rfl
  | cons item items ih =>
    obtain ⟨hfits,hholds,hrest⟩ := hok
    have hlen := ih hrest (readStep table item).1
    rw [read_from_cons, files_cons, List.length_append, List.length_append]
    cases hfile : item.file? with
    | none =>
      rw [read_step_none hholds hfits.body hfile table] at hlen ⊢
      exact Nat.add_le_add_left hlen _
    | some f =>
      have hone : (readStep table item).2.toList.length ≤ 1 := by
        cases (readStep table item).2 <;> simp
      exact Nat.add_le_add hone hlen

/-- The files are read back just if the items are plain. -/
theorem read_from_iff (items : List Item) {table : List UInt8} (hok : ItemsOk table items) :
    readFrom table items = files items ↔ ItemsPlain table items := by
  induction items generalizing table with
  | nil => exact iff_of_true rfl trivial
  | cons item items ih =>
    obtain ⟨hfits,hholds,hrest⟩ := hok
    rw [read_from_cons, files_cons, ItemsPlain]
    by_cases hplain : item.Plain table
    · rw [read_step_plain hholds hfits.body hplain, List.append_cancel_left_eq, ih hrest]
      exact ⟨fun h => ⟨hplain,h⟩,And.right⟩
    · refine iff_of_false ?_ (fun h => hplain h.1)
      intro heq
      have hne : (readStep table item).2 ≠ item.file? := fun hstep =>
        hplain (plain_of_step hholds hfits.body hstep)
      cases hfile : item.file? with
      | none =>
        rw [read_step_none hholds hfits.body hfile table, hfile] at hne
        exact hne rfl
      | some f =>
        rw [hfile] at heq hne
        cases hread : (readStep table item).2 with
        | none =>
          have hlen := read_from_length_le items hrest (readStep table item).1
          rw [hread] at heq
          have hcount := congrArg List.length heq
          simp only [Option.toList_none, Option.toList_some, List.nil_append,
            List.length_append, List.length_singleton] at hcount
          omega
        | some g =>
          rw [hread] at heq hne
          exact hne (congrArg some (List.cons.inj heq).1)

/-- Any file past its magic is read to its end, with each body in it; and an archive
gives back its files just if the names in its headers end in no whitespace, are not
`#1` with a slash and have no slash of their own, but for one that the table of names
holds where that name says. -/
theorem archives_read (data : List UInt8) (items : List Item) (hmagic : 8 ≤ data.length)
    (hdata : data.length < 2^63) (hok : ItemsOk [] items) (hsize : (archive items).length < 2^63) :
    (∃ members, archiveMembers data = .ok members ∧ (∀ m ∈ members, m.body.In data) ∧
      60*members.length ≤ data.length - 8) ∧
    ∃ members, archiveMembers (archive items) = .ok members ∧
      (members.map Member.file = files items ↔ ItemsPlain [] items) := by
  refine ⟨archive_members_in hmagic hdata,?_⟩
  obtain ⟨members,hmembers,hfiles⟩ := @members_from_items items [] [] magic hok rfl hsize
  exact ⟨members,hmembers,by rw [hfiles]; exact read_from_iff items hok⟩

def owner : List UInt8 := List.replicate 20 0x20

/-- Files with a name before the body, one in a table and one in the header. -/
def threeNames : List Item :=
  [.symtab false 0 owner [0,0,0,0],
    .strtab 0 owner [0x6c,0x6f,0x6e,0x67,0x2f,0x0a],
    .file { name := [0x61,0x20], body := [1,2,3], date := 5 } (.bsdLong 2) owner,
    .file { name := [0x6c,0x6f,0x6e,0x67], body := [4], date := 0 } (.sysvLong 0) owner,
    .file { name := [0x62], body := [], date := 1700000000 } .sysvShort owner]

theorem archives_read_three : ∃ members, archiveMembers (archive threeNames) = .ok members ∧
    members.map Member.file = [{ name := [0x61,0x20], body := [1,2,3], date := 5 },
      { name := [0x6c,0x6f,0x6e,0x67], body := [4], date := 0 },
      { name := [0x62], body := [], date := 1700000000 }] := by
  have hok : ItemsOk [] threeNames :=
    ⟨⟨by decide,by decide,by decide⟩,trivial,⟨by decide,by decide,by decide⟩,trivial,
      ⟨by decide,by decide,by decide⟩,(by decide : (0 : UInt8) ∉ [0x61,0x20]),
      ⟨by decide,by decide,by decide⟩,⟨by decide,by decide,by decide,List.prefix_rfl⟩,
      ⟨by decide,by decide,by decide⟩,⟨by decide,by decide,by decide⟩,trivial⟩
  have hb : ∀ b ∈ [(0x62 : UInt8)].getLast?, isWhitespace b = false := by
    rintro b ⟨⟩
    rfl
  have hplain : ItemsPlain [] threeNames :=
    ⟨trivial,trivial,fun _ => trivial,fun _ => trivial,fun _ => ⟨by decide,hb⟩,trivial⟩
  obtain ⟨-,members,hmembers,hfiles⟩ := archives_read magic threeNames (by decide) (by decide) hok
    (by decide +kernel)
  exact ⟨members,hmembers,hfiles.2 hplain⟩

def spaceAtEnd : List Item :=
  [.file { name := [0x61,0x20], body := [1], date := 0 } .sysvShort owner,
    .file { name := [0x23,0x31], body := [2], date := 0 } .sysvShort owner,
    .file { name := [0x61,0x2f,0x62], body := [3], date := 0 } .bsdShort owner]

theorem ok_of_some {α : Type} {e : Except Panic α} {a : α} (h : e.toOption = some a) :
    e = .ok a := by
  cases e with
  | error => cases h
  | ok b => exact congrArg Except.ok (Option.some.inj h)

/-- A name with a space before its slash is read without it, `#1` as none, and a name
with a slash in it up to there. -/
theorem archive_space_lost :
    archiveMembers (archive spaceAtEnd) =
      .ok [{ name := [0x61], body := { start := 68, bytes := [1] }, date := 0 },
        { name := [], body := { start := 130, bytes := [2] }, date := 0 },
        { name := [0x61], body := { start := 192, bytes := [3] }, date := 0 }] ∧
    ¬ ∀ items, ItemsOk [] items → (archive items).length < 2^63 →
      ∃ members, archiveMembers (archive items) = .ok members ∧
        members.map Member.file = files items := by
  have hsome : (archiveMembers (archive spaceAtEnd)).toOption =
      some [{ name := [0x61], body := { start := 68, bytes := [1] }, date := 0 },
        { name := [], body := { start := 130, bytes := [2] }, date := 0 },
        { name := [0x61], body := { start := 192, bytes := [3] }, date := 0 }] := by
    decide +kernel
  have hread := ok_of_some hsome
  refine ⟨hread,fun h => ?_⟩
  have hok : ItemsOk [] spaceAtEnd :=
    ⟨⟨by decide,by decide,by decide⟩,⟨by decide,by decide,by decide⟩,
      ⟨by decide,by decide,by decide⟩,⟨by decide,by decide,by decide⟩,
      ⟨by decide,by decide,by decide⟩,⟨by decide,by decide⟩,trivial⟩
  obtain ⟨members,hmembers,hfiles⟩ := h spaceAtEnd hok (by decide +kernel)
  rw [hread] at hmembers
  rw [← Except.ok.inj hmembers] at hfiles
  revert hfiles
  decide

end MoldMacho.Archive
