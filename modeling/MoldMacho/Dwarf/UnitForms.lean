import MoldMacho.Dwarf.CompileUnit

/-!
# Attributes by their forms

What DWARF says the bytes of an attribute of each form are, and that the reader
takes just these.
-/

set_option autoImplicit false

namespace MoldMacho.Dwarf
open Bytes Leb128

/-- Bytes that are a number of 64 bits, padded or not. -/
def Leb (bytes : List UInt8) (n : ℕ) : Prop := decodeUleb bytes = some (n,[]) ∧ n < 2^64

/-- The forms of numbers and references of a fixed size, by the sizes of an address and
of a reference into another unit. -/
def fixedForms (addr ref : ℕ) : List (ℕ × ℕ) :=
  [(dwFormAddr,addr),(dwFormRefAddr,ref),
   (dwFormData1,1),(dwFormRef1,1),(dwFormFlag,1),(dwFormAddrx1,1),
   (dwFormData2,2),(dwFormRef2,2),(dwFormAddrx2,2),
   (dwFormData4,4),(dwFormRef4,4),(dwFormSecOffset,4),(dwFormRefSup4,4),(dwFormStrpSup,4),
   (dwFormAddrx4,4),
   (dwFormData8,8),(dwFormRef8,8),(dwFormRefSig8,8),(dwFormRefSup8,8)]

/-- An attribute's bytes and its value; what is no string and no word is nothing. -/
inductive Direct (addr ref : ℕ) (implicit : ℤ) : ℕ → List UInt8 → Value → Prop
  | fixed {form : ℕ} {bytes : List UInt8} (h : (form,bytes.length) ∈ fixedForms addr ref) :
    Direct addr ref implicit form bytes (.other (ofLe bytes))
  | skipped {form : ℕ} {bytes : List UInt8}
    (h : (form,bytes.length) ∈ [(dwFormData16,16),(dwFormAddrx3,3)]) :
    Direct addr ref implicit form bytes (.other 0)
  | block {form : ℕ} {len bytes : List UInt8}
    (h : (form,len.length) ∈ [(dwFormBlock1,1),(dwFormBlock2,2),(dwFormBlock4,4)])
    (hlen : ofLe len = bytes.length) : Direct addr ref implicit form (len ++ bytes) (.other 0)
  | lebBlock {form : ℕ} {len bytes : List UInt8} (h : form ∈ [dwFormBlock,dwFormExprloc])
    (hlen : Leb len bytes.length) : Direct addr ref implicit form (len ++ bytes) (.other 0)
  | uleb {form n : ℕ} {bytes : List UInt8}
    (h : form ∈ [dwFormUdata,dwFormRefUdata,dwFormAddrx,dwFormLoclistx,dwFormRnglistx])
    (hn : decodeUleb bytes = some (n,[])) :
    Direct addr ref implicit form bytes (.other (n % 2^64))
  | sdata {n : ℤ} {bytes : List UInt8} (hn : decodeSleb bytes = some (n,[])) :
    Direct addr ref implicit dwFormSdata bytes (.other (ofSigned n))
  | flagPresent : Direct addr ref implicit dwFormFlagPresent [] (.other 1)
  | implicitConst :
    Direct addr ref implicit dwFormImplicitConst [] (.other (ofSigned implicit))
  | string {s : List UInt8} (hs : 0 ∉ s) :
    Direct addr ref implicit dwFormString (s ++ [0]) (.inline s)
  | strp {bytes : List UInt8} (h : bytes.length = 4) :
    Direct addr ref implicit dwFormStrp bytes (.strp (ofLe bytes))
  | lineStrp {bytes : List UInt8} (h : bytes.length = 4) :
    Direct addr ref implicit dwFormLineStrp bytes (.lineStrp (ofLe bytes))
  | strx {n : ℕ} {bytes : List UInt8} (hn : Leb bytes n) :
    Direct addr ref implicit dwFormStrx bytes (.strx n)
  | strxFixed {form : ℕ} {bytes : List UInt8}
    (h : (form,bytes.length) ∈ [(dwFormStrx1,1),(dwFormStrx2,2),(dwFormStrx3,3),(dwFormStrx4,4)]) :
    Direct addr ref implicit form bytes (.strx (ofLe bytes))

/-- The form that an attribute's bytes begin by naming, through any number of others. -/
inductive Names : ℕ → List UInt8 → ℕ → Prop
  | itself {form : ℕ} (h : form ≠ dwFormIndirect) : Names form [] form
  | next {form actual : ℕ} {lead more : List UInt8} (hlead : Leb lead form)
    (h : Names form more actual) : Names dwFormIndirect (lead ++ more) actual

/-! ## Numbers and words -/

theorem Leb.reads {bytes : List UInt8} {n : ℕ} (h : Leb bytes n) : Reads uleb bytes n := by
  have hreads := uleb_reads h.1
  rwa [Nat.mod_eq_of_lt h.2] at hreads

theorem word_reads_length {n : ℕ} {bytes : List UInt8} (h : bytes.length = n) :
    Reads (word n) bytes (ofLe bytes) := h ▸ word_reads bytes

theorem byte_reads {α : Type} (f : ℕ → α) {bytes : List UInt8} (h : bytes.length = 1) :
    Reads (do return f (← u8).toNat) bytes (f (ofLe bytes)) := by
  obtain ⟨b,rfl⟩ := List.length_eq_one_iff.1 h
  have hreads := (u8_reads b).map fun b => f b.toNat
  rwa [ofLe, ofLe, Nat.mul_zero, Nat.add_zero]

/-- Three bytes one by one. -/
theorem three_reads {α : Type} (f : ℕ → α) {bytes : List UInt8} (h : bytes.length = 3) :
    Reads (do return f (ofLe [← u8,← u8,← u8,0])) bytes (f (ofLe bytes)) := by
  obtain ⟨a,b,c,rfl⟩ := List.length_eq_three.1 h
  exact (u8_reads a).bind ((u8_reads b).bind ((u8_reads c).map fun c => f (ofLe [a,b,c,0])))

/-- A block is skipped by its length. -/
theorem block_reads {op : Parse ℕ} {len bytes : List UInt8} (h : Reads op len bytes.length) :
    Reads (do skip (← op); return Value.other 0) (len ++ bytes) (.other 0) :=
  h.bind ((skip_reads bytes).map fun _ => Value.other 0)

/-- The code's sizes are those of the unit, for a form that they bear on. -/
def SizesRead (addr ref form : ℕ) : Prop :=
  (form = dwFormAddr → addr = 4 ∨ addr = 8) ∧ (form = dwFormRefAddr → ref = 4)

theorem fixed_reads {addr ref form : ℕ} {implicit : ℤ} {bytes : List UInt8}
    (h : (form,bytes.length) ∈ fixedForms addr ref) (hsizes : SizesRead addr ref form) :
    Reads (readDirect addr implicit form) bytes (.other (ofLe bytes)) := by
  simp only [fixedForms, List.mem_cons, Prod.mk.injEq, List.not_mem_nil, or_false] at h
  rcases h with ⟨rfl,h⟩ | ⟨rfl,h⟩ | h
  · have hread : Reads (do return Value.other (← if addr = 4 then u32 else u64)) bytes
        (.other (ofLe bytes)) := by
      rcases hsizes.1 rfl with rfl | rfl
      · exact (word_reads_length h).map Value.other
      · exact (word_reads_length h).map Value.other
    exact hread
  · exact (word_reads_length (h.trans (hsizes.2 rfl))).map Value.other
  rcases h with ⟨rfl,h⟩ | ⟨rfl,h⟩ | ⟨rfl,h⟩ | ⟨rfl,h⟩ | h
  iterate 4 exact byte_reads Value.other h
  rcases h with ⟨rfl,h⟩ | ⟨rfl,h⟩ | ⟨rfl,h⟩ | ⟨rfl,h⟩ | ⟨rfl,h⟩ | ⟨rfl,h⟩ | ⟨rfl,h⟩ | ⟨rfl,h⟩ |
    ⟨rfl,h⟩ | ⟨rfl,h⟩ | ⟨rfl,h⟩ | ⟨rfl,h⟩ | ⟨rfl,h⟩ <;>
  exact (word_reads_length h).map Value.other

/-- The reader takes what an attribute of a form is, and its value. -/
theorem direct_reads {addr ref form : ℕ} {implicit : ℤ} {bytes : List UInt8} {v : Value}
    (h : Direct addr ref implicit form bytes v) (hsizes : SizesRead addr ref form) :
    Reads (readDirect addr implicit form) bytes v := by
  cases h with
  | fixed h => exact fixed_reads h hsizes
  | skipped h =>
    simp only [List.mem_cons, Prod.mk.injEq, List.not_mem_nil, or_false] at h
    rcases h with ⟨rfl,h⟩ | ⟨rfl,h⟩
    · exact (h ▸ skip_reads bytes).map fun _ => Value.other 0
    · exact (h ▸ skip_reads bytes).map fun _ => Value.other 0
  | block h hlen =>
    simp only [List.mem_cons, Prod.mk.injEq, List.not_mem_nil, or_false] at h
    rcases h with ⟨rfl,h⟩ | ⟨rfl,h⟩ | ⟨rfl,h⟩
    · obtain ⟨b,rfl⟩ := List.length_eq_one_iff.1 h
      rw [ofLe, ofLe, Nat.mul_zero, Nat.add_zero] at hlen
      exact (u8_reads b).bind ((hlen ▸ skip_reads _).map fun _ => Value.other 0)
    · exact block_reads (hlen ▸ word_reads_length h)
    · exact block_reads (hlen ▸ word_reads_length h)
  | lebBlock h hlen =>
    simp only [List.mem_cons, List.not_mem_nil, or_false] at h
    rcases h with rfl | rfl
    · exact block_reads hlen.reads
    · exact block_reads hlen.reads
  | uleb h hn =>
    simp only [List.mem_cons, List.not_mem_nil, or_false] at h
    rcases h with rfl | rfl | rfl | rfl | rfl <;> exact (uleb_reads hn).map Value.other
  | @sdata n _ hn =>
    have hread := (sleb_reads hn).map fun n => Value.other (ofSigned n)
    rw [ofSigned, BitVec.ofInt_toInt] at hread
    exact hread
  | flagPresent => exact Reads.pure _
  | implicitConst => exact Reads.pure _
  | string hs => exact (cstr_reads hs).map Value.inline
  | strp h => exact (word_reads_length h).map Value.strp
  | lineStrp h => exact (word_reads_length h).map Value.lineStrp
  | strx hn => exact hn.reads.map Value.strx
  | strxFixed h =>
    simp only [List.mem_cons, Prod.mk.injEq, List.not_mem_nil, or_false] at h
    rcases h with ⟨rfl,h⟩ | ⟨rfl,h⟩ | ⟨rfl,h⟩ | ⟨rfl,h⟩
    · exact byte_reads Value.strx h
    · exact (word_reads_length h).map Value.strx
    · exact three_reads Value.strx h
    · exact (word_reads_length h).map Value.strx

theorem form_reads {addr ref form actual : ℕ} {implicit : ℤ} {lead bytes : List UInt8} {v : Value}
    (hnames : Names form lead actual) (h : Direct addr ref implicit actual bytes v)
    (hsizes : SizesRead addr ref actual) :
    Reads (readForm addr implicit form) (lead ++ bytes) v := by
  induction hnames with
  | itself hform =>
    rw [read_form_direct _ _ hform]
    exact direct_reads h hsizes
  | next hlead _ ih =>
    rw [read_form_indirect, List.append_assoc]
    exact hlead.reads.bind (ih h hsizes)

end MoldMacho.Dwarf
