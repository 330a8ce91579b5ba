import MoldMacho.InputFiles.ParseUnwind
import MoldMacho.Lib.Lists

/-!
# The CIE of an FDE

An FDE read from an `__eh_frame` has the index of the CIE that its pointer, a
distance back from where it stands, leads to.
-/

set_option autoImplicit false

namespace MoldMacho.ParseUnwind
open MoldMacho.Arch (MachRel)
open MoldMacho.InputSections MoldMacho.EhFrame
open Bytes

/-- The CIE that starts at an offset of the section. -/
structure CieAt (addr : ℕ) (contents : List UInt8) (pos : ℕ) (cie : CieRecord) : Prop where
  data : ∃ len, readLe 4 contents pos = some len ∧ bytesAt contents pos (4+len) = some cie.data
  id : readLe 4 contents (pos+4) = some 0
  addr : cie.inputAddr = wrap32 (addr+pos)

/-- An FDE of the section whose CIE pointer leads back to the CIE of its
index. -/
def NamesCie (addr : ℕ) (contents : List UInt8) (cies : List CieRecord) (inputAddr : ℕ)
    (data : List UInt8) (cie : ℕ) : Prop :=
  ∃ pos len id c, readLe 4 contents pos = some len ∧ bytesAt contents pos (4+len) = some data ∧
    inputAddr = wrap32 (addr+pos) ∧ readLe 4 contents (pos+4) = some id ∧ id ≤ pos+4 ∧
    cies[cie]? = some c ∧ CieAt addr contents (pos+4-id) c

theorem NamesCie.append {addr : ℕ} {contents : List UInt8} {cies : List CieRecord} {inputAddr : ℕ}
    {data : List UInt8} {cie : ℕ} (h : NamesCie addr contents cies inputAddr data cie)
    (more : List CieRecord) : NamesCie addr contents (cies ++ more) inputAddr data cie := by
  obtain ⟨pos,len,id,c,hlen,hdata,haddr,hid,hle,hget,hcie⟩ := h
  refine ⟨pos,len,id,c,hlen,hdata,haddr,hid,hle,?_,hcie⟩
  rw [List.getElem?_append_left (List.getElem?_eq_some_iff.1 hget).1]
  exact hget

/-- The records found before an offset. -/
structure Scanned (addr : ℕ) (contents : List UInt8) (pos : ℕ) (found : Records) : Prop where
  cies : ∀ cie ∈ found.cies, ∃ start < pos, CieAt addr contents start cie
  fdes : ∀ fde ∈ found.fdes,
    NamesCie addr contents found.cies fde.inputAddr fde.data fde.cie

theorem add_record_scanned {addr : ℕ} {contents : List UInt8} {pos len : ℕ} {found next : Records}
    (hsize : contents.length ≤ 2^32) (hlen : readLe 4 contents pos = some len)
    (h : addRecord addr contents pos len found = some next)
    (hscanned : Scanned addr contents pos found) :
    Scanned addr contents (pos+4+len) next := by
  unfold addRecord at h
  simp only [Option.bind_eq_bind, Option.bind_eq_some_iff] at h
  obtain ⟨data,hdata,id,hid,h⟩ := h
  have hlater : ∀ cie ∈ found.cies, ∃ start < pos+4+len, CieAt addr contents start cie := by
    intro cie hcie
    obtain ⟨start,hstart,hcie⟩ := hscanned.cies cie hcie
    exact ⟨start,by omega,hcie⟩
  split at h
  · next hzero =>
    obtain ⟨aug,-,h⟩ := Option.bind_eq_some_iff.1 h
    cases h
    constructor
    · intro cie hcie
      rcases List.mem_append.1 hcie with hcie | hcie
      · exact hlater cie hcie
      · obtain rfl := List.mem_singleton.1 hcie
        exact ⟨pos,by omega,⟨len,hlen,hdata⟩,hzero ▸ hid,rfl⟩
    · exact fun fde hfde => (hscanned.fdes fde hfde).append _
  · next hnonzero =>
    obtain ⟨cie,hcie,h⟩ := Option.bind_eq_some_iff.1 h
    cases h
    refine ⟨hlater,?_⟩
    intro fde hfde
    rcases List.mem_append.1 hfde with hfde | hfde
    · exact hscanned.fdes fde hfde
    · obtain rfl := List.mem_singleton.1 hfde
      obtain ⟨hlt,haddr,-⟩ := List.findIdx?_eq_some_iff_getElem.1 hcie
      obtain ⟨start,hstart,hcieAt⟩ := hscanned.cies _ (List.getElem_mem hlt)
      have hsame := eq_of_beq haddr
      have hidlt := read_le_lt hid
      obtain ⟨word,hword,-⟩ := Option.map_eq_some_iff.1 hid
      have hin := (bytes_at_some hword).1
      rw [hcieAt.addr] at hsame
      -- Offsets less than 2^32 apart are told apart by their addresses.
      have hback : start + id = pos + 4 := by
        simp only [wrap32] at hsame
        omega
      refine ⟨pos,len,id,found.cies[cie],hlen,hdata,rfl,hid,by omega,
        List.getElem?_eq_getElem hlt,?_⟩
      rw [← hback, Nat.add_sub_cancel]
      exact hcieAt

theorem scan_records_scanned {addr : ℕ} {contents : List UInt8} {pos : ℕ} {found last : Records}
    (hsize : contents.length ≤ 2^32) (h : scanRecords addr contents pos found = some last)
    (hscanned : Scanned addr contents pos found) :
    ∃ stop, Scanned addr contents stop last := by
  fun_induction scanRecords addr contents pos found with
  | case1 => cases h
  | case2 => cases h
  | case3 pos found hpos len hlen next hnext ih =>
    exact ih h (add_record_scanned hsize hlen hnext hscanned)
  | case4 pos found hpos =>
    cases h
    exact ⟨pos,hscanned⟩

/-! ## Personalities leave the records in place -/

def cieKey (cie : CieRecord) : ℕ × List UInt8 := (cie.inputAddr,cie.data)

theorem add_personality_key {target : Target} {addr : ℕ} {encs : List (Option UInt8)}
    {cies cies' : List CieRecord} {r : MachRel}
    (h : addPersonality target addr encs cies r = some cies') :
    cies'.map cieKey = cies.map cieKey := by
  simp only [addPersonality] at h
  split at h
  · cases h
    rfl
  · next i hi =>
    split at h
    · cases h
    · next cie hcie =>
      split at h
      · cases h
        rfl
      · split at h
        · cases h
        · cases h
          obtain ⟨hlt,rfl⟩ := List.getElem?_eq_some_iff.1 hcie
          rw [List.map_set]
          apply List.ext_getElem?
          intro j
          rw [List.getElem?_set]
          split
          · next hij =>
            subst hij
            simp [hlt, cieKey]
          · rfl

theorem NamesCie.congr {addr : ℕ} {contents : List UInt8} {cies cies' : List CieRecord}
    {inputAddr : ℕ} {data : List UInt8} {cie : ℕ}
    (h : NamesCie addr contents cies inputAddr data cie)
    (hkey : cies'.map cieKey = cies.map cieKey) :
    NamesCie addr contents cies' inputAddr data cie := by
  obtain ⟨pos,len,id,c,hlen,hdata,haddr,hid,hle,hget,hcie⟩ := h
  have hsame := congrArg (fun l : List (ℕ × List UInt8) => l[cie]?) hkey
  simp only [List.getElem?_map, hget, Option.map_some] at hsame
  obtain ⟨c',hget',heq⟩ := Option.map_eq_some_iff.1 hsame
  obtain ⟨haddr',hdata'⟩ := Prod.ext_iff.1 heq
  refine ⟨pos,len,id,c',hlen,hdata,haddr,hid,hle,hget',?_,hcie.id,haddr'.trans hcie.addr⟩
  obtain ⟨clen,hclen,hcdata⟩ := hcie.data
  exact ⟨clen,hclen,hcdata.trans (congrArg some hdata'.symm)⟩

/-- Each FDE of a section under 4 GiB names the CIE that its pointer does. -/
theorem read_eh_frame_names {target : Target} {obj : StagedObject} {hdr : MachSection}
    {contents : List UInt8} {cies : List CieRecord} {fdes : List RawFde}
    (hcontents : ehFrameContents target obj hdr = some contents)
    (hsize : contents.length ≤ 2^32) (h : readEhframe target obj hdr = some (cies,fdes)) :
    ∀ fde ∈ fdes, NamesCie hdr.addr contents cies fde.inputAddr fde.data fde.cie := by
  unfold readEhframe at h
  rw [hcontents] at h
  simp only [Option.bind_eq_bind, Option.bind_some, Option.bind_eq_some_iff] at h
  obtain ⟨found,hfound,last,hlast,h⟩ := h
  cases h
  obtain ⟨stop,hscanned⟩ := scan_records_scanned hsize hfound ⟨by simp,by simp⟩
  have hkey := Lists.foldlM_keeps (I := fun cies => cies.map cieKey = found.cies.map cieKey)
    (fun _ _ _ hstep hkept => (add_personality_key hstep).trans hkept) hlast rfl
  exact fun fde hfde => (hscanned.fdes fde hfde).congr hkey

end MoldMacho.ParseUnwind
