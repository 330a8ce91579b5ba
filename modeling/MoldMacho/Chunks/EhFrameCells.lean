import MoldMacho.Chunks.EhFrameKept

/-!
# Where a final image has the personalities' cells

A CIE's bytes in the section are the object's but for the four that are taken for
its personality's cell. So if the section means what the object's did wherever the
GOT is, these four are the CIE's personality pointer.
-/

set_option autoImplicit false

namespace MoldMacho.LengthRecords
open Bytes

/-- A record that the section splits into stands where it starts. -/
theorem split_bytes {contents : List UInt8} {pos : ℕ} {recs : List (ℕ × List UInt8)}
    (h : split contents pos = some recs) {p : ℕ × List UInt8} (hp : p ∈ recs) {i : ℕ}
    (hi : i < p.2.length) : p.2[i]? = contents[p.1+i]? := by
  fun_induction split contents pos generalizing recs with
  | case1 => cases h
  | case2 => cases h
  | case3 pos hpos len hlen rec hrec ih =>
    obtain ⟨rest,hrest,rfl⟩ := Option.map_eq_some_iff.1 h
    rcases List.mem_cons.1 hp with rfl | hp
    · obtain ⟨hle,rfl⟩ := bytes_at_some hrec
      rw [List.length_take] at hi
      rw [List.getElem?_take_of_lt (by omega), List.getElem?_drop]
    · exact ih hrest hp
  | case4 =>
    cases h
    cases hp

end MoldMacho.LengthRecords

namespace MoldMacho.EhFrameSection
open MoldMacho.EhFrame (readPcrel readValue wrap32 wrap64)
open MoldMacho.InputSections
open Bytes LengthRecords Replacements

section Copies
variable {ctx : Context} {image : Image} {records : List (EhRec × ℕ)} {buf out : List UInt8}

theorem put_below {bytes : List UInt8} {off i : ℕ} (h : put buf off bytes = some out)
    (hi : i < off) : out[i]? = buf[i]? := by
  rw [put] at h
  split at h
  · next hin =>
    obtain rfl := Option.some.inj h
    rw [write_get hin, if_neg (by omega)]
  · cases h

/-- Copying a record changes no byte before it. -/
theorem copy_below {p : EhRec × ℕ} {i : ℕ} (h : copyRecord ctx image records buf p = some out)
    (hi : i < p.2) : out[i]? = buf[i]? := by
  obtain ⟨r,off⟩ := p
  dsimp only at hi
  cases r with
  | cie c =>
    simp only [copyRecord, Option.bind_eq_bind, Option.bind_eq_some_iff] at h
    obtain ⟨cie,-,mid,hmid,h⟩ := h
    split at h
    · cases h
      exact put_below hmid hi
    · exact (put_below h (by omega)).trans (put_below hmid hi)
  | fde f =>
    simp only [copyRecord, relocateFde, Option.bind_eq_bind, Option.bind_eq_some_iff] at h
    obtain ⟨fde,-,data,hdata,cie,-,ptr,hptr,func,hfunc,h⟩ := h
    have hhead : func[i]? = buf[i]? := (put_below hfunc (by omega)).trans
      ((put_below hptr (by omega)).trans (put_below hdata hi))
    split at h
    · cases h
      exact hhead
    · obtain ⟨pos,-,h⟩ := Option.bind_eq_some_iff.1 h
      exact (put_below h (by omega)).trans hhead

theorem copies_below {l : List (EhRec × ℕ)} {n i : ℕ} (hl : ∀ p ∈ l, n ≤ p.2)
    (h : l.foldlM (copyRecord ctx image records) buf = some out) (hi : i < n) :
    out[i]? = buf[i]? := by
  induction l generalizing buf with
  | nil =>
    cases h
    rfl
  | cons p l ih =>
    rw [List.forall_mem_cons] at hl
    rw [List.foldlM_cons, Option.bind_eq_bind, Option.bind_eq_some_iff] at h
    obtain ⟨mid,hmid,h⟩ := h
    exact (ih hl.2 h).trans (copy_below hmid (by omega))

/-- A CIE copied has the object's bytes outside its cell. -/
theorem copy_cie {c off i : ℕ} {cie : CieRecord} (hc : ctx.cies[c]? = some cie)
    (h : copyRecord ctx image records buf (.cie c,off) = some out) (hi : i < cie.data.length)
    (hout : ¬ (cie.personalityOffset ≤ i ∧ i < cie.personalityOffset+4)) :
    out[off+i]? = cie.data[i]? := by
  simp only [copyRecord, hc, Option.bind_eq_bind, Option.bind_some,
    Option.bind_eq_some_iff] at h
  obtain ⟨mid,hmid,h⟩ := h
  have hcopied : mid[off+i]? = cie.data[i]? := by
    rw [put] at hmid
    split at hmid
    · next hin =>
      obtain rfl := Option.some.inj hmid
      rw [write_get hin, if_pos (by omega), Nat.add_sub_cancel_left]
    · cases hmid
  split at h
  · cases h
    exact hcopied
  · rw [put] at h
    split at h
    · next hin =>
      obtain rfl := Option.some.inj h
      rw [write_get hin, if_neg (by rw [to_le_length]; omega)]
      exact hcopied
    · cases h

/-- Records laid out within 32 bits end before the next ones start. -/
theorem layout_apart {rs : List EhRec} (hsum : (rs.map (EhRec.size ctx)).sum < 2^32) :
    (layOut ctx rs).records.Pairwise fun p q => p.2+p.1.size ctx ≤ q.2 := by
  have hplaced := @place_placed _ (EhRec.size ctx) (fun p => p.1.data ctx) (fun _ => rfl) 0 rs
    (by omega)
  have hpairs := (placed_apart ((layOut ctx rs).records.map fun p => p.1.data ctx) 0).2
  rw [layOut] at hpairs ⊢
  rw [← hplaced, List.pairwise_map] at hpairs
  exact hpairs

/-- The section has a CIE's bytes where the CIE is laid out, but for its cell. -/
theorem section_cie {rs : List EhRec} (hsum : (rs.map (EhRec.size ctx)).sum < 2^32) {c pos i : ℕ}
    {cie : CieRecord} (hmem : (.cie c,pos) ∈ (layOut ctx rs).records)
    (hc : ctx.cies[c]? = some cie)
    (h : copyBuf ctx image (layOut ctx rs).records buf = some out) (hi : i < cie.data.length)
    (hout : ¬ (cie.personalityOffset ≤ i ∧ i < cie.personalityOffset+4)) :
    out[pos+i]? = cie.data[i]? := by
  have hapart := layout_apart hsum
  rw [copyBuf] at h
  generalize (layOut ctx rs).records = records at hmem hapart h
  obtain ⟨front,back,hsplit⟩ := List.append_of_mem hmem
  conv at h => lhs; rw [hsplit]
  rw [hsplit, List.pairwise_append, List.pairwise_cons] at hapart
  rw [List.foldlM_append, Option.bind_eq_bind, Option.bind_eq_some_iff] at h
  obtain ⟨before,-,h⟩ := h
  rw [List.foldlM_cons, Option.bind_eq_bind, Option.bind_eq_some_iff] at h
  obtain ⟨mid,hmid,h⟩ := h
  have hsize : EhRec.size ctx (.cie c) = cie.data.length := by
    rw [EhRec.size, EhRec.data, hc]
    rfl
  have hafter : ∀ q ∈ back, pos+cie.data.length ≤ q.2 := by
    intro q hq
    have hle := hapart.2.1.1 q hq
    rwa [hsize] at hle
  exact (copies_below hafter h (by omega)).trans (copy_cie hc hmid hi hout)

end Copies

/-! ## The cell read back -/

theorem read_four {rec : List UInt8} {p n : ℕ} (h : readLe 4 rec p = some n) :
    ∃ a b c d : UInt8, rec[p]? = some a ∧ rec[p+3]? = some d ∧
      n = a.toNat + 256*(b.toNat + 256*(c.toNat + 256*d.toNat)) := by
  obtain ⟨bytes,hbytes,rfl⟩ := Option.map_eq_some_iff.1 h
  obtain ⟨hle,hslice⟩ := bytes_at_some hbytes
  have hlen : bytes.length = 4 := by
    rw [hslice, List.length_take, List.length_drop]
    omega
  have hget (k : ℕ) (hk : k < 4) : bytes[k]? = rec[p+k]? := by
    rw [hslice, List.getElem?_take_of_lt hk, List.getElem?_drop]
  match bytes, hlen with
  | [a,b,c,d], _ =>
    exact ⟨a,b,c,d,(hget 0 (by decide)).symm,(hget 3 (by decide)).symm,by simp [ofLe]⟩

/-- A pointer that leads `d` bytes past itself holds `d`. -/
theorem read_pcrel_self {rec : List UInt8} {p pos d : ℕ} (hd : d < 2^31)
    (h : readPcrel rec p 4 pos = some (wrap64 (pos+p+d))) : readLe 4 rec p = some d := by
  obtain ⟨v,hv,hwrap⟩ := Option.map_eq_some_iff.1 h
  rw [readValue, if_pos rfl] at hv
  obtain ⟨n,hn,rfl⟩ := Option.map_eq_some_iff.1 hv
  have hlt := read_le_lt hn
  rw [hn]
  congr 1
  simp only [wrap64] at hwrap
  split at hwrap <;> omega

section Final
variable {ctx : Context}

/-- Where the GOT is `d` bytes past a CIE's personality pointer, that holds `d`;
and the CIE has the object's bytes outside the cell that was written. -/
theorem final_cie (hsum : ((finalRecords (dropFolded ctx)).map
      (EhRec.size (dropFolded ctx))).sum < 2^32)
    (hfinal : ∀ image, FinalImage ctx image) {c : ℕ} {cie : CieRecord} {sym : ℕ}
    (hlisted : .cie c ∈ finalRecords (dropFolded ctx)) (hc : ctx.cies[c]? = some cie)
    (hsym : cie.personality = some sym) :
    ∃ p, personalityPos cie.data = some p ∧ ∀ d < 2^31, ∃ rec : List UInt8,
      rec.length = cie.data.length ∧ readLe 4 rec p = some d ∧
      ∀ i < cie.data.length, ¬ (cie.personalityOffset ≤ i ∧ i < cie.personalityOffset+4) →
        rec[i]? = cie.data[i]? := by
  have hsection := construct_section ctx
  have hfst : (layOut (dropFolded ctx) (finalRecords (dropFolded ctx))).records.map Prod.fst =
      finalRecords (dropFolded ctx) := place_map_fst 0 _
  rw [← hfst] at hlisted
  obtain ⟨⟨r,pos⟩,hmem,hr⟩ := List.mem_map.1 hlisted
  dsimp only at hr
  subst hr
  have hwritten (image : Image) : ∃ rec, CieWritten image cie pos rec ∧
      ∀ i < cie.data.length, ¬ (cie.personalityOffset ≤ i ∧ i < cie.personalityOffset+4) →
        rec[i]? = cie.data[i]? := by
    obtain ⟨out,hout⟩ := (hfinal image).written hsum
      (List.replicate (construct ctx).2.size 0) List.length_replicate
    have hright := (hfinal image).right _ out List.length_replicate hout
    rw [hsection] at hright hout
    obtain ⟨recs,hrecs,hall⟩ := hright.split
    obtain ⟨rec,hrec,hat,cie',hc',hcie⟩ := MoldMacho.Lists.forall₂_mem hall hmem
    obtain rfl := Option.some.inj (hc.symm.trans hc')
    refine ⟨rec.2,hcie,fun i hi hcell => ?_⟩
    rw [split_bytes hrecs hrec (by rw [hcie.length]; exact hi), hat]
    exact section_cie hsum hmem hc hout hi hcell
  obtain ⟨_,hfirst,-⟩ := hwritten {}
  obtain ⟨p,hp,-⟩ := hfirst.personality sym hsym
  refine ⟨p,hp,fun d hd => ?_⟩
  obtain ⟨rec,hcie,hrest⟩ := hwritten { gotAddr := fun _ => pos+p+d }
  obtain ⟨p',hp',hread⟩ := hcie.personality sym hsym
  obtain rfl := Option.some.inj (hp.symm.trans hp')
  refine ⟨rec,hcie.length,?_,hrest⟩
  dsimp only at hread
  rw [Nat.zero_add] at hread
  apply read_pcrel_self hd
  refine hread (Or.inr (Or.inl ?_))
  simp only [distance, wrap64]
  omega

/-- If the section is right wherever the GOT is, the cells that are written are the
personality pointers. -/
theorem cells_of_final (hok : RecordsOk ctx) (hsum : ((finalRecords (dropFolded ctx)).map
      (EhRec.size (dropFolded ctx))).sum < 2^32)
    (hfinal : ∀ image, FinalImage ctx image) : CellsIn ctx (isKept ctx) := by
  rw [← drop_folded_cells]
  intro fde hfde _ cie hc sym hsym
  have hlisted : .cie fde.cie ∈ finalRecords (dropFolded ctx) :=
    ((final_lists (drop_folded_ok hok)).cies fde.cie).2 ⟨fde,hfde,rfl,rfl⟩
  obtain ⟨p,hp,hreads⟩ := final_cie hsum hfinal hlisted hc hsym
  obtain ⟨zero,hlen,hzero,hzeroRest⟩ := hreads 0 (by decide)
  obtain ⟨one,-,hone,honeRest⟩ := hreads 1 (by decide)
  obtain ⟨high,-,hhigh,hhighRest⟩ := hreads (2^24) (by decide)
  have hin : p+4 ≤ cie.data.length := by
    obtain ⟨bytes,hbytes,-⟩ := Option.map_eq_some_iff.1 hzero
    have hle := (bytes_at_some hbytes).1
    omega
  obtain ⟨a₀,b₀,c₀,d₀,hfirst₀,hlast₀,hval₀⟩ := read_four hzero
  obtain ⟨a₁,b₁,c₁,d₁,hfirst₁,-,hval₁⟩ := read_four hone
  obtain ⟨a₂,b₂,c₂,d₂,-,hlast₂,hval₂⟩ := read_four hhigh
  -- a byte of the pointer outside the cell would be one and the same for all distances
  have hfirst : cie.personalityOffset ≤ p ∧ p < cie.personalityOffset+4 := by
    by_contra hcell
    rw [hzeroRest p (by omega) hcell, ← honeRest p (by omega) hcell, hfirst₁] at hfirst₀
    obtain rfl := Option.some.inj hfirst₀
    omega
  have hlast : cie.personalityOffset ≤ p+3 ∧ p+3 < cie.personalityOffset+4 := by
    by_contra hcell
    rw [hzeroRest (p+3) (by omega) hcell, ← hhighRest (p+3) (by omega) hcell, hlast₂] at hlast₀
    obtain rfl := Option.some.inj hlast₀
    have h₀ := a₂.toNat_lt
    have h₁ := b₂.toNat_lt
    have h₂ := c₂.toNat_lt
    omega
  have heq : cie.personalityOffset = p := by omega
  rw [heq]
  exact ⟨hp,hin⟩

end Final

end MoldMacho.EhFrameSection
