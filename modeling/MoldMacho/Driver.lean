import MoldMacho.OutputFile
import MoldMacho.Passes.ComputeUuid

/-!
# Writing the linked image

The buffer's last parts are made one after another, each reading those before it:
the symbol table and its strings, the mach header, the UUID and the signature.
Each range of the buffer is queued for the file as soon as it is final.
-/

set_option autoImplicit false

namespace MoldMacho.Driver
open MoldMacho.Bytes MoldMacho.CodeSignature MoldMacho.ComputeUuid MoldMacho.LoadCommands
open MoldMacho.OutputFile MoldMacho.WriterPool

/-- What writes the symbol table and its strings into their slices of the buffer. -/
structure SymtabWriter where
  copyBuf : List UInt8 → List UInt8 → List UInt8 × List UInt8
  syms_length : ∀ syms strtab, (copyBuf syms strtab).1.length = syms.length
  strtab_length : ∀ syms strtab, (copyBuf syms strtab).2.length = strtab.length

structure Image where
  ctx : CodeSignature.Context
  args : Args
  hdr : MachHeader
  cmds : List LoadCommand
  symtab : SymtabWriter
  symoff : ℕ
  symsize : ℕ
  stroff : ℕ
  strsize : ℕ
  outputSize : ℕ

/-- The buffer, and the page hashes once they are made. -/
abbrev Data := List UInt8 × List (List UInt8)

def byte (data : Data) (p : ℕ) : UInt8 := data.1.getD p 0

section Link
variable (H : Hashes) (img : Image)

def Image.hdrEnd : ℕ := img.ctx.machHeader.size

/-- The signature's start, or the buffer's end without one. -/
def Image.sigStart : ℕ :=
  if img.args.adhocCodesign then img.ctx.codeSignature.fileoff else img.outputSize

def Image.symtabStart : ℕ := min img.symoff img.stroff

def slice (buf : List UInt8) (off n : ℕ) : List UInt8 := (buf.drop off).take n

def copySymtab (data : Data) : Data :=
  let buf := data.1
  let (syms,strtab) :=
    img.symtab.copyBuf (slice buf img.symoff img.symsize) (slice buf img.stroff img.strsize)
  (writeAt (writeAt buf img.symoff syms) img.stroff strtab,data.2)

def writeHeader (data : Data) : Data := (writeMachHeader img.hdr img.cmds data.1,data.2)

def makeUuid (data : Data) : Data :=
  match computeUuid H img.args img.hdrEnd img.sigStart data.1 with
  | some (hashes,buf) => (buf,hashes)
  | none => data

def sign (data : Data) : Data := (CodeSignature.write H img.ctx data.1 data.2,data.2)

/-- The last steps of a link, less the queue's close. -/
def link : List (Action Data) :=
  queue img.hdrEnd (img.symtabStart - img.hdrEnd) ++
    .edit (copySymtab img)::
      (queue img.symtabStart (img.sigStart - img.symtabStart) ++
        .edit (writeHeader img)::.edit (makeUuid H img)::
          (queue 0 img.hdrEnd ++
            ((if img.args.adhocCodesign then [.edit (sign H img)] else []) ++
              queue img.sigStart (img.outputSize - img.sigStart))))

end Link

/-- Where an image's parts are: the header with its commands first, the symbol
table and the strings apart in either order, and the signature last. -/
structure Image.Fits (img : Image) : Prop where
  commands : commandsEnd img.cmds ≤ img.hdrEnd
  header : img.hdrEnd ≤ img.symtabStart
  symtab : img.symoff + img.symsize ≤ img.sigStart
  strtab : img.stroff + img.strsize ≤ img.sigStart
  apart : img.symoff + img.symsize ≤ img.stroff ∨ img.stroff + img.strsize ≤ img.symoff
  signature : img.args.adhocCodesign = true →
    img.ctx.codeSignature.fileoff + img.ctx.codeSignature.size = img.outputSize

section Frames
variable {H : Hashes} {img : Image}

theorem get_bytes_at (buf : List UInt8) (p : ℕ) : buf[p]? = (bytesAt buf p 1).bind List.head? := by
  rw [bytesAt]
  split
  · rw [Option.bind_some, List.head?_take, if_neg one_ne_zero, List.head?_drop]
  · rw [List.getElem?_eq_none (by omega)]
    rfl

theorem byte_congr {data data' : Data} {p : ℕ} (h : bytesAt data'.1 p 1 = bytesAt data.1 p 1) :
    byte data' p = byte data p := by
  rw [byte, byte, List.getD_eq_getElem?_getD, List.getD_eq_getElem?_getD, get_bytes_at, h,
    ← get_bytes_at]

theorem slice_length {buf : List UInt8} {off n : ℕ} (h : off + n ≤ buf.length) :
    (slice buf off n).length = n := by
  rw [slice, List.length_take, List.length_drop]
  omega

theorem write_frame {buf bytes : List UInt8} {off : ℕ} (h : off + bytes.length ≤ buf.length)
    {p : ℕ} (hp : p < off ∨ off + bytes.length ≤ p) :
    bytesAt (writeAt buf off bytes) p 1 = bytesAt buf p 1 :=
  bytes_at_write_apart h (hp.imp_left Nat.succ_le_of_lt)

theorem copy_symtab_frame (h : img.Fits) {data : Data} (hlen : img.sigStart ≤ data.1.length) :
    (copySymtab img data).1.length = data.1.length ∧
      ∀ p < img.symtabStart, byte (copySymtab img data) p = byte data p := by
  have hsyms := slice_length (h.symtab.trans hlen)
  have hstrs := slice_length (h.strtab.trans hlen)
  rw [← img.symtab.syms_length _ (slice data.1 img.stroff img.strsize)] at hsyms
  rw [← img.symtab.strtab_length (slice data.1 img.symoff img.symsize)] at hstrs
  have hsymtab := h.symtab
  have hstrtab := h.strtab
  have hfirst : img.symoff + (img.symtab.copyBuf (slice data.1 img.symoff img.symsize)
      (slice data.1 img.stroff img.strsize)).1.length ≤ data.1.length := by omega
  have hlength := write_at_length hfirst
  have hsecond : img.stroff + (img.symtab.copyBuf (slice data.1 img.symoff img.symsize)
      (slice data.1 img.stroff img.strsize)).2.length ≤ (writeAt data.1 img.symoff
        (img.symtab.copyBuf (slice data.1 img.symoff img.symsize)
          (slice data.1 img.stroff img.strsize)).1).length := by omega
  constructor
  · exact (write_at_length hsecond).trans hlength
  · intro p hp
    rw [Image.symtabStart, lt_min_iff] at hp
    exact byte_congr ((write_frame hsecond (Or.inl hp.2)).trans (write_frame hfirst (Or.inl hp.1)))

theorem write_header_frame (h : img.Fits) {data : Data} (hlen : img.sigStart ≤ data.1.length) :
    (writeHeader img data).1.length = data.1.length ∧
      ∀ p, img.hdrEnd ≤ p → byte (writeHeader img data) p = byte data p := by
  have hcommands := h.commands
  have hsymtab := h.symtab
  have hheader := h.header.trans (min_le_left _ _)
  have hbytes : (machHeaderBytes img.hdr img.cmds ++ img.cmds.flatMap LoadCommand.bytes).length =
      commandsEnd img.cmds := by
    rw [List.length_append, mach_header_length, commands_length]
    rfl
  constructor
  · exact write_mach_header_length (by omega)
  · intro p hp
    exact byte_congr (write_frame (by omega) (Or.inr (by omega)))

theorem make_uuid_frame (h : img.Fits) (data : Data) :
    (makeUuid H img (writeHeader img data)).1.length = (writeHeader img data).1.length ∧
      ∀ p, img.hdrEnd ≤ p →
        byte (makeUuid H img (writeHeader img data)) p = byte (writeHeader img data) p := by
  obtain ⟨hashes,out,hout,hst⟩ := compute_uuid_frame H img.args img.hdrEnd img.sigStart
    (write_mach_header img.hdr img.cmds data.1)
  have hmade : makeUuid H img (writeHeader img data) = (out,hashes) := by
    rw [makeUuid, writeHeader, hout]
  rw [hmade]
  exact ⟨hst.length,fun p hp => byte_congr (hst.frame p 1 (h.commands.trans hp))⟩

theorem resize_length (bytes : List UInt8) (n : ℕ) : (resize bytes n).length = n := by
  rw [resize, List.length_append, List.length_take, List.length_replicate]
  omega

theorem sign_frame (h : img.Fits) (hsign : img.args.adhocCodesign = true) {data : Data}
    (hlen : data.1.length = img.outputSize) :
    ∀ p < img.sigStart, byte (sign H img data) p = byte data p := by
  intro p hp
  rw [Image.sigStart, if_pos hsign] at hp
  refine byte_congr (write_frame ?_ (Or.inl hp))
  rw [resize_length, h.signature hsign, hlen]

theorem Image.Fits.sig_le (h : img.Fits) : img.sigStart ≤ img.outputSize := by
  rw [Image.sigStart]
  split
  · exact (Nat.le_add_right _ _).trans (h.signature ‹_›).le
  · exact le_rfl

theorem Image.Fits.symtab_le (h : img.Fits) : img.symtabStart ≤ img.sigStart :=
  (min_le_left _ _).trans ((Nat.le_add_right _ _).trans h.symtab)

end Frames

/-- The ranges a link queues tile the buffer. -/
theorem link_positions (H : Hashes) {img : Image} (h : img.Fits) :
    ((link H img).flatMap Action.positions).Perm (List.range img.outputSize) := by
  have hheader := h.header
  have hsymtab := h.symtab_le
  have hsig := h.sig_le
  have hsign : (if img.args.adhocCodesign then [.edit (sign H img)] else [] : List (Action Data)).flatMap
      Action.positions = [] := by
    split <;> rfl
  have htile {lo mid hi : ℕ} (hlo : lo ≤ mid) (hmid : mid ≤ hi) :
      List.range' lo (mid-lo) ++ List.range' mid (hi-mid) = List.range' lo (hi-lo) := by
    have h := List.range'_append_1 (s := lo) (m := mid-lo) (n := hi-mid)
    rwa [Nat.add_sub_cancel' hlo, show mid - lo + (hi-mid) = hi-lo by omega] at h
  have hall : List.range img.outputSize = List.range' 0 (img.hdrEnd-0) ++
      (List.range' img.hdrEnd (img.symtabStart-img.hdrEnd) ++
        (List.range' img.symtabStart (img.sigStart-img.symtabStart) ++
          List.range' img.sigStart (img.outputSize-img.sigStart))) := by
    rw [htile hsymtab hsig, htile hheader (hsymtab.trans hsig),
      htile (Nat.zero_le _) (hheader.trans (hsymtab.trans hsig)), List.range_eq_range']
    rfl
  rw [hall, List.perm_iff_count]
  intro p
  have h1 := (queue_positions (σ := Data) img.hdrEnd (img.symtabStart-img.hdrEnd)).count_eq p
  have h2 := (queue_positions (σ := Data) img.symtabStart
    (img.sigStart-img.symtabStart)).count_eq p
  have h3 := (queue_positions (σ := Data) 0 img.hdrEnd).count_eq p
  have h4 := (queue_positions (σ := Data) img.sigStart (img.outputSize-img.sigStart)).count_eq p
  simp only [link, List.flatMap_append, List.flatMap_cons, Action.positions, List.count_append,
    hsign, List.count_nil, h1, h2, h3, h4, Nat.sub_zero]
  omega

/-- No byte changes once its range is queued. -/
theorem link_safe (H : Hashes) {img : Image} (h : img.Fits) {buf : List UInt8}
    (hbuf : buf.length = img.outputSize) :
    Safe byte [] (buf,[]) (link H img ++ [.close]) := by
  have hheader := h.header
  have hsymtab := h.symtab_le
  have hsig := h.sig_le
  have hfirst : img.sigStart ≤ ((buf,[]) : Data).1.length := hsig.trans hbuf.ge
  obtain ⟨hcopied,hcopy⟩ := copy_symtab_frame h hfirst
  have hlen := hcopied.trans hbuf
  obtain ⟨hheaded,hhead⟩ := write_header_frame h (hsig.trans hlen.ge)
  obtain ⟨hstamped,hstamp⟩ := make_uuid_frame (H := H) h (copySymtab img (buf,[]))
  rw [link]
  simp only [List.append_assoc, List.cons_append]
  refine safe_writes (queue_writes _ _) ⟨?_,safe_writes (queue_writes _ _) ⟨?_,?_,
    safe_writes (queue_writes _ _) ?_⟩⟩
  · intro p hp
    rw [List.nil_append, mem_queue] at hp
    exact hcopy p (by omega)
  · intro p hp
    rw [List.nil_append, List.mem_append, mem_queue, mem_queue] at hp
    exact hhead p (by omega)
  · intro p hp
    rw [List.nil_append, List.mem_append, mem_queue, mem_queue] at hp
    exact hstamp p (by omega)
  · cases hsign : img.args.adhocCodesign with
    | false =>
      simp only [Bool.false_eq_true, if_false, List.nil_append]
      exact safe_writes (queue_writes _ _) trivial
    | true =>
      simp only [if_true, List.cons_append, List.nil_append]
      refine ⟨?_,safe_writes (queue_writes _ _) trivial⟩
      intro p hp
      simp only [List.mem_append, mem_queue] at hp
      exact sign_frame h hsign (hstamped.trans (hheaded.trans hlen)) p (by omega)

theorem link_sent (H : Hashes) (img : Image) :
    ∀ b ∈ (link H img).flatMap Action.sent, WholePages b := by
  intro b hb
  have hsign : (if img.args.adhocCodesign then [.edit (sign H img)] else [] : List (Action Data)).flatMap
      Action.sent = [] := by
    split <;> rfl
  simp only [link, List.flatMap_append, List.flatMap_cons, Action.sent, hsign, List.mem_append,
    List.not_mem_nil, false_or] at hb
  rcases hb with hb | hb | hb | hb <;> exact queue_whole _ _ b hb

/-- Blocks that are sent to the writers touch different pages. -/
theorem link_live (H : Hashes) {img : Image} (h : img.Fits) (data : Data) :
    let live := (start (link H img ++ [.close]) data writers : State Data UInt8).live
    live.Nodup ∧ ∀ a ∈ live, ∀ b ∈ live, a ≠ b → ∀ k, ¬(Touches a k ∧ Touches b k) := by
  have hlive : (start (link H img ++ [.close]) data writers : State Data UInt8).live =
      (link H img).flatMap Action.sent := by
    simp [start, State.live, Action.sent, Writer.block]
  have hsent := link_sent H img
  obtain ⟨hnodup,hapart⟩ := sent_apart ((link_positions H h).nodup_iff.2 List.nodup_range)
    (fun b hb => (hsent b hb).lt)
  rw [hlive]
  exact ⟨hnodup,fun a ha b hb hne k =>
    whole_pages_apart (hsent a ha) (hsent b hb) (hapart a ha b hb hne) k⟩

theorem link_opens (H : Hashes) (img : Image) : .close ∉ link H img := by
  intro hmem
  have hqueue {off len : ℕ} (hclose : .close ∈ (queue off len : List (Action Data))) : False := by
    have := queue_writes off len _ hclose
    simp [Action.isWrite] at this
  simp only [link, List.mem_append, List.mem_cons, reduceCtorEq, false_or] at hmem
  rcases hmem with hmem | hmem | hmem | hmem | hmem
  · exact hqueue hmem
  · exact hqueue hmem
  · exact hqueue hmem
  · split at hmem
    · simp at hmem
    · cases hmem
  · exact hqueue hmem

/-- Whatever the schedule of the writers: the ranges queued tile the buffer, and
no byte changes once its range is queued; two writers are never at one page; the
threads can go on until each byte is written, once, as it is in the end. -/
theorem link_written (H : Hashes) (img : Image) (h : img.Fits) (buf : List UInt8)
    (hbuf : buf.length = img.outputSize) :
    let program := link H img ++ [.close]
    (program.flatMap Action.positions).Perm (List.range img.outputSize) ∧
      Safe byte [] (buf,[]) program ∧
      ∀ s, Reaches byte (start program (buf,[]) writers) s →
        (∀ a b i j front mid back, s.writers = front ++ .busy a i::mid ++ .busy b j::back →
          ∀ k, ¬(Touches a k ∧ Touches b k)) ∧
        (s.Final ∨ ∃ t, Step byte s t) ∧ (∀ t, Step byte s t → t.weight < s.weight) ∧
        (s.Final → s.log.Perm (List.range img.outputSize) ∧
          ∀ p < img.outputSize, s.file p = some (byte (result (buf,[]) program) p)) := by
  have hpositions := link_positions H h
  have hsafe := link_safe H h hbuf
  obtain ⟨hnodup,hapart⟩ := link_live H h (buf,[])
  have hclose := link_opens H img
  refine ⟨?_,hsafe,fun s hreach => ⟨?_,?_,fun t hstep => step_weight hstep,fun hfinal => ?_⟩⟩
  · rw [List.flatMap_append]
    simpa [Action.positions] using hpositions
  · intro a b i j front mid back hw k
    obtain ⟨ha,hb,hne⟩ := busy_ne hreach hnodup hw
    exact hapart a ha b hb hne k
  · exact progress (reaches_closing (start_closing hclose _ (by decide)) hreach)
  · obtain ⟨hlog,hfile⟩ := run_written hclose (by decide) hsafe hreach hfinal
    have hall := hlog.trans hpositions
    exact ⟨hall,fun p hp => hfile p (hall.mem_iff.2 (List.mem_range.2 hp))⟩

/-- A signed image of several pages whose strings follow its symbols. -/
def signedImage : Image where
  ctx := imageAt 0x1c000
  args := uuidArgs
  hdr := arm64Header
  cmds := [uuidCommand]
  symtab := ⟨fun syms strtab => (syms,strtab),fun _ _ => rfl,fun _ _ => rfl⟩
  symoff := 0x13ff8
  symsize := 0x4000
  stroff := 0x17ff8
  strsize := 0x4008
  outputSize := 0x1c000 + (imageAt 0x1c000).codeSignature.size

theorem signed_image_fits : signedImage.Fits where
  commands := by decide
  header := by decide
  symtab := by decide
  strtab := by decide
  apart := by decide
  signature := fun _ => rfl

theorem link_written_signed :
    let program := link sumHashes signedImage ++ [.close]
    program.flatMap Action.sent = [⟨0x4000,0x10000⟩,⟨0x14000,0x1c000⟩] ∧
      ∀ s, Reaches byte (start program (zeros (imageAt 0x1c000),[]) writers) s → s.Final →
        s.log.Perm (List.range signedImage.outputSize) ∧
          ∀ p < signedImage.outputSize,
            s.file p = some (byte (result (zeros (imageAt 0x1c000),[]) program) p) := by
  intro program
  refine ⟨by decide +kernel,fun s hreach hfinal => ?_⟩
  exact ((link_written sumHashes signedImage signed_image_fits (zeros (imageAt 0x1c000))
    List.length_replicate).2.2 s hreach).2.2.2 hfinal

end MoldMacho.Driver
