import MoldMacho.Chunks.CodeSignature
import MoldMacho.Chunks.LoadCommands

/-!
# The UUID and the signature

The UUID is made from the page hashes and then written into the header, whose
pages are hashed again. The signature is made of the hashes after that.
-/

set_option autoImplicit false

namespace MoldMacho.ComputeUuid
open MoldMacho.Align MoldMacho.Bytes MoldMacho.Chunks MoldMacho.LoadCommands
open MoldMacho.CodeSignature

/-- What `compute_uuid` reads of the command line, and the bytes
`random_bytes` returns. -/
structure Args where
  uuid : Bool
  randomUuid : Bool := false
  adhocCodesign : Bool := true
  uuidSalt : List UInt8 := []
  randomBytes : List UInt8
  random_length : randomBytes.length = 16

/-- The UUID of version 4 made of the first 16 bytes. -/
def stampUuid (hash : List UInt8) : List UInt8 :=
  ((hash.take 16).modify 6 fun b => (b &&& 0x0f) ||| 0x40).modify 8 fun b => (b &&& 0x3f) ||| 0x80

/-- `compute_uuid`: the hashes and the buffer. -/
def computeUuid (H : Hashes) (args : Args) (headerSize sigStart : ℕ) (buf : List UInt8) :
    Option (List (List UInt8) × List UInt8) :=
  let contentUuid := args.uuid && !args.randomUuid
  let buf :=
    if args.uuid && args.randomUuid then writeUuid (stampUuid args.randomBytes) buf else some buf
  buf.bind fun buf =>
    let hashes := if contentUuid || args.adhocCodesign then pageHashes H (buf.take sigStart) else []
    if contentUuid then
      (writeUuid (stampUuid (H.sha256 (args.uuidSalt ++ hashes.flatten))) buf).map fun buf =>
        (rehashPages H (buf.take sigStart) hashes 0 headerSize,buf)
    else some (hashes,buf)

theorem stamp_length {hash : List UInt8} (h : 16 ≤ hash.length) : (stampUuid hash).length = 16 := by
  rw [stampUuid, List.length_modify, List.length_modify, List.length_take, Nat.min_eq_left h]

/-- The header's commands lie in its chunk, and the chunk before the
signature. -/
structure HeaderFits (cmds : List LoadCommand) (headerSize sigStart : ℕ) : Prop where
  commands : commandsEnd cmds ≤ headerSize
  before : headerSize ≤ sigStart

/-- The hashes returned are those of the pages as they are left. -/
theorem compute_uuid {H : Hashes} {args : Args} {hdr : MachHeader} {cmds : List LoadCommand}
    {headerSize sigStart : ℕ} {buf : List UInt8} (h : HasHeader hdr cmds buf)
    (hfits : HeaderFits cmds headerSize sigStart) (hsign : args.adhocCodesign = true) :
    ∃ out, computeUuid H args headerSize sigStart buf = some (pageHashes H (out.take sigStart),out) ∧
      out.length = buf.length := by
  have htake : ∀ {a b : List UInt8}, Stamped a b (commandsEnd cmds) → ∀ off n, headerSize ≤ off →
      bytesAt (b.take sigStart) off n = bytesAt (a.take sigStart) off n := by
    intro a b hst off n hoff
    have hframe := hst.frame off n (hfits.commands.trans hoff)
    have hcut : ∀ d : List UInt8, bytesAt (d.take sigStart) off n =
        if off+n ≤ sigStart then bytesAt d off n else none := by
      intro d
      unfold bytesAt
      rw [List.length_take, List.drop_take, List.take_take]
      by_cases hin : off+n ≤ sigStart
      · rw [if_pos hin, Nat.min_eq_left (by omega : n ≤ sigStart-off)]
        congr 1
        exact propext (by omega)
      · rw [if_neg hin, if_neg (by omega)]
    rw [hcut, hcut, hframe]
  unfold computeUuid
  cases hu : args.uuid with
  | false =>
    refine ⟨buf,?_,rfl⟩
    simp [hsign]
  | true =>
    cases hr : args.randomUuid with
    | true =>
      obtain ⟨out,hout,hst⟩ := write_uuid_header h
        (stamp_length (by rw [args.random_length] : 16 ≤ args.randomBytes.length))
      refine ⟨out,?_,hst.length⟩
      simp [hsign, hout]
    | false =>
      obtain ⟨out,hout,hst⟩ := write_uuid_header h (stamp_length (by rw [H.sha256_length]; omega :
        16 ≤ (H.sha256 (args.uuidSalt ++ (pageHashes H (buf.take sigStart)).flatten)).length))
      have hlen : (out.take sigStart).length = (buf.take sigStart).length := by
        rw [List.length_take, List.length_take, hst.length]
      refine ⟨out,?_,hst.length⟩
      rw [← rehash_pages H hlen (htake hst)]
      simp [hout]

/-- Only the header's commands change, whichever UUID there is. -/
theorem compute_uuid_frame (H : Hashes) (args : Args) {hdr : MachHeader} {cmds : List LoadCommand}
    (headerSize sigStart : ℕ) {buf : List UInt8} (h : HasHeader hdr cmds buf) :
    ∃ hashes out, computeUuid H args headerSize sigStart buf = some (hashes,out) ∧
      Stamped buf out (commandsEnd cmds) := by
  rw [computeUuid]
  cases hu : args.uuid with
  | false => exact ⟨_,buf,rfl,rfl,fun _ _ _ => rfl⟩
  | true =>
    cases hr : args.randomUuid with
    | true =>
      obtain ⟨out,hout,hst⟩ := write_uuid_header h
        (stamp_length (by rw [args.random_length] : 16 ≤ args.randomBytes.length))
      exact ⟨if args.adhocCodesign then pageHashes H (out.take sigStart) else [],out,by simp [hout],hst⟩
    | false =>
      obtain ⟨out,hout,hst⟩ := write_uuid_header h (stamp_length (by rw [H.sha256_length]; omega :
        16 ≤ (H.sha256 (args.uuidSalt ++ (pageHashes H (buf.take sigStart)).flatten)).length))
      exact ⟨rehashPages H (out.take sigStart) (pageHashes H (buf.take sigStart)) 0 headerSize,out,
        by simp [hout],hst⟩

/-- The layout the signature is written in: the header before it and the size
it reserves in the buffer. -/
structure Placed (ctx : Context) (cmds : List LoadCommand) (buf : List UInt8) : Prop where
  header : HeaderFits cmds ctx.machHeader.size ctx.codeSignature.fileoff
  size : ctx.codeSignature.size = CodeSignature.size ctx ctx.codeSignature.fileoff
  inside : ctx.codeSignature.fileoff+ctx.codeSignature.size ≤ buf.length

theorem write_mach_header_length {hdr : MachHeader} {cmds : List LoadCommand} {buf : List UInt8}
    (h : commandsEnd cmds ≤ buf.length) : (writeMachHeader hdr cmds buf).length = buf.length := by
  apply write_at_length
  rw [List.length_append, mach_header_length, commands_length, Nat.zero_add]
  exact h

theorem signed_buffer (H : Hashes) {ctx : Context} {args : Args} (hdr : MachHeader)
    {cmds : List LoadCommand} {buf : List UInt8} (h : Placed ctx cmds buf)
    (hsign : args.adhocCodesign = true) :
    ∃ out, computeUuid H args ctx.machHeader.size ctx.codeSignature.fileoff
        (writeMachHeader hdr cmds buf) =
          some (pageHashes H (out.take ctx.codeSignature.fileoff),out) ∧
      ctx.codeSignature.fileoff+ctx.codeSignature.size ≤ out.length := by
  have hinside := h.inside
  have hheader := h.header.commands.trans h.header.before
  have hlen : (writeMachHeader hdr cmds buf).length = buf.length :=
    write_mach_header_length (by omega)
  obtain ⟨out,hout,houtlen⟩ :=
    compute_uuid (H := H) (write_mach_header hdr cmds buf) h.header hsign
  exact ⟨out,hout,by omega⟩

/-- After the header, the UUID and the signature are written, the file
verifies exactly if the signature's offset and length are 32-bit numbers. -/
theorem signature_verifies_iff (H : Hashes) (ctx : Context) (args : Args) (hdr : MachHeader)
    (cmds : List LoadCommand) (buf : List UInt8) (h : Placed ctx cmds buf)
    (hsign : args.adhocCodesign = true) :
    ∃ hashes out, computeUuid H args ctx.machHeader.size ctx.codeSignature.fileoff
        (writeMachHeader hdr cmds buf) = some (hashes,out) ∧
      (Verifies (write H ctx out hashes) ctx.codeSignature.fileoff ctx.codeSignature.size
          (identifier ctx) (kinds H ctx) ↔
        ctx.codeSignature.fileoff < 2^32 ∧ superblobSize ctx ctx.codeSignature.fileoff < 2^32) := by
  obtain ⟨out,hout,hle⟩ := signed_buffer H hdr h hsign
  exact ⟨_,out,hout,write_verifies_iff h.size hle⟩

/-! Two images. -/

/-- The bytes as the digits of a number. -/
def checksum (data : List UInt8) : ℕ := data.foldl (fun sum b => sum*257+b.toNat+1) 0

def sumHashes : Hashes where
  sha256 data := toLe 32 (checksum data)
  sha1 data := toLe 20 (checksum data)
  sha256_length _ := to_le_length _ _
  sha1_length _ := to_le_length _ _

example : sumHashes.sha256 (List.replicate 8 0) ≠ sumHashes.sha256 (List.replicate 7 0 ++ [1]) := by
  decide

def uuidCommand : LoadCommand where
  cmd := lcUuid
  body := List.replicate 16 0
  cmd_lt := by decide
  size_lt := by decide
  uuid_body := by decide

def uuidArgs : Args where
  uuid := true
  randomBytes := List.replicate 16 0
  random_length := by decide

/-- A macOS executable whose signature stands at an offset. -/
def imageAt (fileoff : ℕ) : Context where
  platform := 1
  platformMinos := encodeVersion 13 0 0
  outputType := mhExecute
  output := bytes "a.out"
  segments := [Segment.new (bytes "__TEXT")]
  chunks := []
  machHeader := { segname := bytes "__TEXT", sectname := [], size := 56 }
  codeSignature :=
    { segname := bytes "__LINKEDIT", sectname := [], fileoff := fileoff
      size := alignTo (12+8+directorySize (bytes "a.out") (numPages fileoff) 32) 8 }

def zeros (ctx : Context) : List UInt8 :=
  List.replicate (ctx.codeSignature.fileoff+ctx.codeSignature.size) 0

def arm64Header : MachHeader where
  cputype := 0x0100000c
  cpusubtype := 0
  filetype := 2
  flags := 0x200085

theorem image_placed (fileoff : ℕ) (h : 56 ≤ fileoff) :
    Placed (imageAt fileoff) [uuidCommand] (zeros (imageAt fileoff)) where
  header := ⟨(by decide : commandsEnd [uuidCommand] ≤ 56),h⟩
  size := rfl
  inside := by rw [zeros, List.length_replicate]

theorem signature_verifies_page :
    ∃ hashes out, computeUuid sumHashes uuidArgs 56 0x3000
        (writeMachHeader arm64Header [uuidCommand] (zeros (imageAt 0x3000))) = some (hashes,out) ∧
      Verifies (write sumHashes (imageAt 0x3000) out hashes) 0x3000 (imageAt 0x3000).codeSignature.size
        (identifier (imageAt 0x3000)) (kinds sumHashes (imageAt 0x3000)) := by
  obtain ⟨hashes,out,hout,hiff⟩ := signature_verifies_iff sumHashes (imageAt 0x3000) uuidArgs
    arm64Header [uuidCommand] _ (image_placed 0x3000 (by decide)) rfl
  exact ⟨hashes,out,hout,hiff.2 ⟨by decide,by decide⟩⟩

/-- A file of 4 GiB before its signature has a code limit of zero. -/
theorem signature_past_32_bits :
    ∃ hashes out, computeUuid sumHashes uuidArgs 56 (2^32)
        (writeMachHeader arm64Header [uuidCommand] (zeros (imageAt (2^32)))) = some (hashes,out) ∧
      ¬ Verifies (write sumHashes (imageAt (2^32)) out hashes) (2^32)
        (imageAt (2^32)).codeSignature.size (identifier (imageAt (2^32)))
        (kinds sumHashes (imageAt (2^32))) := by
  have hplaced := image_placed (2^32) (by decide)
  have hsign : uuidArgs.adhocCodesign = true := rfl
  obtain ⟨out,hout,hle⟩ := signed_buffer sumHashes arm64Header hplaced hsign
  refine ⟨_,out,hout,fun h => ?_⟩
  exact absurd ((write_verifies_iff hplaced.size hle).1 h).1 (Nat.lt_irrefl (2^32))

end MoldMacho.ComputeUuid
