import MoldMacho.Lib.Bytes

/-!
# The mach header and its load commands

The commands follow the header one after another, each with its size in it.
The UUID is written into its command after the others are in place.
-/

set_option autoImplicit false

namespace MoldMacho.LoadCommands
open MoldMacho.Bytes

def lcUuid : ℕ := 0x1b

/-- A load command less its number and size. -/
structure LoadCommand where
  cmd : ℕ
  body : List UInt8
  cmd_lt : cmd < 2^32
  size_lt : 8+body.length < 2^32
  uuid_body : cmd = lcUuid → body.length = 16

def LoadCommand.size (c : LoadCommand) : ℕ := 8+c.body.length

def LoadCommand.bytes (c : LoadCommand) : List UInt8 := toLe 4 c.cmd ++ toLe 4 c.size ++ c.body

structure MachHeader where
  magic : ℕ := 0xfeedfacf
  cputype : ℕ
  cpusubtype : ℕ
  filetype : ℕ
  flags : ℕ

def machHeaderBytes (hdr : MachHeader) (cmds : List LoadCommand) : List UInt8 :=
  toLe 4 hdr.magic ++ toLe 4 hdr.cputype ++ toLe 4 hdr.cpusubtype ++ toLe 4 hdr.filetype ++
    toLe 4 cmds.length ++ toLe 4 (cmds.map LoadCommand.size).sum ++ toLe 4 hdr.flags ++ toLe 4 0

def writeMachHeader (hdr : MachHeader) (cmds : List LoadCommand) (buf : List UInt8) : List UInt8 :=
  writeAt buf 0 (machHeaderBytes hdr cmds ++ cmds.flatMap LoadCommand.bytes)

/-- The end of the load commands. -/
def commandsEnd (cmds : List LoadCommand) : ℕ := 32+(cmds.map LoadCommand.size).sum

/-- The loop of `write_uuid` over `n` commands from `off`; `none` is a read
past the end of the buffer. -/
def writeUuidFrom (uuid : List UInt8) : ℕ → ℕ → List UInt8 → Option (List UInt8)
  | 0, _, buf => some buf
  | n+1, off, buf => do
    let cmd ← readLe 4 buf off
    let cmdsize ← readLe 4 buf (off+4)
    if cmd = lcUuid then
      if off+24 ≤ buf.length then some (writeAt buf (off+8) uuid) else none
    else writeUuidFrom uuid n (off+cmdsize) buf

def writeUuid (uuid buf : List UInt8) : Option (List UInt8) := do
  writeUuidFrom uuid (← readLe 4 buf 16) 32 buf

theorem command_bytes_length (c : LoadCommand) : c.bytes.length = c.size := by
  simp [LoadCommand.bytes, LoadCommand.size]
  omega

theorem commands_length (cmds : List LoadCommand) :
    (cmds.flatMap LoadCommand.bytes).length = (cmds.map LoadCommand.size).sum := by
  rw [List.length_flatMap]
  congr 1
  exact List.map_congr_left fun c _ => command_bytes_length c

/-- What a write of the UUID among the commands leaves. -/
structure Stamped (buf out : List UInt8) (limit : ℕ) : Prop where
  length : out.length = buf.length
  frame : ∀ off n, limit ≤ off → bytesAt out off n = bytesAt buf off n

/-- Whichever of the commands it is written into, what follows them stays. -/
theorem write_uuid_from {uuid : List UInt8} (huuid : uuid.length = 16) {buf rest : List UInt8}
    (cmds : List LoadCommand) {n off : ℕ} (hn : n ≤ cmds.length) (hoff : off ≤ buf.length)
    (h : buf.drop off = cmds.flatMap LoadCommand.bytes ++ rest) :
    ∃ out, writeUuidFrom uuid n off buf = some out ∧
      Stamped buf out (off+(cmds.map LoadCommand.size).sum) := by
  induction n generalizing cmds off with
  | zero => exact ⟨buf,rfl,rfl,fun _ _ _ => rfl⟩
  | succ n ih =>
    cases cmds with
    | nil => simp at hn
    | cons c cmds =>
      rw [List.flatMap_cons, List.append_assoc] at h
      obtain ⟨hle,hnext⟩ := drop_next hoff h
      rw [command_bytes_length] at hle hnext
      rw [LoadCommand.bytes, List.append_assoc, List.append_assoc] at h
      obtain ⟨hcmd,hoff',h'⟩ := read_field hoff h
      obtain ⟨hsize,-,-⟩ := read_field hoff' h'
      rw [show c.cmd % 256^4 = c.cmd from Nat.mod_eq_of_lt c.cmd_lt] at hcmd
      rw [show c.size % 256^4 = c.size from Nat.mod_eq_of_lt c.size_lt] at hsize
      rw [writeUuidFrom, hcmd, Option.bind_eq_bind, Option.bind_some, hsize, Option.bind_some,
        List.map_cons, List.sum_cons]
      by_cases hu : c.cmd = lcUuid
      · have hc : c.size = 24 := by rw [LoadCommand.size, c.uuid_body hu]
        rw [if_pos hu, if_pos (by omega)]
        have hin : off+8+uuid.length ≤ buf.length := by omega
        refine ⟨_,rfl,write_at_length hin,fun off' n' hle' => ?_⟩
        exact bytes_at_write_apart hin (Or.inr (by omega))
      · rw [if_neg hu]
        obtain ⟨out,hout,hst⟩ := ih cmds (by simpa using hn) hle hnext
        exact ⟨out,hout,hst.length,fun off' n' hle' => hst.frame off' n' (by omega)⟩

theorem mach_header_length (hdr : MachHeader) (cmds : List LoadCommand) :
    (machHeaderBytes hdr cmds).length = 32 := by
  simp [machHeaderBytes]

/-- The header is in place at the front of the buffer. -/
def HasHeader (hdr : MachHeader) (cmds : List LoadCommand) (buf : List UInt8) : Prop :=
  ∃ rest, buf = machHeaderBytes hdr cmds ++ cmds.flatMap LoadCommand.bytes ++ rest

theorem write_mach_header (hdr : MachHeader) (cmds : List LoadCommand) (buf : List UInt8) :
    HasHeader hdr cmds (writeMachHeader hdr cmds buf) :=
  ⟨_,rfl⟩

/-- Only the bytes of the commands change. -/
theorem write_uuid_header {hdr : MachHeader} {cmds : List LoadCommand} {buf uuid : List UInt8}
    (h : HasHeader hdr cmds buf) (huuid : uuid.length = 16) :
    ∃ out, writeUuid uuid buf = some out ∧ Stamped buf out (commandsEnd cmds) := by
  obtain ⟨rest,hbuf⟩ := h
  have hcount : readLe 4 buf 16 = some (cmds.length % 256^4) := by
    have h0 : buf.drop 0 = machHeaderBytes hdr cmds ++ (cmds.flatMap LoadCommand.bytes ++ rest) := by
      rw [List.drop_zero, hbuf, List.append_assoc]
    simp only [machHeaderBytes, List.append_assoc] at h0
    obtain ⟨-,h4,d4⟩ := read_field (Nat.zero_le _) h0
    obtain ⟨-,h8,d8⟩ := read_field h4 d4
    obtain ⟨-,h12,d12⟩ := read_field h8 d8
    obtain ⟨-,h16,d16⟩ := read_field h12 d12
    exact (read_field h16 d16).1
  have hle : 32 ≤ buf.length := by
    rw [hbuf, List.length_append, List.length_append, mach_header_length]
    omega
  have hcmds : buf.drop 32 = cmds.flatMap LoadCommand.bytes ++ rest := by
    rw [hbuf, List.append_assoc, List.drop_left' (mach_header_length hdr cmds)]
  rw [writeUuid, hcount, Option.bind_eq_bind, Option.bind_some]
  exact write_uuid_from huuid cmds (Nat.mod_le _ _) hle hcmds

end MoldMacho.LoadCommands
