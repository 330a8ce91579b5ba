import Mathlib.Algebra.GroupWithZero.Nat
import Mathlib.Data.List.Basic
import Mathlib.Data.Nat.Notation

/-!
# Opcode streams

A stream machine fetches one instruction at a time from the front of its
bytes and executes it, until a stop opcode or the end of the bytes. What
it does on an encoded program is what the program does instruction by
instruction; the bytes after the stop opcode are never read.
-/

set_option autoImplicit false

namespace MoldMacho.OpStream

variable {Op S : Type*}

inductive Fetched (Op : Type*) where
  | stop
  | op (o : Op)

/-- An instruction encoding with its decoder. An encoded instruction is
fetched back whatever follows it. -/
structure Codec (Op : Type*) where
  encode : Op → List UInt8
  fetch : List UInt8 → Option (Fetched Op × List UInt8)
  stop : UInt8
  Valid : Op → Prop
  encode_ne_nil : ∀ o, encode o ≠ []
  fetch_encode : ∀ o, Valid o → ∀ rest, fetch (encode o ++ rest) = some (.op o, rest)
  fetch_stop : ∀ rest, fetch (stop :: rest) = some (.stop, rest)

/-- Runs the machine for at most `fuel` instructions. The result is the
final state and the bytes after the stop opcode, if it was one that ended
the run; `none` is an instruction that is malformed or refused. -/
def runStream (c : Codec Op) (exec : Op → S → Option S) :
    ℕ → List UInt8 → S → Option (S × Option (List UInt8))
  | 0, _, _ => none
  | _+1, [], s => some (s, none)
  | fuel+1, b::bs, s =>
    match c.fetch (b::bs) with
    | none => none
    | some (.stop, rest) => some (s, some rest)
    | some (.op o, rest) => (exec o s).bind (runStream c exec fuel rest)

/-- Every instruction takes a byte at least, so the stream's length
bounds the instructions run. -/
def execute (c : Codec Op) (exec : Op → S → Option S) (bytes : List UInt8) (s : S) :
    Option (S × Option (List UInt8)) :=
  runStream c exec (bytes.length+1) bytes s

def execOps (exec : Op → S → Option S) : List Op → S → Option S
  | [], s => some s
  | o::os, s => (exec o s).bind (execOps exec os)

theorem execOps_append (exec : Op → S → Option S) (os rest : List Op) (s : S) :
    execOps exec (os++rest) s = (execOps exec os s).bind (execOps exec rest) := by
  induction os generalizing s with
  | nil => rfl
  | cons o os ih =>
    simp only [List.cons_append, execOps, Option.bind_assoc]
    congr 1
    funext t
    exact ih t

theorem program_length_le (c : Codec Op) (os : List Op) :
    os.length ≤ (os.flatMap c.encode).length := by
  induction os with
  | nil => simp
  | cons o os ih =>
    have ho : 0 < (c.encode o).length := List.length_pos_iff.mpr (c.encode_ne_nil o)
    simp only [List.flatMap_cons, List.length_append, List.length_cons]
    omega

theorem run_program (c : Codec Op) (exec : Op → S → Option S) (os : List Op)
    (hv : ∀ o ∈ os, c.Valid o) (pad : List UInt8) (fuel : ℕ) (hf : os.length < fuel) (s : S) :
    runStream c exec fuel (os.flatMap c.encode ++ c.stop::pad) s =
      (execOps exec os s).map (·, some pad) := by
  induction os generalizing fuel s with
  | nil =>
    obtain ⟨fuel, rfl⟩ : ∃ k, fuel = k+1 := ⟨fuel-1, by simp at hf; omega⟩
    simp [runStream, execOps, c.fetch_stop]
  | cons o os ih =>
    obtain ⟨fuel, rfl⟩ : ∃ k, fuel = k+1 := ⟨fuel-1, by simp at hf; omega⟩
    obtain ⟨b, bs, hb⟩ := List.exists_cons_of_ne_nil (c.encode_ne_nil o)
    have hfetch := c.fetch_encode o (hv o (by simp)) (os.flatMap c.encode ++ c.stop::pad)
    rw [hb, List.cons_append] at hfetch
    rw [List.flatMap_cons, List.append_assoc, hb, List.cons_append, runStream, hfetch]
    dsimp only
    rw [execOps]
    cases exec o s with
    | none => rfl
    | some t => exact ih (fun p hp => hv p (by simp [hp])) fuel (by simp at hf; omega) t

/-- A stream machine on an encoded program does what the program does. -/
theorem execute_program (c : Codec Op) (exec : Op → S → Option S) (os : List Op)
    (hv : ∀ o ∈ os, c.Valid o) (pad : List UInt8) (s : S) :
    execute c exec (os.flatMap c.encode ++ c.stop::pad) s =
      (execOps exec os s).map (·, some pad) := by
  apply run_program c exec os hv pad
  have := program_length_le c os
  simp only [List.length_append, List.length_cons]
  omega

/-- An opcode byte holds the opcode in its high four bits and a small
operand in its low four. -/
theorem immediate_toNat (op imm : ℕ) (ho : op < 16) (hi : imm < 16) :
    ((16*op).toUInt8 ||| imm.toUInt8).toNat = 16*op+imm := by
  have hop : (16*op).toUInt8.toNat = 2^4*op := by
    simp [Nat.mod_eq_of_lt (show 16*op < 256 by omega)]
  have himm : imm.toUInt8.toNat = imm := by
    simp [Nat.mod_eq_of_lt (show imm < 256 by omega)]
  rw [UInt8.toNat_or, hop, himm, ← Nat.two_pow_add_eq_or_of_lt (show imm < 2^4 by omega)]

theorem immediate_split (op imm : ℕ) (ho : op < 16) (hi : imm < 16) :
    ((16*op).toUInt8 ||| imm.toUInt8).toNat / 16 = op ∧
      ((16*op).toUInt8 ||| imm.toUInt8).toNat % 16 = imm := by
  rw [immediate_toNat op imm ho hi]
  omega

end MoldMacho.OpStream
