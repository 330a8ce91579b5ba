import MoldMacho.Lib.OpStream
import MoldMacho.Util.Leb128

/-!
# Operands of dyld's opcode streams

The rebase and the bind stream move their place by ULEB128 operands,
backwards too: addresses and offsets are 64-bit words and wrap.
-/

set_option autoImplicit false

namespace MoldMacho.Opcodes
open MoldMacho.Leb128

/-- `u64::wrapping_sub`. -/
def wrappingSub (a b : ℕ) : ℕ := (a+2^64-b) % 2^64

theorem wrapping_sub_lt (a b : ℕ) : wrappingSub a b < 2^64 := Nat.mod_lt _ (by decide)

/-- Moving an offset by the difference of two addresses of the segment at
`base` moves it from one to the other. -/
theorem wrapping_move (base cur addr : ℕ) (hc : base ≤ cur) (ha : base ≤ addr)
    (hcur : cur < 2^64) (haddr : addr < 2^64) :
    (cur-base+wrappingSub addr cur) % 2^64 = addr-base := by
  unfold wrappingSub
  omega

/-- Zeros up to a multiple of eight bytes. -/
def padding (len : ℕ) : List UInt8 := List.replicate ((8-len%8)%8) 0

/-- A ULEB128 operand: dyld refuses one over 64 bits. -/
def fetchUleb (bytes : List UInt8) : Option (ℕ × List UInt8) :=
  (decodeUleb bytes).filter fun p => p.1 < 2^64

theorem fetch_uleb (n : ℕ) (h : n < 2^64) (rest : List UInt8) :
    fetchUleb (encodeUleb n ++ rest) = some (n, rest) := by
  rw [fetchUleb, decode_encode_uleb]
  exact Option.filter_some_pos (by simpa using h)

end MoldMacho.Opcodes
