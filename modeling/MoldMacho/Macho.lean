import Mathlib.Data.Nat.Notation

/-!
# Symbol table entries

An entry of an object's symbol table, less its name.
-/

set_option autoImplicit false

namespace MoldMacho.Macho

def nStab : UInt8 := 0xe0
def nPext : UInt8 := 0x10
def nType : UInt8 := 0x0e
def nExt : UInt8 := 0x01

def nUndf : UInt8 := 0x0
def nAbs : UInt8 := 0x2
def nSect : UInt8 := 0xe

def nWeakRef : UInt16 := 0x0040
def nWeakDef : UInt16 := 0x0080
def nNoDeadStrip : UInt16 := 0x0020
def nAltEntry : UInt16 := 0x0200
def referencedDynamically : UInt16 := 0x0010

structure MachSym where
  type : UInt8
  sect : UInt8 := 0
  desc : UInt16 := 0
  value : ℕ := 0
  deriving DecidableEq

namespace MachSym

def isStab (msym : MachSym) : Bool := msym.type &&& nStab != 0
def isExtern (msym : MachSym) : Bool := msym.type &&& nExt != 0
def ty (msym : MachSym) : UInt8 := msym.type &&& nType
def has (msym : MachSym) (flags : UInt16) : Bool := msym.desc &&& flags != 0

def isCommon (msym : MachSym) : Bool :=
  !msym.isStab && msym.ty == nUndf && msym.isExtern && msym.value != 0

def isUndef (msym : MachSym) : Bool := !msym.isStab && msym.isExtern && msym.ty == nUndf

def commonP2align (msym : MachSym) : ℕ := ((msym.desc >>> 8) &&& 0xf).toNat

end MachSym

end MoldMacho.Macho
