import Mathlib.Data.Nat.Notation

/-!
# Symbols

What resolution records of a symbol, and the table of the symbols' names.
-/

set_option autoImplicit false

namespace MoldMacho.Symbols

abbrev Name := List UInt8
abbrev SymbolId := ℕ

inductive FileId where
  | obj (i : ℕ)
  | dylib (i : ℕ)
  deriving DecidableEq

structure Symbol where
  file : Option FileId := none
  inputSection : Option ℕ := none
  /-- The offset in the input section, the absolute value, or the size of a
  common symbol. -/
  value : ℕ := 0
  commonP2align : ℕ := 0
  isExtern : Bool := false
  isWeakDef : Bool := false
  isImported : Bool := false
  isUsed : Bool := false
  isPrivateExtern : Bool := false
  isWeakRef : Bool := false
  isStrongRef : Bool := false
  noDeadStrip : Bool := false
  isCommon : Bool := false
  isReferencedDynamically : Bool := false
  isAltEntry : Bool := false
  deriving DecidableEq

def Symbol.isDefined (sym : Symbol) : Bool := sym.file.isSome

/-- The symbols' names, and the global symbol of a name. -/
structure SymbolTable where
  names : List Name
  lookup : Name → Option SymbolId
  lookup_name : ∀ {name id}, lookup name = some id → names[id]? = some name

namespace SymbolTable

def name (symbols : SymbolTable) (id : SymbolId) : Name := symbols.names.getD id []

/-- Whether a symbol is its name's global symbol. -/
def isGlobal (symbols : SymbolTable) (id : SymbolId) : Bool :=
  symbols.lookup (symbols.name id) == some id

def empty : SymbolTable where
  names := []
  lookup := fun _ => none
  lookup_name := by simp

/-- The table with a global name's symbol, created if needed. -/
def intern (symbols : SymbolTable) (name : Name) : SymbolTable :=
  if (symbols.lookup name).isSome then symbols
  else
    { names := symbols.names ++ [name]
      lookup := fun n => if n = name then some symbols.names.length else symbols.lookup n
      lookup_name := by
        intro n id h
        split at h
        case isTrue hn =>
          obtain rfl := Option.some.inj h
          rw [List.getElem?_concat_length, hn]
        case isFalse =>
          have hid := symbols.lookup_name h
          rw [List.getElem?_append_left (List.getElem?_eq_some_iff.1 hid).1, hid] }

/-- The table with a slot for a file-local symbol. -/
def addLocal (symbols : SymbolTable) (name : Name) : SymbolTable where
  names := symbols.names ++ [name]
  lookup := symbols.lookup
  lookup_name := by
    intro n id h
    have hid := symbols.lookup_name h
    rw [List.getElem?_append_left (List.getElem?_eq_some_iff.1 hid).1, hid]

end SymbolTable

end MoldMacho.Symbols
