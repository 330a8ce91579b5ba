import MoldMacho.InputSections
import MoldMacho.Macho
import MoldMacho.Symbol

/-!
# The definitions of an object

The rank with which an object's definition competes for its symbol, and what
the symbol becomes when the definition wins it.
-/

set_option autoImplicit false

namespace MoldMacho.Definitions
open MoldMacho.InputSections (InputSection)
open MoldMacho.Macho MoldMacho.Symbols

/-- An entry of an object's symbol table, with its symbol and the subsection
it is defined in: the object's three vectors as one. -/
structure Entry where
  msym : MachSym
  id : SymbolId
  subsec : Option ℕ := none
  deriving DecidableEq

structure ObjectFile where
  priority : UInt32
  isReachable : Bool
  hidden : Bool := false
  syms : List Entry
  firstGlobal : Option ℕ := none

/-- The entries of the global range. -/
def ObjectFile.globals (obj : ObjectFile) : List Entry := obj.syms.drop (obj.firstGlobal.getD 0)

def rankMax : ℕ := 2^64 - 1

/-- The difference as the machine computes it. -/
def sub64 (a b : ℕ) : ℕ := (a + 2^64 - b % 2^64) % 2^64

section Rank
variable (isecs : List InputSection) (obj : ObjectFile) (entry : Entry)

/-- The subsection an entry is defined in, and the offset there. -/
def symbolSubsec : Option (ℕ × ℕ) :=
  entry.subsec.map fun id =>
    (id,sub64 entry.msym.value ((isecs[id]?.map InputSection.inputAddr).getD 0))

def weakDefinitionRank (isec : InputSection) : ℕ :=
  let isPrivate := entry.msym.type &&& nPext != 0 || obj.hidden
  let autoHide := !isPrivate && entry.msym.has nWeakRef
  autoHide.toNat <<< 7 ||| isPrivate.toNat <<< 6 ||| sub64 63 (isec.p2alignAt entry.msym.value)

def definitionClass : Option ℕ :=
  let isWeak := entry.msym.has nWeakDef
  if entry.msym.ty = nSect ∨ entry.msym.ty = nAbs then
    match obj.isReachable, isWeak with
    | true, false => some 0
    | true, true => some 1
    | false, false => some 2
    | false, true => some 3
  else if entry.msym.ty = nUndf ∧ entry.msym.isCommon then
    match obj.isReachable with
    | true => some 4
    | false => some 5
  else none

def weakTerm (cls : ℕ) : ℕ :=
  if cls = 1 ∧ entry.msym.ty = nSect then
    match (symbolSubsec isecs entry).bind fun isec => isecs[isec.1]? with
    | some isec => weakDefinitionRank obj entry isec
    | none => 0
  else 0

def phase (autolinkPriority cls : ℕ) : ℕ :=
  if (cls = 2 ∨ cls = 3) ∧ autolinkPriority ≤ obj.priority.toNat then 2 else 0

/-- The rank of a definition: its class, the order among weak ones or of an
auto-linked archive, and the object's priority; lower is better. -/
def definitionRank (autolinkPriority : ℕ) : Option ℕ :=
  if entry.msym.isStab || !entry.msym.isExtern then none
  else
    (definitionClass obj entry).map fun cls =>
      cls <<< 40 |||
        ((weakTerm isecs obj entry cls ||| phase obj autolinkPriority cls) <<< 32) % 2^64 |||
        obj.priority.toNat

/-- The symbol a winning definition makes; and false if its section was
discarded. -/
def claimDefinition (objIdx : ℕ) (sym : Symbol) : Symbol × Bool :=
  let msym := entry.msym
  let sym := { sym with
    isExtern := true, isImported := false, isCommon := false
    isWeakDef := msym.has nWeakDef
    isPrivateExtern := msym.type &&& nPext != 0 || obj.hidden
    noDeadStrip := msym.has (nNoDeadStrip ||| referencedDynamically)
    isReferencedDynamically := msym.ty == nSect &&
      msym.desc &&& (referencedDynamically ||| nWeakDef) == referencedDynamically
    isAltEntry := msym.has nAltEntry }
  let file := some (FileId.obj objIdx)
  if msym.ty = nAbs then ({ sym with file, inputSection := none, value := msym.value },true)
  else if msym.ty = nSect then
    match symbolSubsec isecs entry with
    | none => ({ sym with file := none },false)
    | some (isec,off) => ({ sym with file, inputSection := some isec, value := off },true)
  else if !obj.isReachable then
    ({ sym with file, inputSection := none, isCommon := true, value := 0 },true)
  else
    ({ sym with
      file := none, isCommon := true, value := msym.value, commonP2align := msym.commonP2align },
     true)

end Rank

/-! ## What a rank tells -/

theorem definition_rank_some {isecs : List InputSection} {obj : ObjectFile} {entry : Entry}
    {autolinkPriority rank : ℕ}
    (h : definitionRank isecs obj entry autolinkPriority = some rank) :
    entry.msym.isStab = false ∧ entry.msym.isExtern = true ∧
    ∃ cls, definitionClass obj entry = some cls ∧
      rank = cls <<< 40 |||
        ((weakTerm isecs obj entry cls ||| phase obj autolinkPriority cls) <<< 32) % 2^64 |||
        obj.priority.toNat := by
  unfold definitionRank at h
  split at h
  case isTrue => cases h
  case isFalse hkind =>
    obtain ⟨cls,hcls,rfl⟩ := Option.map_eq_some_iff.1 h
    have hkind' : entry.msym.isStab = false ∧ entry.msym.isExtern = true := by simpa using hkind
    exact ⟨hkind'.1,hkind'.2,cls,hcls,rfl⟩

theorem class_le {obj : ObjectFile} {entry : Entry} {cls : ℕ}
    (h : definitionClass obj entry = some cls) : cls ≤ 5 := by
  simp only [definitionClass] at h
  split at h
  · split at h <;> cases h <;> decide
  · split at h
    · split at h <;> cases h <;> decide
    · cases h

theorem shift_low {n k : ℕ} (h : k ≤ n) (a : ℕ) : (a <<< n) % 2^k = 0 := by
  rw [Nat.shiftLeft_eq, ← Nat.add_sub_cancel' h, Nat.pow_add, Nat.mul_left_comm, Nat.mul_mod_right]

section Rank
variable {isecs : List InputSection} {obj : ObjectFile} {entry : Entry} {autolinkPriority rank : ℕ}

/-- The low half of a rank is the object's priority. -/
theorem rank_priority (h : definitionRank isecs obj entry autolinkPriority = some rank) :
    rank % 2^32 = obj.priority.toNat := by
  obtain ⟨-,-,cls,-,rfl⟩ := definition_rank_some h
  have hlow : obj.priority.toNat < 2^32 := obj.priority.toNat_lt
  have hmid (a : ℕ) : (a <<< 32) % 2^64 % 2^32 = 0 := by
    rw [Nat.mod_mod_of_dvd _ (Nat.pow_dvd_pow 2 (by decide))]
    exact shift_low (Nat.le_refl _) a
  rw [Nat.or_mod_two_pow, Nat.or_mod_two_pow, shift_low (by decide), hmid, Nat.mod_eq_of_lt hlow,
    Nat.or_zero, Nat.zero_or]

theorem rank_lt (h : definitionRank isecs obj entry autolinkPriority = some rank) :
    rank < 2^64 := by
  obtain ⟨-,-,cls,hcls,rfl⟩ := definition_rank_some h
  have hcls := class_le hcls
  have hpriority : obj.priority.toNat < 2^64 :=
    Nat.lt_of_lt_of_le obj.priority.toNat_lt (by decide)
  have hhigh : cls <<< 40 < 2^64 := by
    rw [Nat.shiftLeft_eq]
    omega
  exact Nat.or_lt_two_pow (Nat.or_lt_two_pow hhigh (Nat.mod_lt _ (by decide))) hpriority

/-- The high part of a rank tells a live tentative definition from the rest. -/
theorem rank_common (h : definitionRank isecs obj entry autolinkPriority = some rank) :
    rank >>> 40 = 4 ↔ definitionClass obj entry = some 4 := by
  obtain ⟨-,-,cls,hcls,rfl⟩ := definition_rank_some h
  have hpriority : obj.priority.toNat >>> 40 = 0 := by
    have hlow : obj.priority.toNat < 2^32 := obj.priority.toNat_lt
    rw [Nat.shiftRight_eq_div_pow]
    exact Nat.div_eq_of_lt (Nat.lt_of_lt_of_le hlow (by decide))
  have hhigh : (cls <<< 40) >>> 40 = cls := Nat.shiftLeft_shiftRight cls 40
  rw [Nat.shiftRight_or_distrib, Nat.shiftRight_or_distrib, hpriority, hhigh, Nat.or_zero, hcls,
    Option.some_inj]
  by_cases hweak : cls = 1
  · subst hweak
    have hodd (a : ℕ) : (1 ||| a) % 2 = 1 := by simp
    constructor
    · intro h4
      have hfour := hodd
        ((((weakTerm isecs obj entry 1 ||| phase obj autolinkPriority 1) <<< 32) % 2^64) >>> 40)
      rw [h4] at hfour
      cases hfour
    · intro h4
      cases h4
  · have hterm : weakTerm isecs obj entry cls = 0 := by
      rw [weakTerm, if_neg]
      exact fun h => hweak h.1
    have hphase : phase obj autolinkPriority cls ≤ 2 := by
      rw [phase]
      split <;> decide
    have hmid : ((phase obj autolinkPriority cls <<< 32) % 2^64) >>> 40 = 0 := by
      rw [Nat.shiftRight_eq_div_pow, Nat.shiftLeft_eq]
      omega
    rw [hterm, Nat.zero_or, hmid, Nat.or_zero]

end Rank

end MoldMacho.Definitions
