import Mathlib.Tactic.IntervalCases
import MoldMacho.Mergeable.Record

/-!
# A record's fixups

The sixteen bytes of a fixup, read again once more addends have joined the large
ones. The kind decides where the addend is, on each side by itself.
-/

set_option autoImplicit false

namespace MoldMacho.Mergeable

open Bytes

namespace Fixup

/-- The fixup's bytes, and the large addends with its own. -/
def write (f : Fixup) (large : List ℤ) : List UInt8 × List ℤ :=
  let (w2,w3,large) := f.words large
  (toLe 4 f.offset ++ (toLe 4 f.target ++ (toLe 4 w2 ++ toLe 4 w3)),large)

def read (c : List UInt8) (large : List ℤ) : Option Fixup :=
  (readLe 4 c 0).bind fun w0 => (readLe 4 c 4).bind fun w1 => (readLe 4 c 8).bind fun w2 =>
  (readLe 4 c 12).bind fun w3 => ofWords w0 w1 w2 w3 large

def isArm64 (kind : ℕ) : Prop := 4 ≤ extrasUsage kind ∧ extrasUsage kind ≤ 8

instance (kind : ℕ) : Decidable (isArm64 kind) := inferInstanceAs (Decidable (_ ∧ _))

/-- The values that the fields of a fixup can have, and which a kind has. -/
structure WellFormed (f : Fixup) : Prop where
  offset : f.offset < 2^32
  target : f.target < 2^32
  kind : f.kind < 0x400
  low : -2^63 ≤ f.addend
  high : f.addend < 2^63
  subtracted : ∀ e, f.subtracted = some e → e < 2^32
  difference : f.subtracted.isSome = true ↔ extrasUsage f.kind = 1
  scale : f.scale < 2^8
  second : f.second < 2^8
  plain : ¬ isArm64 f.kind → f.scale = 0 ∧ f.second = 0

/-- A fixup whose addend is read from more bits than it is written to. -/
def LosesSign (f : Fixup) : Prop := f.kind = 0x8d ∧ -2^20 ≤ f.addend ∧ f.addend < 0

end Fixup

/-! ## Bits of a word -/

section Bits

theorem or_shift {a i : ℕ} (b : ℕ) (h : a < 2^i) : a ||| (b <<< i) = a + b*2^i := by
  rw [Nat.or_comm, ← Nat.shiftLeft_add_eq_or_of_lt h, Nat.shiftLeft_eq, Nat.add_comm]

/-- The value of a signed integer that fits. -/
theorem sign_extend_fits {n : ℕ} (hn : 0 < n) {v : ℤ} {u : ℕ} (h : Fixup.fits v n)
    (hu : (u : ℤ) % 2^n = v % 2^n) : signExtend n u = v := by
  obtain ⟨hlow,hhigh⟩ := h
  obtain ⟨m,rfl⟩ : ∃ m, n = m+1 := ⟨n-1,by omega⟩
  rw [Nat.add_sub_cancel] at hlow hhigh
  have hpow : (2 : ℤ)^(m+1) = 2*2^m := by rw [pow_succ, mul_comm]
  have hcast : ((u % 2^(m+1) : ℕ) : ℤ) = v % 2^(m+1) := by
    rw [← hu]
    push_cast
    rfl
  have hlt : u % 2^(m+1) < 2^m ↔ v % 2^(m+1) < 2^m := by
    rw [← hcast]
    exact_mod_cast Iff.rfl
  rw [signExtend, Nat.add_sub_cancel, hcast]
  by_cases hneg : v < 0
  · have hmod : v % 2^(m+1) = v + 2^(m+1) := by
      rw [← Int.add_emod_right, Int.emod_eq_of_lt (by omega) (by omega)]
    rw [if_neg (by rw [hlt, hmod]; omega), hmod]
    omega
  · have hmod : v % 2^(m+1) = v := Int.emod_eq_of_lt (by omega) (by omega)
    rw [if_pos (by rw [hlt, hmod]; omega), hmod]

theorem to_u32_cast (v : ℤ) : (toU32 v : ℤ) = v % 2^32 :=
  Int.toNat_of_nonneg (Int.emod_nonneg _ (by norm_num))

theorem to_u32_lt (v : ℤ) : toU32 v < 2^32 := by
  have hcast := to_u32_cast v
  have hlt : v % 2^32 < 2^32 := Int.emod_lt_of_pos _ (by norm_num)
  omega

end Bits

namespace Fixup

/-! ## The last word -/

/-- What a fixup's last word holds besides the addend. -/
def extras (f : Fixup) : ℕ :=
  if extrasUsage f.kind = 1 then f.subtracted.getD 0
  else if isArm64 f.kind then (f.scale <<< 8) ||| f.second else 0

/-- A last word that holds what the kind carries besides the addend. -/
structure Carries (f : Fixup) (w3 : ℕ) : Prop where
  difference : extrasUsage f.kind = 1 → f.subtracted = some w3
  arm64 : isArm64 f.kind → w3 / 2^8 % 2^8 = f.scale ∧ w3 % 2^8 = f.second

variable {f : Fixup}

theorem extras_arm64 (hf : f.WellFormed) (harm : isArm64 f.kind) :
    f.extras = f.second + f.scale*2^8 := by
  have hne : extrasUsage f.kind ≠ 1 := by
    have hle := harm.1
    omega
  rw [extras, if_neg hne, if_pos harm, Nat.or_comm, or_shift _ hf.second]

theorem extras_carries (hf : f.WellFormed) : f.Carries f.extras := by
  constructor
  · intro hone
    obtain ⟨e,he⟩ := Option.isSome_iff_exists.1 (hf.difference.2 hone)
    rw [extras, if_pos hone, he]
    rfl
  · intro harm
    have hscale := hf.scale
    have hsecond := hf.second
    rw [extras_arm64 hf harm]
    omega

/-- The rest of an addend, above the scale and the distance. -/
theorem extras_rest_carries (hf : f.WellFormed) (harm : isArm64 f.kind) (high : ℕ) :
    f.Carries (f.extras ||| (high <<< 16)) ∧ (f.extras ||| (high <<< 16)) / 2^16 = high := by
  have hscale := hf.scale
  have hsecond := hf.second
  have hlt : f.extras < 2^16 := by
    rw [extras_arm64 hf harm]
    omega
  rw [or_shift _ hlt, extras_arm64 hf harm]
  refine ⟨⟨fun hone => ?_,fun _ => ?_⟩,?_⟩
  · have hle := harm.1
    omega
  · omega
  · omega

theorem extras_lt (hf : f.WellFormed) : f.extras < 2^32 := by
  by_cases hone : extrasUsage f.kind = 1
  · obtain ⟨e,he⟩ := Option.isSome_iff_exists.1 (hf.difference.2 hone)
    rw [extras, if_pos hone, he]
    exact hf.subtracted e he
  · by_cases harm : isArm64 f.kind
    · have hscale := hf.scale
      have hsecond := hf.second
      rw [extras_arm64 hf harm]
      omega
    · rw [extras, if_neg hone, if_neg harm]
      norm_num

/-- The addend that the last two words hold. -/
def wordsAddend (kind w2 w3 : ℕ) (large : List ℤ) : Option ℤ :=
  if w2 / 2^10 % 2 = 1 then large[w2 / 2^11]?
  else if extrasUsage kind = 2 then some (signExtend 32 w3)
  else if extrasUsage kind = 3 then some (signExtend 28 (w2 / 2^11 ||| ((w3 / 2^25) <<< 21)))
  else if isArm64 kind then some (signExtend 32 (w2 / 2^11 ||| ((w3 / 2^16) <<< 21)))
  else some (signExtend 21 (w2 / 2^11))

/-- A fixup read from its own words, but for the addend. -/
theorem of_words_eq (hf : f.WellFormed) {w2 w3 : ℕ} {large : List ℤ} {addend : ℤ}
    (hkind : w2 % 2^10 = f.kind) (hlast : f.Carries w3)
    (haddend : wordsAddend f.kind w2 w3 large = some addend) :
    ofWords f.offset f.target w2 w3 large = some { f with addend } := by
  have hread : ofWords f.offset f.target w2 w3 large =
      (wordsAddend f.kind w2 w3 large).map fun addend =>
        { offset := f.offset, target := f.target, kind := f.kind, addend
          subtracted := if extrasUsage f.kind = 1 then some w3 else none
          scale := if isArm64 f.kind then w3 / 2^8 % 2^8 else 0
          second := if isArm64 f.kind then w3 % 2^8 else 0 } := by
    rw [← hkind]
    rfl
  have hsubtracted : (if extrasUsage f.kind = 1 then some w3 else none) = f.subtracted := by
    split
    · next hone => exact (hlast.difference hone).symm
    · next hone =>
      cases hsub : f.subtracted with
      | none => rfl
      | some e => exact absurd (hf.difference.1 (by rw [hsub]; rfl)) hone
  have hscale : (if isArm64 f.kind then w3 / 2^8 % 2^8 else 0) = f.scale := by
    split
    · next harm => exact (hlast.arm64 harm).1
    · next harm => exact (hf.plain harm).1.symm
  have hsecond : (if isArm64 f.kind then w3 % 2^8 else 0) = f.second := by
    split
    · next harm => exact (hlast.arm64 harm).2
    · next harm => exact (hf.plain harm).2.symm
  rw [hread, haddend, Option.map_some, hsubtracted, hscale, hsecond]

/-! ## The addend -/

/-- The large addends with one more, which is put in once. -/
def grown (addend : ℤ) (large : List ℤ) : List ℤ :=
  if addend ∈ large then large else large ++ [addend]

theorem grown_append (addend : ℤ) (large : List ℤ) :
    ∃ more, grown addend large = large ++ more := by
  rw [grown]
  split
  · exact ⟨[],(List.append_nil _).symm⟩
  · exact ⟨_,rfl⟩

theorem mem_grown (addend : ℤ) (large : List ℤ) : addend ∈ grown addend large := by
  rw [grown]
  split
  · next h => exact h
  · simp

/-- Where a fixup's addend goes. -/
inductive Words (f : Fixup) (large : List ℤ) : ℕ × ℕ × List ℤ → Prop where
  | whole (kind : extrasUsage f.kind = 2) (fits : fits f.addend 32) :
      Words f large (f.kind,toU32 f.addend,large)
  | split (kind : isArm64 f.kind) (fits : fits f.addend 32) :
      Words f large (f.kind ||| ((toU32 f.addend % 2^21) <<< 11),
        f.extras ||| ((toU32 f.addend / 2^21) <<< 16),large)
  | short (kind : extrasUsage f.kind ∈ [0,1,3]) (fits : fits f.addend 21) :
      Words f large (f.kind ||| ((toU32 f.addend % 2^21) <<< 11),f.extras,large)
  | large (wide : ¬ (extrasUsage f.kind ∈ [0,1,3] ∧ fits f.addend 21)) :
      Words f large (f.kind ||| largeAddend |||
        (((grown f.addend large).idxOf f.addend <<< 11) % 2^32),f.extras,grown f.addend large)

theorem words_words (f : Fixup) (large : List ℤ) : Words f large (f.words large) := by
  unfold words
  dsimp only
  split
  · next h => exact .whole h.1 h.2
  · split
    · next h => exact .split h.1 h.2
    · split
      · next h => exact .short h.1 h.2
      · next h => exact .large h

theorem sign_lost_kind (kind : ℕ) : extrasUsage kind = 3 ↔ kind = 0x8d := by
  constructor
  · intro h
    by_contra hne
    have h3 : extrasUsage kind ≠ 3 := by
      simp only [extrasUsage, if_neg hne]
      split <;> [skip; split <;> [skip; split <;> [skip; split <;> [skip; split]]]]
      all_goals omega
    exact h3 h
  · rintro rfl
    rfl

/-- The addend a fixup is read with. -/
def readBack (f : Fixup) : ℤ :=
  if f.kind = 0x8d ∧ -2^20 ≤ f.addend ∧ f.addend < 0 then f.addend + 2^21 else f.addend

/-- The low bits alone, where the addend is of 21. -/
theorem short_addend (hkind : extrasUsage f.kind ∈ [0,1,3]) (hfits : fits f.addend 21) {w2 w3 : ℕ}
    (hbit : w2 / 2^10 % 2 = 0) (hlow : w2 / 2^11 = toU32 f.addend % 2^21)
    (hrest : extrasUsage f.kind = 3 → w3 = 0) (large : List ℤ) :
    wordsAddend f.kind w2 w3 large = some f.readBack := by
  have hcast := to_u32_cast f.addend
  have hmod : ((toU32 f.addend % 2^21 : ℕ) : ℤ) = f.addend % 2^21 := by
    push_cast
    rw [hcast, Int.emod_emod_of_dvd _ (by norm_num)]
  have hnot : ¬ isArm64 f.kind := by
    rintro ⟨hlow,-⟩
    simp only [List.mem_cons, List.not_mem_nil, or_false] at hkind
    omega
  have htwo : extrasUsage f.kind ≠ 2 := by
    rintro h
    rw [h] at hkind
    simp at hkind
  rw [wordsAddend, if_neg (by omega), if_neg htwo, hlow]
  by_cases hthree : extrasUsage f.kind = 3
  · have hzero : toU32 f.addend % 2^21 ||| ((w3 / 2^25) <<< 21) = toU32 f.addend % 2^21 := by
      rw [hrest hthree]
      simp
    have hauth : f.kind = 0x8d := (sign_lost_kind _).1 hthree
    obtain ⟨hlow,hhigh⟩ := hfits
    norm_num at hlow hhigh hmod
    -- The value is not negative, of fewer bits than are read.
    have hsign : signExtend 28 (toU32 f.addend % 2^21) = ((toU32 f.addend % 2^21 : ℕ) : ℤ) := by
      rw [signExtend, if_pos (by omega)]
      congr 1
      omega
    rw [if_pos hthree, hzero, hsign, readBack]
    congr 1
    norm_num
    split <;> omega
  · have hplain : f.readBack = f.addend := by
      rw [readBack, if_neg]
      rintro ⟨hauth,-⟩
      exact hthree ((sign_lost_kind _).2 hauth)
    rw [if_neg hthree, if_neg hnot, hplain, sign_extend_fits (by norm_num) hfits]
    rw [hmod, Int.emod_emod]

/-- What a fixup's words are read as, with the large addends it leaves. -/
theorem read_words (hf : f.WellFormed) {large : List ℤ}
    (hlarge : (f.words large).2.2.length ≤ 2^21) :
    ofWords f.offset f.target (f.words large).1 (f.words large).2.1 (f.words large).2.2 =
      some { f with addend := f.readBack } := by
  have hkind := hf.kind
  have hu := to_u32_lt f.addend
  have hcast := to_u32_cast f.addend
  have hplain : extrasUsage f.kind ≠ 3 → f.readBack = f.addend := by
    intro hne
    rw [readBack, if_neg]
    rintro ⟨hauth,-⟩
    exact hne ((sign_lost_kind _).2 hauth)
  have hsplit : f.kind ||| ((toU32 f.addend % 2^21) <<< 11) =
      f.kind + toU32 f.addend % 2^21 * 2^11 := or_shift _ (by omega)
  have hwords := words_words f large
  generalize f.words large = w at hwords hlarge ⊢
  cases hwords with
  | whole husage hfits =>
    apply of_words_eq hf (by omega)
    · constructor
      · intro hone
        omega
      · rintro ⟨hle,-⟩
        omega
    · rw [wordsAddend, if_neg (by omega), if_pos husage, sign_extend_fits (by norm_num) hfits,
        hplain (by omega)]
      rw [hcast, Int.emod_emod]
  | split harm hfits =>
    obtain ⟨hcarries,hrest⟩ := extras_rest_carries hf harm (toU32 f.addend / 2^21)
    have hle := harm.1
    dsimp only
    apply of_words_eq hf (by rw [hsplit]; omega) hcarries
    have hjoin : toU32 f.addend % 2^21 ||| ((toU32 f.addend / 2^21) <<< 21) = toU32 f.addend := by
      rw [or_shift _ (Nat.mod_lt _ (by norm_num))]
      omega
    have hlow : (f.kind + toU32 f.addend % 2^21 * 2^11) / 2^11 = toU32 f.addend % 2^21 := by omega
    rw [wordsAddend, hsplit, if_neg (by omega), if_neg (by omega), if_neg (by omega), if_pos harm,
      hrest, hlow, hjoin, sign_extend_fits (by norm_num) hfits, hplain (by omega)]
    rw [hcast, Int.emod_emod]
  | short husage hfits =>
    dsimp only
    rw [hsplit]
    apply of_words_eq hf (by omega) (extras_carries hf)
    apply short_addend husage hfits (by omega) (by omega)
    intro hthree
    have hnot : ¬ isArm64 f.kind := by
      rintro ⟨hle,-⟩
      omega
    rw [extras, if_neg (by omega), if_neg hnot]
  | large hwide =>
    dsimp only at hlarge ⊢
    have hlt := List.idxOf_lt_length_of_mem (mem_grown f.addend large)
    have hget : (grown f.addend large)[(grown f.addend large).idxOf f.addend]? = some f.addend := by
      rw [List.getElem?_eq_getElem hlt, List.getElem_idxOf]
    generalize (grown f.addend large).idxOf f.addend = i at hlt hget ⊢
    have hword : f.kind ||| largeAddend ||| ((i <<< 11) % 2^32) = f.kind + 2^10 + i*2^11 := by
      have hbit : f.kind ||| largeAddend = f.kind + 2^10 := by
        have h := or_shift 1 (show f.kind < 2^10 by omega)
        rw [one_mul] at h
        exact h
      rw [hbit, Nat.mod_eq_of_lt (by rw [Nat.shiftLeft_eq]; omega), or_shift _ (by omega)]
    have hback : f.readBack = f.addend := by
      rw [readBack, if_neg]
      rintro ⟨hauth,hlow,hhigh⟩
      refine hwide ⟨by rw [(sign_lost_kind _).2 hauth]; simp,?_,?_⟩
      · norm_num
        omega
      · norm_num
        omega
    have hindex : (f.kind + 2^10 + i*2^11) / 2^11 = i := by omega
    rw [hword]
    apply of_words_eq hf (by omega) (extras_carries hf)
    rw [wordsAddend, if_pos (by omega), hindex, hget, hback]

/-! ## The bytes -/

theorem words_lt (hf : f.WellFormed) {large : List ℤ} (hlarge : (f.words large).2.2.length ≤ 2^21) :
    (f.words large).1 < 2^32 ∧ (f.words large).2.1 < 2^32 := by
  have hkind := hf.kind
  have hextras := extras_lt hf
  have hu := to_u32_lt f.addend
  have hwords := words_words f large
  generalize f.words large = w at hwords hlarge ⊢
  cases hwords with
  | whole husage hfits => exact ⟨by dsimp only; omega,hu⟩
  | split harm hfits =>
    dsimp only
    refine ⟨?_,?_⟩
    · rw [or_shift _ (by omega)]
      omega
    · have hsecond := hf.second
      have hscale := hf.scale
      rw [or_shift _ (by rw [extras_arm64 hf harm]; omega), extras_arm64 hf harm]
      omega
  | short husage hfits =>
    refine ⟨?_,hextras⟩
    dsimp only
    rw [or_shift _ (by omega)]
    omega
  | large hwide =>
    refine ⟨?_,hextras⟩
    dsimp only
    apply Nat.or_lt_two_pow (Nat.or_lt_two_pow (by omega) (by decide))
    exact Nat.mod_lt _ (by norm_num)

theorem read_bytes {w0 w1 w2 w3 : ℕ} (h0 : w0 < 2^32) (h1 : w1 < 2^32) (h2 : w2 < 2^32)
    (h3 : w3 < 2^32) (large : List ℤ) :
    read (toLe 4 w0 ++ (toLe 4 w1 ++ (toLe 4 w2 ++ toLe 4 w3))) large =
      ofWords w0 w1 w2 w3 large := by
  generalize hc : toLe 4 w0 ++ (toLe 4 w1 ++ (toLe 4 w2 ++ toLe 4 w3)) = c
  obtain ⟨hw0,hoff,hdrop⟩ := read_field (Nat.zero_le c.length) (List.drop_zero.trans hc.symm)
  obtain ⟨hw1,hoff,hdrop⟩ := read_field hoff hdrop
  obtain ⟨hw2,hoff,hdrop⟩ := read_field hoff hdrop
  obtain ⟨hw3,-,-⟩ := read_field hoff (hdrop.trans (List.append_nil _).symm)
  have hvalue : ∀ w < 2^32, some (w % 256^4) = some w :=
    fun w hw => congrArg some (Nat.mod_eq_of_lt hw)
  have h4 : readLe 4 c 4 = some w1 := hw1.trans (hvalue w1 h1)
  have h8 : readLe 4 c 8 = some w2 := hw2.trans (hvalue w2 h2)
  have h12 : readLe 4 c 12 = some w3 := hw3.trans (hvalue w3 h3)
  rw [read, hw0.trans (hvalue w0 h0), Option.bind_some, h4, Option.bind_some, h8,
    Option.bind_some, h12, Option.bind_some]

/-- A fixup's bytes are read as it is, but for an addend that loses its sign. -/
theorem read_write (hf : f.WellFormed) {large : List ℤ}
    (hlarge : (f.write large).2.length ≤ 2^21) :
    read (f.write large).1 (f.write large).2 = some { f with addend := f.readBack } := by
  obtain ⟨hw2,hw3⟩ := words_lt hf hlarge
  exact (read_bytes hf.offset hf.target hw2 hw3 _).trans (read_words hf hlarge)

theorem words_addend_append {kind w2 w3 : ℕ} {large : List ℤ} {addend : ℤ}
    (h : wordsAddend kind w2 w3 large = some addend) (more : List ℤ) :
    wordsAddend kind w2 w3 (large ++ more) = some addend := by
  unfold wordsAddend at h ⊢
  split at h
  · next hbit =>
    rw [if_pos hbit, List.getElem?_append_left (List.getElem?_eq_some_iff.1 h).1]
    exact h
  · next hbit =>
    rw [if_neg hbit]
    exact h

/-- More large addends leave what is read as it is. -/
theorem read_append {c : List UInt8} {large : List ℤ} (h : read c large = some f) (more : List ℤ) :
    read c (large ++ more) = some f := by
  simp only [read, Option.bind_eq_some_iff] at h ⊢
  obtain ⟨w0,h0,w1,h1,w2,h2,w3,h3,h⟩ := h
  refine ⟨w0,h0,w1,h1,w2,h2,w3,h3,?_⟩
  obtain ⟨addend,haddend,hfixup⟩ := Option.map_eq_some_iff.1 h
  exact Option.map_eq_some_iff.2 ⟨addend,words_addend_append haddend more,hfixup⟩

theorem write_append (f : Fixup) (large : List ℤ) :
    ∃ more, (f.write large).2 = large ++ more := by
  have hwords := words_words f large
  simp only [write]
  generalize f.words large = w at hwords ⊢
  cases hwords with
  | whole | split | short => exact ⟨[],(List.append_nil _).symm⟩
  | large => exact grown_append _ _

end Fixup

/-! ## A record's fixups -/

/-- The fixups' bytes, and their large addends after those of the fixups before. -/
def writeFixups : List Fixup → List ℤ → List (List UInt8) × List ℤ
  | [], large => ([],large)
  | f::fixups, large =>
    let (bytes,large) := f.write large
    let (rest,large) := writeFixups fixups large
    (bytes::rest,large)

theorem write_fixups_append (fixups : List Fixup) (large : List ℤ) :
    ∃ more, (writeFixups fixups large).2 = large ++ more := by
  induction fixups generalizing large with
  | nil => exact ⟨[],(List.append_nil _).symm⟩
  | cons f fixups ih =>
    obtain ⟨own,hown⟩ := Fixup.write_append f large
    obtain ⟨more,hmore⟩ := ih (f.write large).2
    refine ⟨own ++ more,?_⟩
    rw [← List.append_assoc, ← hown]
    exact hmore

/-- Every fixup of a record is read as it was written, with the large addends of
them all. -/
theorem write_fixups_read {fixups : List Fixup} {large : List ℤ}
    (hf : ∀ f ∈ fixups, f.WellFormed ∧ ¬ f.LosesSign)
    (hlarge : (writeFixups fixups large).2.length ≤ 2^21) :
    (writeFixups fixups large).1.map (Fixup.read · (writeFixups fixups large).2) =
      fixups.map some := by
  induction fixups generalizing large with
  | nil => rfl
  | cons f fixups ih =>
    obtain ⟨⟨hwell,hsign⟩,hrest⟩ := List.forall_mem_cons.1 hf
    obtain ⟨more,hmore⟩ := write_fixups_append fixups (f.write large).2
    have hall : (writeFixups (f::fixups) large).2 = (f.write large).2 ++ more := hmore
    have hbound : (f.write large).2.length ≤ 2^21 := by
      rw [hall, List.length_append] at hlarge
      omega
    have hback : f.readBack = f.addend := if_neg hsign
    have hread := Fixup.read_append (Fixup.read_write hwell hbound) more
    rw [hback, ← hall] at hread
    rw [List.map_cons]
    exact List.cons_eq_cons.2 ⟨hread,ih hrest hlarge⟩

/-- A fixup is read as it was written, and those before it still are, just if its
kind is not that of an authenticated pointer or its addend is not negative, in
the bits it is written to. -/
theorem fixup_round_trip {f : Fixup} (hf : f.WellFormed) {large : List ℤ}
    (hlarge : (f.write large).2.length ≤ 2^21) :
    (Fixup.read (f.write large).1 (f.write large).2 = some f ∧
      ∀ c g, Fixup.read c large = some g → Fixup.read c (f.write large).2 = some g) ↔ ¬ f.LosesSign := by
  rw [Fixup.read_write hf hlarge]
  constructor
  · rintro ⟨hread,-⟩ hsign
    have haddend : f.readBack = f.addend := congrArg Fixup.addend (Option.some.inj hread)
    have hback : f.readBack = f.addend + 2^21 := if_pos hsign
    rw [hback] at haddend
    norm_num at haddend
  · intro hsign
    have hback : f.readBack = f.addend := if_neg hsign
    refine ⟨by rw [hback],?_⟩
    intro c g hread
    obtain ⟨more,hmore⟩ := Fixup.write_append f large
    rw [hmore]
    exact Fixup.read_append hread more

theorem fixup_round_trip_adrp :
    Fixup.read (Fixup.write ⟨0,0,0x83,-2^31,none,0,0⟩ []).1
      (Fixup.write ⟨0,0,0x83,-2^31,none,0,0⟩ []).2 = some ⟨0,0,0x83,-2^31,none,0,0⟩ := by
  have hf : Fixup.WellFormed ⟨0,0,0x83,-2^31,none,0,0⟩ := by
    constructor <;> simp [Fixup.isArm64, extrasUsage]
  exact ((fixup_round_trip hf (by decide)).2 (by simp [Fixup.LosesSign])).1

/-- An authenticated pointer's addend of -1 is read as 2097151. -/
theorem negative_auth_addend_lost :
    Fixup.WellFormed ⟨0,0,0x8d,-1,none,0,0⟩ ∧
    Fixup.read (Fixup.write ⟨0,0,0x8d,-1,none,0,0⟩ []).1
      (Fixup.write ⟨0,0,0x8d,-1,none,0,0⟩ []).2 = some ⟨0,0,0x8d,2097151,none,0,0⟩ := by
  refine ⟨?_,by decide +kernel⟩
  constructor <;> simp [Fixup.isArm64, extrasUsage]

end MoldMacho.Mergeable
