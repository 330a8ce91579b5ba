import MoldMacho.Chunks.ChainedFixups
import MoldMacho.Lib.Lists

/-!
# Walking the chains

dyld reads the starts of each segment's pages and follows each chain from
word to word. Over words that lie apart it finds the fixups of every
segment once each, with the values they were given.
-/

set_option autoImplicit false

namespace MoldMacho.ChainedFixups
open MoldMacho.Segments MoldMacho.Opcodes MoldMacho.Bytes MoldMacho.Lists

/-! The walk. -/

/-- What a fixup puts in its place: the address of an import and an
addend, or a pointer. -/
inductive Value where
  | bind (sym addend : ℕ)
  | rebase (val : ℕ)
  deriving DecidableEq

/-- A chained pointer: its value, and the distance to the next in strides
of four bytes. -/
def decodeWord (base : ℕ) (imports : List (ℕ × ℕ)) (word : ℕ) : Option (Value × ℕ) :=
  let next := word / 2^51 % 2^12
  if word / 2^63 % 2 = 1 then
    (imports[word % 2^24]?).map fun i => (.bind i.1 (i.2 + word / 2^24 % 2^8), next)
  else some (.rebase ((word % 2^36 + base) % 2^64 + (word / 2^36 % 2^8) * 2^56), next)

/-- The word at `addr` in the mapped image. -/
def loadWord (img : Image) (out : List UInt8) (addr : ℕ) : Option ℕ := do
  let seg ← img.segments.find? fun seg =>
    seg.vmaddr ≤ addr ∧ addr+8 ≤ seg.vmaddr+seg.filesize
  readLe 8 out (seg.fileoff+(addr-seg.vmaddr))

section Walk
variable (img : Image) (imports : List (ℕ × ℕ)) (out : List UInt8)

/-- The fixups of the chain at `addr`, of at most `fuel`. -/
def walkChain : ℕ → ℕ → Option (List (ℕ × Value))
  | 0, _ => none
  | fuel+1, addr => do
    let (value, next) ← decodeWord (targetBase img) imports (← loadWord img out addr)
    if next = 0 then some [(addr, value)]
    else some ((addr, value) :: (← walkChain fuel (addr+4*next)))

/-- The chains of a segment's pages, from page `i` on. -/
def walkPages (fuel segAddr pageSize : ℕ) : ℕ → List ℕ → Option (List (ℕ × Value))
  | _, [] => some []
  | i, start::starts => do
    let chain ← if start = ptrStartNone then some []
      else walkChain img imports out fuel (segAddr+i*pageSize+start)
    some (chain ++ (← walkPages fuel segAddr pageSize (i+1) starts))

/-- The chains of the segment whose starts are at `off`, if it has any. -/
def walkSegment (fuel : ℕ) (payload : List UInt8) (startsOffset i : ℕ) :
    Option (List (ℕ × Value)) := do
  let off ← readLe 4 payload (startsOffset+4+i*4)
  if off = 0 then some []
  else do
    let record := startsOffset+off
    let pageSize ← readLe 2 payload (record+4)
    let segmentOffset ← readLe 8 payload (record+8)
    let pageCount ← readLe 2 payload (record+20)
    let starts ← (List.range pageCount).mapM fun j => readLe 2 payload (record+22+j*2)
    walkPages img imports out fuel ((img.base+segmentOffset) % 2^64) pageSize 0 starts

/-- All fixups dyld finds. -/
def walkImage (fuel : ℕ) (payload : List UInt8) (startsOffset : ℕ) :
    Option (List (ℕ × Value)) := do
  let count ← readLe 4 payload startsOffset
  let chains ← (List.range count).mapM (walkSegment img imports out fuel payload startsOffset)
  some chains.flatten

end Walk

/-! Words. -/

theorem or_shift {k : ℕ} (x y : ℕ) (h : x < 2^k) : x ||| (y <<< k) = x+y*2^k := by
  rw [Nat.or_comm, ← Nat.shiftLeft_add_eq_or_of_lt h, Nat.shiftLeft_eq, Nat.add_comm]

theorem decode_bind (base : ℕ) (imports : List (ℕ × ℕ)) {ordinal inline next : ℕ}
    (ho : ordinal < 2^24) (hi : inline < 2^8) (hn : next < 2^12) :
    decodeWord base imports ((ordinal ||| (inline <<< 24) ||| (next <<< 51) ||| (1 <<< 63)) % 2^64) =
      (imports[ordinal]?).map fun i => (.bind i.1 (i.2+inline), next) := by
  rw [or_shift (k := 24) _ _ ho, or_shift (k := 51) _ _ (by omega),
    or_shift (k := 63) _ _ (by omega)]
  have hword : (ordinal+inline*2^24+next*2^51+1*2^63) % 2^64 =
      ordinal+inline*2^24+next*2^51+2^63 := by omega
  rw [hword]
  have hbit : (ordinal+inline*2^24+next*2^51+2^63) / 2^63 % 2 = 1 := by omega
  have hord : (ordinal+inline*2^24+next*2^51+2^63) % 2^24 = ordinal := by omega
  have hinl : (ordinal+inline*2^24+next*2^51+2^63) / 2^24 % 2^8 = inline := by omega
  have hnext : (ordinal+inline*2^24+next*2^51+2^63) / 2^51 % 2^12 = next := by omega
  rw [decodeWord, if_pos hbit, hord, hinl, hnext]

theorem decode_rebase {base val word next : ℕ} (imports : List (ℕ × ℕ)) (hb : base < 2^64)
    (hv : val < 2^64) (hn : next < 2^12) (h : rebaseWord base val = some word) :
    decodeWord base imports ((word ||| (next <<< 51)) % 2^64) = some (.rebase val, next) := by
  simp only [rebaseWord] at h
  split at h
  case isTrue => contradiction
  case isFalse hfit =>
    rw [not_not, Nat.shiftRight_eq_div_pow] at hfit
    rw [Option.some.injEq, Nat.shiftRight_eq_div_pow] at h
    have ht : wrappingSub (val % 2^56) base < 2^36 := by omega
    rw [or_shift (k := 36) _ _ ht] at h
    subst h
    have hback : (wrappingSub (val % 2^56) base + base) % 2^64 = val % 2^56 := by
      simp only [wrappingSub]
      omega
    have hval : val % 2^56 + val / 2^56*2^56 = val := by omega
    have hhigh : val / 2^56 < 2^8 := by omega
    generalize wrappingSub (val % 2^56) base = target at ht hback
    generalize val / 2^56 = high at hval hhigh
    rw [or_shift (k := 51) _ _ (by omega)]
    have hword : (target+high*2^36+next*2^51) % 2^64 = target+high*2^36+next*2^51 := by omega
    rw [hword]
    have hbit : ¬ (target+high*2^36+next*2^51) / 2^63 % 2 = 1 := by omega
    have htarget : (target+high*2^36+next*2^51) % 2^36 = target := by omega
    have hhigh' : (target+high*2^36+next*2^51) / 2^36 % 2^8 = high := by omega
    have hnext : (target+high*2^36+next*2^51) / 2^51 % 2^12 = next := by
      rw [Nat.add_mul_div_right _ _ (by decide), Nat.div_eq_of_lt (by omega), Nat.zero_add]
      exact Nat.mod_eq_of_lt hn
    rw [decodeWord, if_neg hbit, htarget, hhigh', hnext, hback, hval]

/-! Imports. -/

theorem add_import_subset (imports : List (ℕ × ℕ)) (f : Fixup) : imports ⊆ addImport imports f := by
  intro i hi
  unfold addImport
  split
  · exact hi
  · split
    · exact hi
    · exact List.mem_append_left _ hi

theorem add_import_mem (imports : List (ℕ × ℕ)) {f : Fixup} {i : ℕ × ℕ}
    (h : f.imported = some i) : i ∈ addImport imports f := by
  by_cases hi : i ∈ imports
  · simp [addImport, h, hi]
  · simp [addImport, h, hi]

theorem fold_import_mem {fixups : List Fixup} {imports : List (ℕ × ℕ)} {i : ℕ × ℕ}
    (h : i ∈ imports ∨ ∃ f ∈ fixups, f.imported = some i) : i ∈ fixups.foldl addImport imports := by
  induction fixups generalizing imports with
  | nil => simpa using h
  | cons g fixups ih =>
    apply ih
    rcases h with h | ⟨f,hf,hi⟩
    · exact .inl (add_import_subset imports g h)
    · cases List.mem_cons.1 hf with
      | inl he => exact .inl (add_import_mem imports (he ▸ hi))
      | inr hm => exact .inr ⟨f,hm,hi⟩

theorem import_table_mem {fixups : List Fixup} {f : Fixup} (hf : f ∈ fixups) {i : ℕ × ℕ}
    (hi : f.imported = some i) : i ∈ importTable fixups :=
  fold_import_mem (.inr ⟨f,hf,hi⟩)

/-- A fixup's word decodes to its value and its link. -/
theorem fixup_word {img : Image} {fixups : List Fixup} {f : Fixup} {next val word : ℕ}
    (hf : f ∈ fixups) (hcount : (importTable fixups).length ≤ 2^24) (hb : img.base < 2^64)
    (hv : val < 2^64) (hn : next < 2^12)
    (h : fixupWord img (importTable fixups) f next val = some word) :
    decodeWord (targetBase img) (importTable fixups) (word % 2^64) =
      some (f.sym.elim (.rebase val) fun sym => .bind sym f.addend, next) := by
  have htb : targetBase img < 2^64 := by
    unfold targetBase
    split
    · exact hb
    · decide
  unfold fixupWord at h
  split at h
  case isTrue => contradiction
  case isFalse =>
    cases hs : f.sym with
    | none =>
      simp only [Fixup.imported, hs, Option.map_none, Option.map_eq_some_iff] at h
      obtain ⟨w,hw,rfl⟩ := h
      exact decode_rebase _ htb hv hn hw
    | some sym =>
      have hi : f.imported = some (sym, tableAddend f.addend) := by simp [Fixup.imported, hs]
      simp only [hi, Option.some.injEq] at h
      subst h
      have hmem := import_table_mem hf hi
      have hlt := List.idxOf_lt_length_iff.2 hmem
      rw [decode_bind _ _ (by omega) (by split <;> simp_all [maxInlineAddend]; omega) hn,
        List.getElem?_eq_getElem hlt, List.getElem_idxOf, Option.map_some, Option.elim_some]
      congr 3
      simp only [tableAddend]
      split
      · exact Nat.zero_add _
      · rfl

/-! The fixups of a segment. -/

/-- Fixups in order, their words apart. -/
def Spaced (fixups : List Fixup) : Prop := fixups.Pairwise fun f g => f.addr+8 ≤ g.addr

theorem takeWhile_nil {fixups : List Fixup} {a : ℕ} (h : ∀ f ∈ fixups, a ≤ f.addr) :
    fixups.takeWhile (fun f => f.addr < a) = [] := by
  cases fixups with
  | nil => rfl
  | cons f fixups =>
    have := h f (by simp)
    rw [List.takeWhile_cons_of_neg (by simpa using this)]

theorem mem_takeWhile_lt {fixups : List Fixup} (hs : Spaced fixups) (b : ℕ) (f : Fixup) :
    f ∈ fixups.takeWhile (fun f => f.addr < b) ↔ f ∈ fixups ∧ f.addr < b := by
  induction fixups with
  | nil => simp
  | cons g fixups ih =>
    obtain ⟨hg,hs⟩ := List.pairwise_cons.1 hs
    by_cases h : g.addr < b
    · simp only [List.takeWhile_cons_of_pos (p := fun f : Fixup => f.addr < b) (by simpa using h),
        List.mem_cons, ih hs]
      grind
    · simp only [List.takeWhile_cons_of_neg (p := fun f : Fixup => f.addr < b) (by simpa using h),
        List.mem_cons]
      grind

theorem drop_takeWhile {fixups : List Fixup} (hs : Spaced fixups) {a b : ℕ} (hab : a ≤ b)
    (f : Fixup) :
    f ∈ (fixups.takeWhile fun f => f.addr < b).drop (fixups.takeWhile fun f => f.addr < a).length ↔
      f ∈ fixups ∧ a ≤ f.addr ∧ f.addr < b := by
  induction fixups with
  | nil => simp
  | cons g fixups ih =>
    obtain ⟨hg,hs'⟩ := List.pairwise_cons.1 hs
    by_cases ha : g.addr < a
    · rw [List.takeWhile_cons_of_pos (p := fun f : Fixup => f.addr < a) (by simpa using ha),
        List.takeWhile_cons_of_pos (p := fun f : Fixup => f.addr < b) (by simp; omega),
        List.length_cons, List.drop_succ_cons, ih hs', List.mem_cons]
      grind
    · have hall : ∀ h ∈ g::fixups, a ≤ h.addr := by grind
      rw [takeWhile_nil hall, List.length_nil, List.drop_zero, mem_takeWhile_lt hs]
      grind

theorem mem_segment_fixups {fixups : List Fixup} (hs : Spaced fixups) (seg : OutputSegment)
    (f : Fixup) :
    f ∈ segmentFixups fixups seg ↔
      f ∈ fixups ∧ seg.vmaddr ≤ f.addr ∧ f.addr < seg.vmaddr+seg.vmsize := by
  rw [segmentFixups, take_takeWhile]
  exact drop_takeWhile hs (Nat.le_add_right _ _) f

theorem segment_fixups_spaced {fixups : List Fixup} (hs : Spaced fixups) (seg : OutputSegment) :
    Spaced (segmentFixups fixups seg) :=
  hs.sublist ((List.drop_sublist _ _).trans (List.take_sublist _ _))

/-! The chains. -/

section Chains
variable {img : Image} {imports : List (ℕ × ℕ)} {out : List UInt8} {seg : OutputSegment}
  {value : Fixup → Value}

/-- The words of a segment's fixups are in place. -/
def Linked (img : Image) (imports : List (ℕ × ℕ)) (out : List UInt8) (seg : OutputSegment)
    (value : Fixup → Value) (fx : List Fixup) : Prop :=
  ∀ f rest, (f::rest) <:+ fx → ∃ word, loadWord img out f.addr = some word ∧
    decodeWord (targetBase img) imports word = some (value f, linkNext img seg f.addr rest)

/-- The page of an address. -/
def page (img : Image) (seg : OutputSegment) (addr : ℕ) : ℕ :=
  (addr-seg.vmaddr) / chainPageSize img

theorem chains_to_page (hplain : img.fixupChainsSection = false)
    (hpage : chainPageSize img = 0x1000 ∨ chainPageSize img = 0x4000) (addr next : ℕ) :
    chainsTo img seg addr next ↔ page img seg next = page img seg addr := by
  have hlog : 2^Nat.log2 (chainPageSize img) = chainPageSize img := by
    cases hpage with
    | inl h => rw [h]; decide
    | inr h => rw [h]; decide
  simp [chainsTo, hplain, page, Nat.shiftRight_eq_div_pow, hlog]

/-- A chain visits the fixups of its page and ends. -/
theorem walk_chain (hplain : img.fixupChainsSection = false)
    (hpage : chainPageSize img = 0x1000 ∨ chainPageSize img = 0x4000) {fx rest : List Fixup}
    {f : Fixup} (hl : Linked img imports out seg value fx) (hs : Spaced fx)
    (ha : ∀ g ∈ fx, g.addr%4 = 0) (hsuffix : (f::rest) <:+ fx) (fuel : ℕ)
    (hfuel : rest.length < fuel) :
    walkChain img imports out fuel f.addr =
      some ((f::rest.takeWhile fun g => page img seg g.addr = page img seg f.addr).map
        fun g => (g.addr, value g)) := by
  induction rest generalizing f fuel with
  | nil =>
    obtain ⟨fuel,rfl⟩ : ∃ k, fuel = k+1 := ⟨fuel-1,by omega⟩
    obtain ⟨word,hload,hdecode⟩ := hl f [] hsuffix
    simp [walkChain, hload, hdecode, linkNext]
  | cons g rest ih =>
    obtain ⟨fuel,rfl⟩ : ∃ k, fuel = k+1 := ⟨fuel-1,by omega⟩
    obtain ⟨word,hload,hdecode⟩ := hl f (g::rest) hsuffix
    have hfg : f.addr+8 ≤ g.addr := by
      have := hs.sublist hsuffix.sublist
      exact (List.pairwise_cons.1 this).1 g (by simp)
    have hf4 := ha f (hsuffix.subset (by simp))
    have hg4 := ha g (hsuffix.subset (by simp))
    by_cases hsame : page img seg g.addr = page img seg f.addr
    · have hnext : linkNext img seg f.addr (g::rest) = (g.addr-f.addr)/4 := by
        rw [linkNext, if_pos ((chains_to_page hplain hpage _ _).2 hsame)]
      have hmove : f.addr+4*((g.addr-f.addr)/4) = g.addr := by omega
      have hne : (g.addr-f.addr)/4 ≠ 0 := by omega
      have hi := ih ((List.suffix_cons f _).trans hsuffix) fuel (by simpa using hfuel)
      rw [hsame] at hi
      rw [List.takeWhile_cons_of_pos (by simpa using hsame)]
      simp only [walkChain, hload, hdecode, hnext, Option.bind_eq_bind, Option.bind_some, hne,
        if_false, hmove, hi]
      rfl
    · have hnext : linkNext img seg f.addr (g::rest) = 0 := by
        rw [linkNext, if_neg (fun h => hsame ((chains_to_page hplain hpage _ _).1 h))]
      rw [List.takeWhile_cons_of_neg (by simpa using hsame)]
      simp [walkChain, hload, hdecode, hnext]

/-- On the page of its first fixup, the fixups of that page are those
before the next page. -/
theorem takeWhile_page {i : ℕ} (hpos : 0 < chainPageSize img) {f : Fixup} {rest : List Fixup}
    (hs : Spaced (f::rest)) (hlo : seg.vmaddr+i*chainPageSize img ≤ f.addr)
    (hhi : f.addr < seg.vmaddr+(i+1)*chainPageSize img) :
    (f::rest.takeWhile fun g => page img seg g.addr = page img seg f.addr) =
      (f::rest).takeWhile fun g => g.addr < seg.vmaddr+(i+1)*chainPageSize img := by
  have hpf : page img seg f.addr = i := by
    rw [page, Nat.div_eq_iff hpos]
    rw [Nat.add_mul] at hhi
    constructor
    · omega
    · omega
  rw [List.takeWhile_cons_of_pos (by simpa using hhi), hpf]
  congr 1
  apply takeWhile_congr
  intro g hg
  have hfg := (List.pairwise_cons.1 hs).1 g hg
  have : page img seg g.addr = i ↔ g.addr < seg.vmaddr+(i+1)*chainPageSize img := by
    rw [page, Nat.div_eq_iff hpos, Nat.add_mul]
    constructor
    · omega
    · omega
  simp [this]

/-- The pages from the `i`-th on chain the fixups from its start to their
end. -/
theorem walk_pages (hplain : img.fixupChainsSection = false)
    (hpage : chainPageSize img = 0x1000 ∨ chainPageSize img = 0x4000) {all : List Fixup}
    (hl : Linked img imports out seg value all) (hs : Spaced all)
    (ha : ∀ g ∈ all, g.addr%4 = 0) {fuel : ℕ} (hfuel : all.length < fuel) (n i : ℕ)
    (fx : List Fixup) (hfx : fx <:+ all) :
    walkPages img imports out fuel seg.vmaddr (chainPageSize img) i
        (pageStarts seg.vmaddr (chainPageSize img) n i fx) =
      some (((fx.dropWhile fun f => f.addr < seg.vmaddr+i*chainPageSize img).takeWhile
        fun f => f.addr < seg.vmaddr+(i+n)*chainPageSize img).map fun g => (g.addr, value g)) := by
  have hpos : 0 < chainPageSize img := by omega
  induction n generalizing i fx with
  | zero =>
    have hnil : (fx.dropWhile fun f => f.addr < seg.vmaddr+i*chainPageSize img).takeWhile
        (fun f => f.addr < seg.vmaddr+(i+0)*chainPageSize img) = [] := by
      apply takeWhile_nil
      intro f hf
      have hsuf : Spaced (fx.dropWhile fun f => f.addr < seg.vmaddr+i*chainPageSize img) :=
        hs.sublist ((List.dropWhile_sublist _).trans hfx.sublist)
      cases hd : fx.dropWhile (fun f => f.addr < seg.vmaddr+i*chainPageSize img) with
      | nil => simp [hd] at hf
      | cons g rest =>
        have hg : ¬ g.addr < seg.vmaddr+i*chainPageSize img := by
          have := List.head?_dropWhile_not (fun f : Fixup => f.addr < seg.vmaddr+i*chainPageSize img) fx
          simpa [hd] using this
        rw [hd] at hf hsuf
        cases List.mem_cons.1 hf with
        | inl he => rw [he, Nat.add_zero]; omega
        | inr hm =>
          have := (List.pairwise_cons.1 hsuf).1 f hm
          rw [Nat.add_zero]
          omega
    rw [hnil]
    rfl
  | succ n ih =>
    have hsucc : i+1+n = i+(n+1) := by omega
    have hnext : ∀ f : Fixup, decide (f.addr < seg.vmaddr+i*chainPageSize img) →
        decide (f.addr < seg.vmaddr+(i+1)*chainPageSize img) := by
      intro f hf
      rw [Nat.add_mul]
      simp at hf ⊢
      omega
    have hend : ∀ f : Fixup, decide (f.addr < seg.vmaddr+(i+1)*chainPageSize img) →
        decide (f.addr < seg.vmaddr+(i+(n+1))*chainPageSize img) := by
      intro f hf
      have : (i+(n+1))*chainPageSize img = (i+1)*chainPageSize img+n*chainPageSize img := by ring
      simp at hf ⊢
      omega
    have hsuf : (fx.dropWhile fun f => f.addr < seg.vmaddr+i*chainPageSize img) <:+ all :=
      (List.dropWhile_suffix _).trans hfx
    have hi := ih (i+1) _ hsuf
    rw [dropWhile_dropWhile hnext, hsucc] at hi
    rw [pageStarts]
    rw [← takeWhile_split hend, List.map_append, dropWhile_dropWhile hnext]
    cases hd : fx.dropWhile (fun f => f.addr < seg.vmaddr+i*chainPageSize img) with
    | nil =>
      rw [hd] at hi
      simp only [walkPages, if_true, Option.bind_eq_bind, Option.bind_some, hi]
      rfl
    | cons f rest =>
      rw [hd] at hi hsuf
      have hlo : ¬ f.addr < seg.vmaddr+i*chainPageSize img := by
        have := List.head?_dropWhile_not (fun f : Fixup => f.addr < seg.vmaddr+i*chainPageSize img) fx
        simpa [hd] using this
      have hmul : (i+1)*chainPageSize img = i*chainPageSize img+chainPageSize img := by ring
      by_cases hin : f.addr < seg.vmaddr+i*chainPageSize img+chainPageSize img
      · have hstart : f.addr-(seg.vmaddr+i*chainPageSize img) ≠ ptrStartNone := by
          simp only [ptrStartNone]
          omega
        have hback : seg.vmaddr+i*chainPageSize img+(f.addr-(seg.vmaddr+i*chainPageSize img)) =
            f.addr := by omega
        have hlen : rest.length < fuel := by
          have := hsuf.length_le
          simp only [List.length_cons] at this
          omega
        have hchain := walk_chain hplain hpage hl hs ha hsuf fuel hlen
        rw [takeWhile_page hpos (hs.sublist hsuf.sublist) (Nat.le_of_not_lt hlo) (by omega)] at hchain
        simp only [hin, if_true, walkPages, hstart, if_false, hback, hchain, Option.bind_eq_bind,
          Option.bind_some, hi]
      · have hnone : (f::rest).takeWhile (fun g => g.addr < seg.vmaddr+(i+1)*chainPageSize img) = [] :=
          List.takeWhile_cons_of_neg (by simp; omega)
        simp only [hin, if_false, walkPages, if_true, hnone, Option.bind_eq_bind, Option.bind_some,
          hi]
        rfl

theorem num_pages (img : Image) {fx : List Fixup} (hpos : 0 < chainPageSize img) (hs : Spaced fx)
    (hlo : ∀ f ∈ fx, seg.vmaddr ≤ f.addr) :
    ∀ f ∈ fx, f.addr < seg.vmaddr+numPages img seg fx*chainPageSize img := by
  intro f hf
  rcases List.eq_nil_or_concat fx with rfl | ⟨init,last,rfl⟩
  · simp at hf
  · rw [List.concat_eq_append] at hs hlo hf ⊢
    have hle : f.addr ≤ last.addr := by
      rw [List.mem_append, List.mem_singleton] at hf
      cases hf with
      | inl hm =>
        have := (List.pairwise_append.1 hs).2.2 f hm last (by simp)
        omega
      | inr he => rw [he]
    have hlast := hlo last (by simp)
    rw [numPages, List.getLast?_append]
    simp only [List.getLast?_singleton, Option.some_or]
    have hdiv := Nat.lt_div_mul_add (a := last.addr+1-seg.vmaddr+chainPageSize img-1) hpos
    omega

/-- The chains from a segment's starts visit its fixups. -/
theorem walk_segment_pages (hplain : img.fixupChainsSection = false)
    (hpage : chainPageSize img = 0x1000 ∨ chainPageSize img = 0x4000) {fx : List Fixup}
    (hl : Linked img imports out seg value fx) (hs : Spaced fx) (ha : ∀ g ∈ fx, g.addr%4 = 0)
    (hlo : ∀ f ∈ fx, seg.vmaddr ≤ f.addr) {fuel : ℕ} (hfuel : fx.length < fuel) :
    walkPages img imports out fuel seg.vmaddr (chainPageSize img) 0
        (pageStarts seg.vmaddr (chainPageSize img) (numPages img seg fx) 0 fx) =
      some (fx.map fun g => (g.addr, value g)) := by
  have hpos : 0 < chainPageSize img := by omega
  have hdrop : fx.dropWhile (fun f => f.addr < seg.vmaddr+0*chainPageSize img) = fx := by
    cases fx with
    | nil => rfl
    | cons f fx =>
      have := hlo f (by simp)
      exact List.dropWhile_cons_of_neg (by simp; omega)
  have htake : fx.takeWhile (fun f => f.addr < seg.vmaddr+(0+numPages img seg fx)*chainPageSize img) =
      fx := by
    rw [List.takeWhile_eq_self_iff]
    intro f hf
    have := num_pages img hpos hs hlo f hf
    simpa using this
  rw [walk_pages hplain hpage hl hs ha hfuel _ _ fx List.suffix_rfl, hdrop, htake]

end Chains

end MoldMacho.ChainedFixups
