import Mathlib.Data.List.Lex
import Mathlib.Data.Prod.Lex
import MoldMacho.Lib.Bytes
import MoldMacho.Lib.Lookup
import MoldMacho.Lib.StableSort
import MoldMacho.Util.Glob.Backtrack
import MoldMacho.Util.Glob.SuffixLinks

/-!
# Sets of glob patterns

Each pattern has a value, and a string that of the largest pattern that matches it.
Patterns that a comparison decides are kept apart, single words are looked for at
once, and what is left is matched one by one or, when there are many, together.
-/

set_option autoImplicit false

namespace MoldMacho.Globs
open MoldMacho.Lookup MoldMacho.StableSort MoldMacho.Wildcards

structure Literal where
  pat : List UInt8
  value : ℤ

structure Glob where
  matchAll : ℤ := -1
  maxValue : ℤ := -1
  exacts : List Literal := []
  prefixes : List Literal := []
  suffixes : List Literal := []
  patterns : List Pattern := []
  ahoCorasick : AhoCorasick := {}
  nfa : Nfa := {}

def isLiteral (pat : List UInt8) : Bool :=
  !pat.any fun c => c == 0x2a || c == 0x3f || c == 0x5b || c == 0x5c

/-- Adds a pattern, and tells whether it is well formed. -/
def Glob.add (glob : Glob) (pat : List UInt8) (value : ℤ) : Glob × Bool :=
  let glob := { glob with maxValue := max glob.maxValue value }
  if pat = [0x2a] then ({ glob with matchAll := max glob.matchAll value },true)
  else if isLiteral pat then ({ glob with exacts := glob.exacts ++ [⟨pat,value⟩] },true)
  else if [0x2a].isSuffixOf pat && isLiteral pat.dropLast then
    ({ glob with prefixes := glob.prefixes ++ [⟨pat.dropLast,value⟩] },true)
  else if [0x2a].isPrefixOf pat && isLiteral (pat.drop 1) then
    ({ glob with suffixes := glob.suffixes ++ [⟨pat.drop 1,value⟩] },true)
  else if AhoCorasick.canHandle pat then
    ({ glob with ahoCorasick := glob.ahoCorasick.add pat value },true)
  else
    match Pattern.compile pat value with
    | some pattern => ({ glob with patterns := glob.patterns ++ [pattern] },true)
    | none => (glob,false)

/-- Adds a string that matches itself alone. -/
def Glob.addLiteral (glob : Glob) (s : List UInt8) (value : ℤ) : Glob :=
  { glob with maxValue := max glob.maxValue value, exacts := glob.exacts ++ [⟨s,value⟩] }

/-- By the string, and the largest value first. -/
def literalKey (literal : Literal) : List ℕ ×ₗ ℤᵒᵈ :=
  toLex (literal.pat.map UInt8.toNat,OrderDual.toDual literal.value)

def Glob.build (glob : Glob) : Glob :=
  if glob.matchAll = glob.maxValue then glob
  else
    let exacts := dedupBy (fun a b => a.pat == b.pat) (sortBy literalKey glob.exacts)
    let many := decide (64 ≤ glob.patterns.length)
    { glob with
      exacts
      nfa := if many then Nfa.compile glob.patterns else glob.nfa
      patterns := if many then [] else glob.patterns
      ahoCorasick := glob.ahoCorasick.compile }

/-- The literal of a sorted list that is the string. -/
def searchLiteral (literals : List Literal) (s : List UInt8) : Option Literal :=
  (literals.find? fun literal => !decide (literal.pat < s)).filter fun literal => literal.pat == s

/-- The value, or that of the literals or patterns that are larger. -/
def raise {α : Type} (value : α → ℤ) (takes : α → Bool) (items : List α) (start : ℤ) : ℤ :=
  items.foldl (fun best item => if best < value item ∧ takes item then value item else best) start

def Glob.find (glob : Glob) (s : List UInt8) : ℤ :=
  let value := glob.matchAll
  if value = glob.maxValue then value
  else
    let value := ((searchLiteral glob.exacts s).map fun l => max value l.value).getD value
    let value := raise Literal.value (fun p => p.pat.isPrefixOf s) glob.prefixes value
    let value := raise Literal.value (fun p => p.pat.isSuffixOf s) glob.suffixes value
    if value = glob.maxValue then value
    else
      let value := max value (glob.ahoCorasick.find s)
      if value = glob.maxValue then value
      else
        let value :=
          if glob.nfa.initialStates.isEmpty then value else max value (glob.nfa.matches s)
        raise Pattern.value (fun p => p.matches s) glob.patterns value

/-! ## What is added -/

inductive Added where
  | pattern (pat : List UInt8) (value : ℤ)
  | literal (s : List UInt8) (value : ℤ)

def Added.value : Added → ℤ
  | .pattern _ value => value
  | .literal _ value => value

/-- A pattern takes what its text matches, and a literal only itself. -/
def Added.Takes : Added → List UInt8 → Prop
  | .pattern pat _, s => TextMatches pat s
  | .literal t _, s => s = t

def Glob.addOne (glob : Glob) : Added → Glob
  | .pattern pat value => (glob.add pat value).1
  | .literal s value => glob.addLiteral s value

/-! ## Literal texts -/

theorem read_letters {word : List UInt8} (h : isLiteral word = true) (rest : List UInt8) :
    readItems (word ++ rest) = (readItems rest).map (letters word ++ ·) := by
  induction word with
  | nil => simp [letters]
  | cons c word ih =>
    simp only [isLiteral, List.any_cons, Bool.not_eq_true', Bool.or_eq_false_iff] at h
    obtain ⟨⟨⟨⟨hstar,hquestion⟩,hbracket⟩,hslash⟩,hword⟩ := h
    rw [List.cons_append, readItems.eq_def]
    dsimp only
    rw [if_neg (by simpa using hbracket), if_neg (by simpa using hquestion),
      if_neg (by simpa using hstar), if_neg (by simpa using hslash),
      ih (by simpa [isLiteral] using hword), Option.map_map]
    rfl

theorem read_star (rest : List UInt8) : readItems (0x2a::rest) = (readItems rest).map (.star::·) := by
  rw [readItems.eq_def]
  rfl

theorem read_nil : readItems [] = some [] := by rw [readItems]

theorem text_matches_literal {pat s : List UInt8} (h : isLiteral pat = true) :
    TextMatches pat s ↔ s = pat := by
  have hread := read_letters h []
  rw [List.append_nil, read_nil, Option.map_some, List.append_nil] at hread
  simp [TextMatches, hread, matches_letters]

theorem text_matches_star (s : List UInt8) : TextMatches [0x2a] s := by
  refine ⟨[.star],?_,matches_star⟩
  rw [read_star, read_nil]
  rfl

theorem matches_letters_star {word s : List UInt8} :
    Matches (letters word ++ [.star]) s ↔ word <+: s := by
  rw [matches_letters_append]
  constructor
  · rintro ⟨rest,rfl,-⟩
    exact List.prefix_append word rest
  · rintro ⟨rest,rfl⟩
    exact ⟨rest,rfl,matches_star⟩

theorem text_matches_start {word s : List UInt8} (h : isLiteral word = true) :
    TextMatches (word ++ [0x2a]) s ↔ word <+: s := by
  have hread : readItems (word ++ [0x2a]) = some (letters word ++ [.star]) := by
    rw [read_letters h, read_star, read_nil]
    rfl
  simp [TextMatches, hread, matches_letters_star]

theorem text_matches_suffix {word s : List UInt8} (h : isLiteral word = true) :
    TextMatches (0x2a::word) s ↔ word <:+ s := by
  have hread : readItems (0x2a::word) = some (.star::letters word) := by
    have hword := read_letters h []
    rw [List.append_nil] at hword
    rw [read_star, hword, read_nil]
    simp
  simp [TextMatches, hread, Matches, matches_letters]

theorem text_matches_within {word s : List UInt8} (h : isLiteral word = true) :
    TextMatches (0x2a::(word ++ [0x2a])) s ↔ word <:+: s := by
  have hread : readItems (0x2a::(word ++ [0x2a])) = some (.star::(letters word ++ [.star])) := by
    rw [read_star, read_letters h, read_star, read_nil]
    rfl
  simp only [TextMatches, hread, Option.some.injEq, exists_eq_left', Matches, matches_letters_star]
  rw [List.infix_iff_prefix_suffix]
  exact exists_congr fun t => and_comm

/-! ## Literals -/

section Literals
variable {literals : List Literal} {s : List UInt8}

theorem find_dedup_from (last : Literal) (literals : List Literal) :
    (last::dedupFrom (fun a b => a.pat == b.pat) last literals).find?
        (fun literal => !decide (literal.pat < s)) =
      (last::literals).find? fun literal => !decide (literal.pat < s) := by
  induction literals generalizing last with
  | nil => rfl
  | cons a literals ih =>
    by_cases hlast : last.pat < s
    · have hskip := ih last
      rw [List.find?_cons_of_neg (by simp [hlast]), List.find?_cons_of_neg (by simp [hlast])] at hskip
      rw [List.find?_cons_of_neg (by simp [hlast]), List.find?_cons_of_neg (by simp [hlast]),
        dedupFrom]
      split
      · next hsame =>
        rw [List.find?_cons_of_neg (by simp [beq_iff_eq.1 hsame, hlast])]
        exact hskip
      · exact ih a
    · rw [List.find?_cons_of_pos (by simp [hlast]), List.find?_cons_of_pos (by simp [hlast])]

theorem search_dedup (literals : List Literal) :
    searchLiteral (dedupBy (fun a b => a.pat == b.pat) literals) s = searchLiteral literals s := by
  cases literals with
  | nil => rfl
  | cons last literals =>
    rw [searchLiteral, searchLiteral]
    exact congrArg _ (find_dedup_from last literals)

theorem key_le {a b : Literal} (h : literalKey a ≤ literalKey b) :
    a.pat < b.pat ∨ (a.pat = b.pat ∧ b.value ≤ a.value) := by
  rcases Prod.Lex.le_iff.1 h with hlt | ⟨heq,hle⟩
  · exact .inl (Bytes.bytes_lt.2 hlt)
  · exact .inr ⟨List.map_injective_iff.2 (fun _ _ h => UInt8.toNat_inj.1 h) heq,hle⟩

/-- The literal found is the one of the largest value that is the string. -/
theorem search_best (literals : List Literal) (s : List UInt8) {value : ℤ} {seen : Set ℤ}
    (h : Best seen value) :
    Best (seen ∪ {v | ∃ l ∈ literals, l.pat = s ∧ l.value = v})
      (((searchLiteral (sortBy literalKey literals) s).map fun l => max value l.value).getD value)
      := by
  have hmem {l : Literal} : l ∈ sortBy literalKey literals ↔ l ∈ literals := mem_sort
  have hsorted := sort_sorted literalKey literals
  cases hfind : (sortBy literalKey literals).find? fun literal => !decide (literal.pat < s) with
  | none =>
    have hnone : {v | ∃ l ∈ literals, l.pat = s ∧ l.value = v} = ∅ := by
      ext v
      refine iff_of_false ?_ (Set.notMem_empty v)
      rintro ⟨l,hl,rfl,-⟩
      have := List.find?_eq_none.1 hfind l (hmem.2 hl)
      simp at this
    rw [searchLiteral, hfind, hnone, Set.union_empty]
    exact h
  | some first =>
    obtain ⟨hfirst,before,after,heq,hbefore⟩ := List.find?_eq_some_iff_append.1 hfind
    rw [heq] at hsorted
    have hafter := (List.pairwise_cons.1 (List.pairwise_append.1 hsorted).2.1).1
    have hcases {l : Literal} (hl : l ∈ literals) (hs : l.pat = s) : l = first ∨ l ∈ after := by
      rw [← hmem, heq] at hl
      rcases List.mem_append.1 hl with hl | hl
      · have hlt := hbefore l hl
        simp only [Bool.not_not, decide_eq_true_eq, hs] at hlt
        exact (List.lt_irrefl s hlt).elim
      · exact List.mem_cons.1 hl
    have hnot : ¬first.pat < s := by simpa using hfirst
    rw [searchLiteral, hfind]
    by_cases hs : first.pat = s
    · have hin : first ∈ literals := hmem.1 (heq ▸ by simp)
      have hbest := (h.add_value first.value).union_of_le
        (b := {v | ∃ l ∈ literals, l.pat = s ∧ l.value = v}) (by
          rintro v ⟨l,hl,hls,rfl⟩
          apply le_max_of_le_right
          rcases hcases hl hls with rfl | hl
          · exact le_rfl
          · rcases key_le (hafter l hl) with hlt | ⟨-,hle⟩
            · rw [hs, hls] at hlt
              exact (List.lt_irrefl _ hlt).elim
            · exact hle)
      have hone : {first.value} ⊆ {v | ∃ l ∈ literals, l.pat = s ∧ l.value = v} :=
        Set.singleton_subset_iff.2 ⟨first,hin,hs,rfl⟩
      rw [Set.union_assoc, Set.union_eq_right.2 hone] at hbest
      rw [Option.filter_some, if_pos (by simp [hs]), Option.map_some, Option.getD_some]
      exact hbest
    · have hnone : {v | ∃ l ∈ literals, l.pat = s ∧ l.value = v} = ∅ := by
        ext v
        refine iff_of_false ?_ (Set.notMem_empty v)
        rintro ⟨l,hl,hls,-⟩
        rcases hcases hl hls with rfl | hl
        · exact hs hls
        · rcases key_le (hafter l hl) with hlt | ⟨heq,-⟩
          · exact hnot (hls ▸ hlt)
          · exact hs (heq.trans hls)
      rw [Option.filter_some, if_neg (by simp [hs]), hnone, Set.union_empty]
      exact h

end Literals

theorem raise_best {α : Type} (value : α → ℤ) (takes : α → Bool) (items : List α) {seen : Set ℤ}
    {start : ℤ} (h : Best seen start) :
    Best (seen ∪ {v | ∃ item ∈ items, takes item = true ∧ value item = v})
      (raise value takes items start) := by
  induction items generalizing seen start with
  | nil => simpa [raise] using h
  | cons item items ih =>
    have hset : {v | ∃ x ∈ item::items, takes x = true ∧ value x = v} =
        {v | takes item = true ∧ value item = v} ∪
          {v | ∃ x ∈ items, takes x = true ∧ value x = v} := by
      ext v
      simp
    rw [hset, ← Set.union_assoc, raise, List.foldl_cons]
    apply ih
    by_cases htakes : takes item = true
    · have hone : {v | takes item = true ∧ value item = v} = {value item} := by
        ext v
        simp [htakes, eq_comm]
      have hmax := h.add_value (value item)
      rw [hone]
      split
      · next hlt => rwa [max_eq_right hlt.1.le] at hmax
      · next hge =>
        rwa [max_eq_left (not_lt.1 fun hlt => hge ⟨hlt,htakes⟩)] at hmax
    · have hnone : {v | takes item = true ∧ value item = v} = ∅ := by
        ext v
        simp [htakes]
      rw [hnone, Set.union_empty, if_neg (by simp [htakes])]
      exact h

/-! ## The parts of a set -/

/-- The values that the parts of a set give a string, `all` those of the patterns that
match every string and `dict` the words. -/
def Found (glob : Glob) (all : Set ℤ) (dict : Set (List UInt8 × ℤ)) (s : List UInt8) (v : ℤ) :
    Prop :=
  v ∈ all ∨ (∃ l ∈ glob.exacts, l.pat = s ∧ l.value = v) ∨
    (∃ l ∈ glob.prefixes, l.pat <+: s ∧ l.value = v) ∨
    (∃ l ∈ glob.suffixes, l.pat <:+ s ∧ l.value = v) ∨
    (∃ u, (u,v) ∈ dict ∧ u <:+: s) ∨
    ∃ p ∈ glob.patterns, Matches (itemsOf p.tokens) s ∧ p.value = v

/-- The set holds what is added to it. -/
structure Glob.Holds (glob : Glob) (adds : List Added) (all : Set ℤ)
    (dict : Set (List UInt8 × ℤ)) : Prop where
  matchAll : Best all glob.matchAll
  maxValue : Best {v | ∃ a ∈ adds, a.value = v} glob.maxValue
  found : ∀ s v, Found glob all dict s v ↔ ∃ a ∈ adds, a.value = v ∧ a.Takes s
  covers : AhoCorasick.Covers glob.ahoCorasick dict
  words : ∀ u v, (u,v) ∈ dict → u ≠ [] ∧ 0 ∉ u
  nfa : glob.nfa = {}

section Build
variable {glob : Glob} {adds : List Added} {all : Set ℤ} {dict : Set (List UInt8 × ℤ)}

theorem holds_empty : Glob.Holds {} [] ∅ ∅ := by
  refine ⟨best_empty,?_,?_,.inl ⟨rfl,rfl⟩,by simp,rfl⟩
  · simpa using best_empty
  · intro s v
    simp [Found]

theorem values_concat (adds : List Added) (a : Added) :
    {v | ∃ x ∈ adds ++ [a], x.value = v} = {v | ∃ x ∈ adds, x.value = v} ∪ {a.value} := by
  ext v
  simp [or_comm, eq_comm]

/-- One more is added: what it takes is found too. -/
theorem Glob.Holds.concat (h : glob.Holds adds all dict) {a : Added} {glob' : Glob}
    {all' : Set ℤ} {dict' : Set (List UInt8 × ℤ)}
    (hmax : glob'.maxValue = max glob.maxValue a.value) (hall : Best all' glob'.matchAll)
    (hfound : ∀ s v, Found glob' all' dict' s v ↔
      Found glob all dict s v ∨ (a.Takes s ∧ a.value = v))
    (hcovers : AhoCorasick.Covers glob'.ahoCorasick dict')
    (hwords : ∀ u v, (u,v) ∈ dict' → u ≠ [] ∧ 0 ∉ u) (hnfa : glob'.nfa = {}) :
    glob'.Holds (adds ++ [a]) all' dict' := by
  refine ⟨hall,?_,?_,hcovers,hwords,hnfa⟩
  · rw [values_concat, hmax]
    exact h.maxValue.add_value a.value
  · intro s v
    rw [hfound, h.found]
    simp [or_and_right, exists_or, and_comm]

theorem Glob.Holds.add_literal (h : glob.Holds adds all dict) (s : List UInt8) (value : ℤ) :
    (glob.addLiteral s value).Holds (adds ++ [.literal s value]) all dict := by
  refine h.concat (a := .literal s value) rfl h.matchAll ?_ h.covers h.words h.nfa
  intro t v
  simp only [Found, Glob.addLiteral, Added.Takes, Added.value, List.mem_append, List.mem_singleton,
    or_and_right, exists_or, exists_eq_left, eq_comm (a := t)]
  exact iff_of_eq (by ac_rfl)

/-- The words that a search for one word finds, and the anchored ones, of a pattern
that but for its stars is a word. -/
theorem can_handle {pat : List UInt8} (h : AhoCorasick.canHandle pat = true)
    (hopen : ([0x2a].isSuffixOf pat && isLiteral pat.dropLast) = false)
    (hsuffix : ([0x2a].isPrefixOf pat && isLiteral (pat.drop 1)) = false)
    (hliteral : isLiteral pat = false) :
    ∃ word, pat = 0x2a::(word ++ [0x2a]) ∧ isLiteral word = true ∧ word ≠ [] := by
  unfold AhoCorasick.canHandle at h
  dsimp only at h
  rw [Bool.and_eq_true, Bool.not_eq_true', List.isEmpty_eq_false_iff] at h
  obtain ⟨hne,hword⟩ := h
  by_cases hstart : [0x2a].isPrefixOf pat = true
  · obtain ⟨rest,rfl⟩ := List.isPrefixOf_iff_prefix.1 hstart
    rw [hstart, Bool.true_and] at hsuffix
    rw [if_pos hstart] at hne hword
    by_cases hend : [0x2a].isSuffixOf rest = true
    · obtain ⟨word,rfl⟩ := List.isSuffixOf_iff_suffix.1 hend
      rw [show List.drop 1 ([0x2a] ++ (word ++ [0x2a])) = word ++ [0x2a] from rfl, if_pos hend,
        List.dropLast_concat] at hne hword
      exact ⟨word,rfl,hword,hne⟩
    · rw [show List.drop 1 ([0x2a] ++ rest) = rest from rfl, if_neg hend] at hword
      exact (Bool.false_ne_true (hsuffix.symm.trans hword)).elim
  · rw [if_neg hstart] at hword
    by_cases hend : [0x2a].isSuffixOf pat = true
    · rw [if_pos hend] at hword
      rw [hend, Bool.true_and] at hopen
      exact (Bool.false_ne_true (hopen.symm.trans hword)).elim
    · rw [if_neg hend] at hword
      exact (Bool.false_ne_true (hliteral.symm.trans hword)).elim

/-- A word between stars is looked for as it is. -/
theorem anchored_word {word : List UInt8} (h : isLiteral word = true) :
    AhoCorasick.anchored (0x2a::(word ++ [0x2a])) = word := by
  have hfilter : word.filter (· != 0x2a) = word := by
    rw [List.filter_eq_self]
    intro c hc
    simp only [isLiteral, Bool.not_eq_true', List.any_eq_false] at h
    have hnot := h c hc
    simp only [Bool.or_eq_true, beq_iff_eq, not_or] at hnot
    simp [hnot.1.1.1]
  have hstart : [0x2a].isPrefixOf (0x2a::(word ++ [0x2a])) = true := by simp
  have hend : [0x2a].isSuffixOf (0x2a::(word ++ [0x2a])) = true :=
    List.isSuffixOf_iff_suffix.2 ⟨0x2a::word,rfl⟩
  rw [AhoCorasick.anchored, if_pos hstart, if_pos hend, List.filter_cons_of_neg (by simp),
    List.filter_append, hfilter]
  simp

theorem compile_takes (pat : List UInt8) (value : ℤ) :
    (∃ p, Pattern.compile pat value = some p ∧ p.value = value ∧
        ∀ s, TextMatches pat s ↔ Matches (itemsOf p.tokens) s) ∨
      (Pattern.compile pat value = none ∧ readItems pat = none) := by
  have h := compile_from_items [] pat
  unfold Pattern.compile
  cases hcompiled : compileFrom [] pat with
  | none =>
    rw [hcompiled] at h
    cases hread : readItems pat with
    | none => exact .inr ⟨rfl,rfl⟩
    | some items =>
      rw [hread] at h
      cases h
  | some tokens =>
    rw [hcompiled] at h
    cases hread : readItems pat with
    | none =>
      rw [hread] at h
      cases h
    | some items =>
      rw [hread] at h
      cases h with
      | some hsame =>
        refine .inl ⟨{ tokens, value },rfl,rfl,fun s => ?_⟩
        simp only [TextMatches, hread, Option.some.injEq, exists_eq_left']
        exact (hsame s).symm

theorem Glob.Holds.add (h : glob.Holds adds all dict) {pat : List UInt8} (value : ℤ)
    (hnul : 0 ∉ pat) :
    ∃ all' dict', (glob.add pat value).1.Holds (adds ++ [.pattern pat value]) all' dict' := by
  unfold Glob.add
  dsimp only
  split
  · next hall =>
    refine ⟨insert value all,dict,h.concat (a := .pattern pat value) rfl ?_ ?_ h.covers h.words h.nfa⟩
    · have hbest := h.matchAll.add_value value
      rwa [Set.union_singleton] at hbest
    · intro s v
      simp only [Found, Added.Takes, Added.value, Set.mem_insert_iff, hall, text_matches_star,
        true_and, eq_comm (a := v)]
      exact iff_of_eq (by ac_rfl)
  split
  · next hliteral =>
    refine ⟨all,dict,h.concat (a := .pattern pat value) rfl h.matchAll ?_ h.covers h.words h.nfa⟩
    intro s v
    simp only [Found, Added.Takes, Added.value, List.mem_append, List.mem_singleton, or_and_right,
      exists_or, exists_eq_left, text_matches_literal hliteral, eq_comm (a := s)]
    exact iff_of_eq (by ac_rfl)
  split
  · next hstart =>
    rw [Bool.and_eq_true] at hstart
    obtain ⟨word,rfl⟩ := List.isSuffixOf_iff_suffix.1 hstart.1
    rw [List.dropLast_concat] at hstart ⊢
    refine ⟨all,dict,h.concat (a := .pattern _ value) rfl h.matchAll ?_ h.covers h.words
      h.nfa⟩
    intro s v
    simp only [Found, Added.Takes, Added.value, List.mem_append, List.mem_singleton, or_and_right,
      exists_or, exists_eq_left, text_matches_start hstart.2]
    exact iff_of_eq (by ac_rfl)
  split
  · next hsuffix =>
    rw [Bool.and_eq_true] at hsuffix
    obtain ⟨word,rfl⟩ := List.isPrefixOf_iff_prefix.1 hsuffix.1
    have hword : List.drop 1 ([0x2a] ++ word) = word := rfl
    rw [hword] at hsuffix ⊢
    refine ⟨all,dict,h.concat (a := .pattern _ value) rfl h.matchAll ?_ h.covers h.words
      h.nfa⟩
    intro s v
    simp only [Found, Added.Takes, Added.value, List.mem_append, List.mem_singleton, or_and_right,
      exists_or, exists_eq_left, List.singleton_append, text_matches_suffix hsuffix.2]
    exact iff_of_eq (by ac_rfl)
  split
  · next hliteral hstart hsuffix hhandle =>
    obtain ⟨word,rfl,hword,hne⟩ := can_handle hhandle (by simpa using hstart)
      (by simpa using hsuffix) (by simpa using hliteral)
    have hcovers := AhoCorasick.add_covers h.covers (by rwa [anchored_word hword] :
      AhoCorasick.anchored (0x2a::(word ++ [0x2a])) ≠ []) value
    rw [anchored_word hword] at hcovers
    refine ⟨all,insert (word,value) dict,h.concat (a := .pattern _ value) rfl h.matchAll ?_
      hcovers ?_ h.nfa⟩
    · intro s v
      simp only [Found, Added.Takes, Added.value, text_matches_within hword, Set.mem_insert_iff,
        Prod.mk.injEq, or_and_right, exists_or, and_assoc, exists_eq_left, eq_comm (a := v),
        and_comm (a := value = v)]
      exact iff_of_eq (by ac_rfl)
    · intro u v huv
      rcases Set.mem_insert_iff.1 huv with heq | huv
      · obtain ⟨rfl,-⟩ := Prod.mk.inj heq
        refine ⟨hne,?_⟩
        intro hmem
        exact hnul (by simp [hmem])
      · exact h.words u v huv
  · obtain ⟨p,hcompile,hp,htakes⟩ | ⟨hcompile,hread⟩ := compile_takes pat value
    · rw [hcompile]
      refine ⟨all,dict,h.concat (a := .pattern pat value) rfl h.matchAll ?_ h.covers h.words
        h.nfa⟩
      intro s v
      simp only [Found, Added.Takes, Added.value, List.mem_append, List.mem_singleton,
        or_and_right, exists_or, exists_eq_left, htakes, hp]
      exact iff_of_eq (by ac_rfl)
    · rw [hcompile]
      refine ⟨all,dict,h.concat (a := .pattern pat value) rfl h.matchAll ?_ h.covers h.words
        h.nfa⟩
      intro s v
      have hnone : ¬TextMatches pat s := by
        rintro ⟨items,hitems,-⟩
        cases hread.symm.trans hitems
      simp only [Found, Added.Takes, hnone, false_and, or_false]

theorem holds_adds (adds : List Added)
    (hnul : ∀ pat value, .pattern pat value ∈ adds → 0 ∉ pat) :
    ∃ all dict, (adds.foldl Glob.addOne {}).Holds adds all dict := by
  induction adds using List.reverseRecOn with
  | nil => exact ⟨∅,∅,holds_empty⟩
  | append_singleton adds a ih =>
    obtain ⟨all,dict,h⟩ := ih fun pat value hmem => hnul pat value (by simp [hmem])
    rw [List.foldl_append]
    cases a with
    | pattern pat value => exact h.add value (hnul pat value (by simp))
    | literal s value => exact ⟨all,dict,h.add_literal s value⟩

/-- The marks at a string's ends are in no word. -/
theorem within_marked {u s : List UInt8} (hne : u ≠ []) (hnul : 0 ∉ u) :
    u <:+: 0::(s ++ [0]) ↔ u <:+: s := by
  constructor
  · intro h
    rcases List.infix_cons_iff.1 h with hstart | h
    · obtain ⟨c,u,rfl⟩ := List.exists_cons_of_ne_nil hne
      obtain rfl := (List.cons_prefix_cons.1 hstart).1
      exact (hnul (by simp)).elim
    · rcases List.infix_concat_iff.1 h with hsuffix | h
      · rcases LongestSuffix.suffix_concat_iff.1 hsuffix with hnil | ⟨v,rfl,-⟩
        · exact (hne hnil).elim
        · exact (hnul (by simp)).elim
      · exact h
  · intro h
    exact h.trans ⟨[0],[0],rfl⟩

/-- Built, the set gives a string the largest value of what takes it. -/
theorem Glob.Holds.find_best (h : glob.Holds adds all dict) (s : List UInt8) :
    Best {v | ∃ a ∈ adds, a.value = v ∧ a.Takes s} (glob.build.find s) := by
  have hfound : {v | ∃ a ∈ adds, a.value = v ∧ a.Takes s} = {v | Found glob all dict s v} := by
    ext v
    exact (h.found s v).symm
  have hle : ∀ v ∈ {v | Found glob all dict s v}, v ≤ glob.maxValue := by
    intro v hv
    obtain ⟨a,ha,hvalue,-⟩ := (h.found s v).1 hv
    exact h.maxValue.2 (.inr ⟨a,ha,hvalue⟩)
  have hexit {part : Set ℤ} {value : ℤ} (hbest : Best part value)
      (hpart : part ⊆ {v | Found glob all dict s v}) (hmax : value = glob.maxValue) :
      Best {v | Found glob all dict s v} value := hbest.of_subset hpart (hmax ▸ hle)
  rw [hfound]
  by_cases hall : glob.matchAll = glob.maxValue
  · rw [Glob.build, if_pos hall, Glob.find]
    dsimp only
    rw [if_pos hall]
    exact hexit h.matchAll (fun v hv => .inl hv) hall
  rw [Glob.build, if_neg hall, Glob.find]
  dsimp only
  rw [if_neg hall, search_dedup]
  have hexact := search_best glob.exacts s h.matchAll
  have hstarts := raise_best Literal.value (fun p => p.pat.isPrefixOf s) glob.prefixes hexact
  have hends := raise_best Literal.value (fun p => p.pat.isSuffixOf s) glob.suffixes hstarts
  have hcompared : all ∪ {v | ∃ l ∈ glob.exacts, l.pat = s ∧ l.value = v} ∪
      {v | ∃ l ∈ glob.prefixes, l.pat.isPrefixOf s = true ∧ l.value = v} ∪
      {v | ∃ l ∈ glob.suffixes, l.pat.isSuffixOf s = true ∧ l.value = v} =
      {v | v ∈ all ∨ (∃ l ∈ glob.exacts, l.pat = s ∧ l.value = v) ∨
        (∃ l ∈ glob.prefixes, l.pat <+: s ∧ l.value = v) ∨
        ∃ l ∈ glob.suffixes, l.pat <:+ s ∧ l.value = v} := by
    ext v
    simp only [Set.mem_union, Set.mem_ofPred_eq, List.isPrefixOf_iff_prefix,
      List.isSuffixOf_iff_suffix, or_assoc]
  rw [hcompared] at hends
  split
  · next hmax =>
    apply hexit hends _ hmax
    rintro v (hv | hv | hv | hv)
    · exact .inl hv
    · exact .inr (.inl hv)
    · exact .inr (.inr (.inl hv))
    · exact .inr (.inr (.inr (.inl hv)))
  have hwords := hends.union (AhoCorasick.find_best h.covers s)
  have hwithin : {v | ∃ u, (u,v) ∈ dict ∧ u <:+: 0::(s ++ [0])} =
      {v | ∃ u, (u,v) ∈ dict ∧ u <:+: s} := by
    ext v
    apply exists_congr
    intro u
    apply and_congr_right
    intro hu
    exact within_marked (h.words u v hu).1 (h.words u v hu).2
  rw [hwithin] at hwords
  split
  · next hmax =>
    apply hexit hwords _ hmax
    rintro v ((hv | hv | hv | hv) | hv)
    · exact .inl hv
    · exact .inr (.inl hv)
    · exact .inr (.inr (.inl hv))
    · exact .inr (.inr (.inr (.inl hv)))
    · exact .inr (.inr (.inr (.inr (.inl hv))))
  have hparts {values : Set ℤ}
      (hvalues : values = {v | ∃ p ∈ glob.patterns, Matches (itemsOf p.tokens) s ∧ p.value = v}) :
      {v | v ∈ all ∨ (∃ l ∈ glob.exacts, l.pat = s ∧ l.value = v) ∨
        (∃ l ∈ glob.prefixes, l.pat <+: s ∧ l.value = v) ∨
        ∃ l ∈ glob.suffixes, l.pat <:+ s ∧ l.value = v} ∪
      {v | ∃ u, (u,v) ∈ dict ∧ u <:+: s} ∪ values = {v | Found glob all dict s v} := by
    ext v
    rw [hvalues]
    simp only [Set.mem_union, Set.mem_ofPred_eq, Found, or_assoc]
  by_cases hmany : 64 ≤ glob.patterns.length
  · have hne : glob.patterns ≠ [] := by
      rintro hnil
      rw [hnil] at hmany
      cases hmany
    have htogether := hwords.union (Nfa.matches_best glob.patterns s)
    rw [hparts (by ext v; simp only [and_comm])] at htogether
    simp only [hmany, decide_true, if_true, compile_nonempty hne]
    exact htogether
  · have hsingly := raise_best Pattern.value (fun p => p.matches s) glob.patterns hwords
    rw [hparts (by ext v; simp only [Pattern.matches_iff])] at hsingly
    simp only [hmany, decide_false, h.nfa]
    exact hsingly

end Build

/-! ## A set of patterns -/

/-- A set gives a string the largest value of the patterns that match it, and -1 if none
does, however each is matched. -/
theorem find_greatest (adds : List Added)
    (hnul : ∀ pat value, .pattern pat value ∈ adds → 0 ∉ pat) (s : List UInt8) :
    IsGreatest (insert (-1) {v | ∃ a ∈ adds, a.value = v ∧ a.Takes s})
      ((adds.foldl Glob.addOne {}).build.find s) := by
  obtain ⟨all,dict,h⟩ := holds_adds adds hnul
  exact h.find_best s

/-- `*oba*` and `f*r` with the larger value, in `foobar`. -/
theorem find_greatest_foobar :
    IsGreatest (insert (-1) {v | ∃ a ∈ [Added.pattern [0x2a,0x6f,0x62,0x61,0x2a] 1,
        .pattern [0x66,0x2a,0x72] 2], a.value = v ∧ a.Takes [0x66,0x6f,0x6f,0x62,0x61,0x72]})
      (([Added.pattern [0x2a,0x6f,0x62,0x61,0x2a] 1,.pattern [0x66,0x2a,0x72] 2].foldl
        Glob.addOne {}).build.find [0x66,0x6f,0x6f,0x62,0x61,0x72]) :=
  find_greatest _ (by
    intro pat value h
    simp only [List.mem_cons, List.not_mem_nil, or_false, Added.pattern.injEq] at h
    obtain ⟨rfl,-⟩ | ⟨rfl,-⟩ := h <;> decide) _

end MoldMacho.Globs
