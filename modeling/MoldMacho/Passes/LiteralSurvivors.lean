import Mathlib.Algebra.Divisibility.Basic
import MoldMacho.Passes.MergeLiterals
import Mathlib.Data.List.Nodup

/-!
# The literals left after merging

Of the literals that merge, each resolves to the most aligned copy of its bytes
in sections of its section's name and type, the first of equals, and wherever
that one is placed is aligned as each of them is.
-/

set_option autoImplicit false

namespace MoldMacho.MergeLiterals
open MoldMacho.InputSections (InputSection)
open MoldMacho.Links MoldMacho.OutputSectionNames MoldMacho.Replacements MoldMacho.Symbols

/-! ## Merging a bin -/

section Shard
variable (isecs : List InputSection)

/-- What the copies of a group agree on. -/
def mergeKey (lit : Literal) : ℕ × List UInt8 × List UInt8 × UInt32 × List UInt8 :=
  (lit.hash,lit.hdr.rawSegname,lit.hdr.rawSectname,lit.hdr.sectionType,contents isecs lit.i)

theorem same_iff (lit other : Literal) :
    same isecs lit other = true ↔ mergeKey isecs other = mergeKey isecs lit := by
  simp only [same, mergeKey, Bool.and_eq_true, beq_iff_eq, Prod.mk.injEq, and_assoc]

/-- A literal that no copy of it is more aligned than, nor as aligned and
earlier. -/
def Best (lits : List Literal) (w : Literal) : Prop :=
  w ∈ lits ∧ ∀ x ∈ lits, mergeKey isecs x = mergeKey isecs w →
    p2align isecs x.i < p2align isecs w.i ∨ p2align isecs x.i = p2align isecs w.i ∧ w.i ≤ x.i

/-- The groups of the literals gone through. -/
structure Merged (lits : List Literal) (shard : Shard) : Prop where
  length : shard.best.length = shard.table.length
  groups : ∀ (g : ℕ) e, shard.table[g]? = some e → e.2 = g
  covers : ∀ lit ∈ lits, ∃ e ∈ shard.table, mergeKey isecs e.1 = mergeKey isecs lit
  apart : ∀ e ∈ shard.table, ∀ e' ∈ shard.table,
    mergeKey isecs e.1 = mergeKey isecs e'.1 → e = e'
  best : ∀ e ∈ shard.table, ∃ w, shard.best[e.2]? = some w.i ∧ Best isecs lits w ∧
    mergeKey isecs w = mergeKey isecs e.1
  losers : ∀ i g, (i,g) ∈ shard.losers ↔ ∃ lit ∈ lits, lit.i = i ∧ ∃ e ∈ shard.table, e.2 = g ∧
    mergeKey isecs e.1 = mergeKey isecs lit ∧ shard.best[g]? ≠ some i

variable {isecs} {lits : List Literal} {shard : Shard} {lit w : Literal}

theorem Best.append (h : Best isecs lits w)
    (hlit : mergeKey isecs lit = mergeKey isecs w →
      p2align isecs lit.i ≤ p2align isecs w.i ∧ w.i < lit.i) : Best isecs (lits ++ [lit]) w := by
  refine ⟨List.mem_append_left _ h.1,fun x hx hkey => ?_⟩
  rcases List.mem_append.mp hx with hx | hx
  · exact h.2 x hx hkey
  · obtain rfl := List.mem_singleton.mp hx
    obtain ⟨hle,hlt⟩ := hlit hkey
    rcases Nat.lt_or_eq_of_le hle with hle | heq
    · exact .inl hle
    · exact .inr ⟨heq,hlt.le⟩

theorem Merged.group_inj (h : Merged isecs lits shard) {e e' : Literal × ℕ} (he : e ∈ shard.table)
    (he' : e' ∈ shard.table) (hg : e.2 = e'.2) : e = e' := by
  obtain ⟨g,hget⟩ := List.mem_iff_getElem?.mp he
  obtain ⟨g',hget'⟩ := List.mem_iff_getElem?.mp he'
  have hgg : g = g' := by rw [← h.groups g e hget, ← h.groups g' e' hget', hg]
  rw [hgg, hget'] at hget
  exact (Option.some.inj hget).symm

theorem Merged.group_lt (h : Merged isecs lits shard) {e : Literal × ℕ} (he : e ∈ shard.table) :
    e.2 < shard.table.length := by
  obtain ⟨g,hget⟩ := List.mem_iff_getElem?.mp he
  rw [h.groups g e hget]
  exact (List.getElem?_eq_some_iff.mp hget).1

section Step
variable (h : Merged isecs lits shard) (hlt : ∀ x ∈ lits, x.i < lit.i)
include h hlt

/-- A copy of a group that is there beats its winner, or loses to it. -/
theorem merged_found {e : Literal × ℕ} (he : e ∈ shard.table)
    (hkey : mergeKey isecs e.1 = mergeKey isecs lit) :
    let winner := shard.best.getD e.2 0
    Merged isecs (lits ++ [lit])
      (if p2align isecs winner < p2align isecs lit.i then
        { shard with
          best := shard.best.set e.2 lit.i
          losers := shard.losers ++ [(winner,e.2)] }
      else { shard with losers := shard.losers ++ [(lit.i,e.2)] }) := by
  obtain ⟨w,hget,hbest,hw⟩ := h.best e he
  have hwinner : shard.best.getD e.2 0 = w.i := by rw [List.getD_eq_getElem?_getD, hget]; rfl
  have hwlt : w.i < lit.i := hlt w hbest.1
  have hglt : e.2 < shard.best.length := h.length ▸ h.group_lt he
  have hcovers : ∀ x ∈ lits ++ [lit], ∃ e ∈ shard.table, mergeKey isecs e.1 = mergeKey isecs x := by
    intro x hx
    rcases List.mem_append.mp hx with hx | hx
    · exact h.covers x hx
    · obtain rfl := List.mem_singleton.mp hx
      exact ⟨e,he,hkey⟩
  have hsame {e' : Literal × ℕ} (he' : e' ∈ shard.table)
      (hk : mergeKey isecs e'.1 = mergeKey isecs lit) : e' = e :=
    h.apart e' he' e he (hk.trans hkey.symm)
  dsimp only
  rw [hwinner]
  split
  · next hmore =>
    have hother {e' : Literal × ℕ} (he' : e' ∈ shard.table) (hne : e' ≠ e) :
        (shard.best.set e.2 lit.i)[e'.2]? = shard.best[e'.2]? :=
      List.getElem?_set_ne fun hg => hne (h.group_inj he he' hg).symm
    have hself : (shard.best.set e.2 lit.i)[e.2]? = some lit.i := List.getElem?_set_self hglt
    refine ⟨by rw [List.length_set, h.length],h.groups,hcovers,h.apart,fun e' he' => ?_,
      fun i g => ?_⟩
    · by_cases hee : e' = e
      · subst hee
        refine ⟨lit,hself,⟨by simp,fun x hx hx' => ?_⟩,hkey.symm⟩
        rcases List.mem_append.mp hx with hx | hx
        · left
          rcases hbest.2 x hx (hx'.trans (hkey.symm.trans hw.symm)) with hlt | heq
          · exact hlt.trans hmore
          · exact heq.1 ▸ hmore
        · obtain rfl := List.mem_singleton.mp hx
          exact .inr ⟨rfl,Nat.le_refl _⟩
      · obtain ⟨w',hget',hbest',hw'⟩ := h.best e' he'
        refine ⟨w',(hother he' hee).trans hget',hbest'.append fun hk => ?_,hw'⟩
        exact absurd (hsame he' (hw'.symm.trans hk.symm)) hee
    · simp only [List.mem_append, List.mem_singleton, Prod.mk.injEq, h.losers]
      constructor
      · rintro (⟨x,hx,rfl,e',he',rfl,hk,hne⟩ | ⟨rfl,rfl⟩)
        · refine ⟨x,.inl hx,rfl,e',he',rfl,hk,fun hsome => ?_⟩
          by_cases hee : e' = e
          · subst hee
            rw [hself] at hsome
            exact absurd (Option.some.inj hsome) (hlt x hx).ne'
          · exact hne ((hother he' hee).symm.trans hsome)
        · refine ⟨w,.inl hbest.1,rfl,e,he,rfl,hw.symm,fun hsome => ?_⟩
          rw [hself] at hsome
          exact absurd (Option.some.inj hsome) hwlt.ne'
      · rintro ⟨x,hx | rfl,rfl,e',he',rfl,hk,hne⟩
        · by_cases hee : e' = e
          · subst hee
            by_cases hxw : x.i = w.i
            · exact .inr ⟨hxw,rfl⟩
            · refine .inl ⟨x,hx,rfl,e',he',rfl,hk,fun hsome => hxw ?_⟩
              rw [hget] at hsome
              exact (Option.some.inj hsome).symm
          · rw [hother he' hee] at hne
            exact .inl ⟨x,hx,rfl,e',he',rfl,hk,hne⟩
        · obtain rfl := hsame he' hk
          exact absurd hself hne
  · next hless =>
    refine ⟨h.length,h.groups,hcovers,h.apart,fun e' he' => ?_,fun i g => ?_⟩
    · obtain ⟨w',hget',hbest',hw'⟩ := h.best e' he'
      refine ⟨w',hget',hbest'.append fun hk => ?_,hw'⟩
      obtain rfl := hsame he' (hw'.symm.trans hk.symm)
      rw [hget] at hget'
      rw [← Option.some.inj hget']
      exact ⟨Nat.le_of_not_lt hless,hwlt⟩
    · simp only [List.mem_append, List.mem_singleton, Prod.mk.injEq, h.losers]
      constructor
      · rintro (⟨x,hx,rfl,e',he',rfl,hk,hne⟩ | ⟨rfl,rfl⟩)
        · exact ⟨x,.inl hx,rfl,e',he',rfl,hk,hne⟩
        · refine ⟨lit,.inr rfl,rfl,e,he,rfl,hkey,fun hsome => ?_⟩
          rw [hget] at hsome
          exact absurd (Option.some.inj hsome) hwlt.ne
      · rintro ⟨x,hx | rfl,rfl,e',he',rfl,hk,hne⟩
        · exact .inl ⟨x,hx,rfl,e',he',rfl,hk,hne⟩
        · obtain rfl := hsame he' hk
          exact .inr ⟨rfl,rfl⟩

/-- A copy of no group yet starts one. -/
theorem merged_new (hnew : ∀ e ∈ shard.table, mergeKey isecs e.1 ≠ mergeKey isecs lit) :
    Merged isecs (lits ++ [lit])
      { shard with
        table := shard.table ++ [(lit,shard.best.length)]
        best := shard.best ++ [lit.i] } := by
  have hold {e : Literal × ℕ} (he : e ∈ shard.table) :
      (shard.best ++ [lit.i])[e.2]? = shard.best[e.2]? :=
    List.getElem?_append_left (h.length ▸ h.group_lt he)
  have hself : (shard.best ++ [lit.i])[shard.best.length]? = some lit.i := List.getElem?_concat_length
  refine ⟨by simp [h.length],fun g e hget => ?_,fun x hx => ?_,fun e he e' he' hk => ?_,
    fun e he => ?_,fun i g => ?_⟩
  · rw [List.getElem?_append] at hget
    split at hget
    · exact h.groups g e hget
    · next hg =>
      rw [List.getElem?_singleton] at hget
      split at hget
      · next hzero =>
        rw [← Option.some.inj hget, h.length]
        omega
      · cases hget
  · rcases List.mem_append.mp hx with hx | hx
    · obtain ⟨e,he,hk⟩ := h.covers x hx
      exact ⟨e,List.mem_append_left _ he,hk⟩
    · obtain rfl := List.mem_singleton.mp hx
      exact ⟨_,List.mem_append_right _ (List.mem_singleton.mpr rfl),rfl⟩
  · rcases List.mem_append.mp he with he | he <;> rcases List.mem_append.mp he' with he' | he'
    · exact h.apart e he e' he' hk
    · obtain rfl := List.mem_singleton.mp he'
      exact absurd hk (hnew e he)
    · obtain rfl := List.mem_singleton.mp he
      exact absurd hk.symm (hnew e' he')
    · rw [List.mem_singleton.mp he, List.mem_singleton.mp he']
  · rcases List.mem_append.mp he with he | he
    · obtain ⟨w,hget,hbest,hw⟩ := h.best e he
      refine ⟨w,(hold he).trans hget,hbest.append fun hk => ?_,hw⟩
      exact absurd (hw.symm.trans hk.symm) (hnew e he)
    · obtain rfl := List.mem_singleton.mp he
      refine ⟨lit,hself,⟨by simp,fun x hx hk => ?_⟩,rfl⟩
      rcases List.mem_append.mp hx with hx | hx
      · obtain ⟨e,he,hk'⟩ := h.covers x hx
        exact absurd (hk'.trans hk) (hnew e he)
      · obtain rfl := List.mem_singleton.mp hx
        exact .inr ⟨rfl,Nat.le_refl _⟩
  · simp only [h.losers]
    constructor
    · rintro ⟨x,hx,rfl,e,he,rfl,hk,hne⟩
      exact ⟨x,List.mem_append_left _ hx,rfl,e,List.mem_append_left _ he,rfl,hk,hold he ▸ hne⟩
    · rintro ⟨x,hx,rfl,e,hmem,rfl,hk,hne⟩
      rcases List.mem_append.mp hmem with he | he
      · rcases List.mem_append.mp hx with hx | hx
        · exact ⟨x,hx,rfl,e,he,rfl,hk,hold he ▸ hne⟩
        · obtain rfl := List.mem_singleton.mp hx
          exact absurd hk (hnew e he)
      · obtain rfl := List.mem_singleton.mp he
        rcases List.mem_append.mp hx with hx | hx
        · obtain ⟨e,he,hk'⟩ := h.covers x hx
          exact absurd (hk'.trans hk.symm) (hnew e he)
        · obtain rfl := List.mem_singleton.mp hx
          exact absurd hself hne

theorem merged_step : Merged isecs (lits ++ [lit]) (mergeLiteral isecs shard lit) := by
  unfold mergeLiteral
  cases hfind : shard.table.find? fun e => same isecs lit e.1 with
  | none =>
    refine merged_new h hlt fun e he hk => ?_
    have hnone := List.find?_eq_none.mp hfind e he
    exact hnone ((same_iff isecs lit e.1).mpr hk)
  | some e =>
    have hsame : same isecs lit e.1 = true :=
      List.find?_some (p := fun e : Literal × ℕ => same isecs lit e.1) hfind
    have hkey := (same_iff isecs lit e.1).mp hsame
    exact merged_found h hlt (List.mem_of_find?_eq_some hfind) hkey

end Step

theorem merged_shard (isecs : List InputSection) (hlits : lits.Pairwise fun a b => a.i < b.i) :
    Merged isecs lits (lits.foldl (mergeLiteral isecs) {}) := by
  induction lits using List.reverseRecOn with
  | nil => exact ⟨rfl,by simp,by simp,by simp,by simp,by simp⟩
  | append_singleton lits lit ih =>
    rw [List.foldl_append]
    obtain ⟨hlits,-,hlt⟩ := List.pairwise_append.mp hlits
    exact merged_step (ih hlits) fun x hx => hlt x hx lit (List.mem_singleton.mpr rfl)

theorem Best.unique {w' : Literal} (h : Best isecs lits w) (h' : Best isecs lits w')
    (hkey : mergeKey isecs w = mergeKey isecs w') : w.i = w'.i := by
  rcases h.2 w' h'.1 hkey.symm with hlt | ⟨heq,hle⟩
  · rcases h'.2 w h.1 hkey with hlt' | ⟨heq',-⟩
    · exact absurd hlt (Nat.lt_asymm hlt')
    · exact absurd heq' hlt.ne'
  · rcases h'.2 w h.1 hkey with hlt' | ⟨-,hle'⟩
    · exact absurd heq hlt'.ne'
    · exact Nat.le_antisymm hle hle'

theorem exists_best (hlits : lits.Pairwise fun a b => a.i < b.i) (hlit : lit ∈ lits) :
    ∃ win, Best isecs lits win ∧ mergeKey isecs win = mergeKey isecs lit := by
  have h := merged_shard isecs hlits
  obtain ⟨e,he,hk⟩ := h.covers lit hlit
  obtain ⟨win,-,hbest,hwin⟩ := h.best e he
  exact ⟨win,hbest,hwin.trans hk⟩

/-- What loses, and to what. -/
def Loses (isecs : List InputSection) (lits : List Literal) (l w : ℕ) : Prop :=
  ∃ lit ∈ lits, lit.i = l ∧ ∃ win, Best isecs lits win ∧ mergeKey isecs win = mergeKey isecs lit ∧
    win.i = w ∧ l ≠ w

theorem mem_merge_shard (hlits : lits.Pairwise fun a b => a.i < b.i) (l w : ℕ) :
    (l,w) ∈ mergeShard isecs lits ↔ Loses isecs lits l w := by
  have h := merged_shard isecs hlits
  simp only [mergeShard, List.mem_map, Prod.exists, Prod.mk.injEq]
  constructor
  · rintro ⟨i,g,hmem,rfl,rfl⟩
    obtain ⟨lit,hlit,rfl,e,he,rfl,hk,hne⟩ := (h.losers i g).mp hmem
    obtain ⟨win,hget,hbest,hwin⟩ := h.best e he
    refine ⟨lit,hlit,rfl,win,hbest,hwin.trans hk,?_,?_⟩
    · rw [List.getD_eq_getElem?_getD, hget, Option.getD_some]
    · rw [List.getD_eq_getElem?_getD, hget, Option.getD_some]
      exact fun heq => hne (hget.trans (congrArg some heq.symm))
  · rintro ⟨lit,hlit,rfl,win,hbest,hwin,rfl,hne⟩
    obtain ⟨e,he,hk⟩ := h.covers lit hlit
    obtain ⟨win',hget,hbest',hwin'⟩ := h.best e he
    have hi : win.i = win'.i := hbest.unique hbest' (hwin.trans (hk.symm.trans hwin'.symm))
    refine ⟨lit.i,e.2,(h.losers _ _).mpr ⟨lit,hlit,rfl,e,he,rfl,hk,?_⟩,rfl,?_⟩
    · rw [hget, ← hi]
      exact fun heq => hne (Option.some.inj heq).symm
    · rw [List.getD_eq_getElem?_getD, hget, Option.getD_some, hi]

/-- Copies are in one bin, so a bin tells what a literal loses to. -/
theorem best_filter {p : Literal → Bool}
    (hp : ∀ x y, mergeKey isecs x = mergeKey isecs y → p x = p y) (hw : p w = true) :
    Best isecs (lits.filter p) w ↔ Best isecs lits w := by
  simp only [Best, List.mem_filter]
  constructor
  · rintro ⟨⟨hmem,-⟩,h⟩
    exact ⟨hmem,fun x hx hk => h x ⟨hx,(hp x w hk).trans hw⟩ hk⟩
  · rintro ⟨hmem,h⟩
    exact ⟨⟨hmem,hw⟩,fun x hx hk => h x hx.1 hk⟩

end Shard

/-! ## The folds -/

section Folds
variable (ctx : Context) (hash : List UInt8 → ℕ) (isecs : List InputSection)

theorem mem_literals {lit : Literal} :
    lit ∈ literals ctx hash isecs ↔ ∃ isec, isecs[lit.i]? = some isec ∧ isec.isEmitted = true ∧
      isec.isLabeled = false ∧ isMergeableLiteral (ctx.hdr isec) isec = true ∧
      lit.hash = hash isec.contents ∧ lit.hdr = ctx.hdr isec := by
  simp only [literals, List.mem_filterMap, Prod.exists, List.mem_zipIdx_iff_getElem?]
  constructor
  · rintro ⟨isec,i,hget,hlit⟩
    split at hlit
    · next hif =>
      obtain rfl := Option.some.inj hlit
      simp only [Bool.and_eq_true, Bool.not_eq_true'] at hif
      exact ⟨isec,hget,hif.1.1,hif.1.2,hif.2,rfl,rfl⟩
    · cases hlit
  · rintro ⟨isec,hget,hemit,hlabel,hmerge,hhash,hhdr⟩
    refine ⟨isec,lit.i,hget,?_⟩
    rw [if_pos (by simp [hemit, hlabel, hmerge])]
    cases lit
    simp only at hhash hhdr
    rw [hhash, hhdr]

theorem literals_ordered : (literals ctx hash isecs).Pairwise fun a b => a.i < b.i := by
  have hidx : isecs.zipIdx.Pairwise fun a b => a.2 < b.2 := by
    rw [List.pairwise_iff_getElem]
    intro i j hi hj hij
    simpa using hij
  refine hidx.filterMap _ fun a b hab x hx y hy => ?_
  have hplace {a : InputSection × ℕ} {x : Literal}
      (hx : (if a.1.isEmitted && !a.1.isLabeled && isMergeableLiteral (ctx.hdr a.1) a.1 then
        some { hash := hash a.1.contents, hdr := ctx.hdr a.1, i := a.2 } else none) = some x) :
      x.i = a.2 := by
    split at hx
    · rw [← Option.some.inj hx]
    · cases hx
  rw [hplace hx, hplace hy]
  exact hab

theorem mem_folds (l w : ℕ) :
    (l,w) ∈ folds ctx hash isecs ↔ Loses isecs (literals ctx hash isecs) l w := by
  have hbin (shard : ℕ) (x y : Literal) (hk : mergeKey isecs x = mergeKey isecs y) :
      (x.hash % numShards == shard) = (y.hash % numShards == shard) := by
    have hhash : x.hash = y.hash := congrArg Prod.fst hk
    rw [hhash]
  have hordered (shard : ℕ) := (literals_ordered ctx hash isecs).filter
    fun lit => lit.hash % numShards == shard
  simp only [folds, List.mem_flatMap, List.mem_range, mem_merge_shard (hordered _)]
  constructor
  · rintro ⟨shard,-,lit,hlit,rfl,win,hbest,hk,rfl,hne⟩
    obtain ⟨hmem,hshard⟩ := List.mem_filter.mp hlit
    have hwin := (hbin shard win lit hk).trans hshard
    exact ⟨lit,hmem,rfl,win,(best_filter (hbin shard) hwin).mp hbest,hk,rfl,hne⟩
  · rintro ⟨lit,hlit,rfl,win,hbest,hk,rfl,hne⟩
    have hself : (lit.hash % numShards == lit.hash % numShards) = true := beq_self_eq_true _
    have hwin := (hbin (lit.hash % numShards) win lit hk).trans hself
    exact ⟨lit.hash % numShards,Nat.mod_lt _ (by decide),lit,List.mem_filter.mpr ⟨hlit,hself⟩,rfl,win,
      (best_filter (hbin _) hwin).mpr hbest,hk,rfl,hne⟩

end Folds

/-! ## The alignment -/

theorem find_low_bit {m t : ℕ} (h : (List.range 64).find? m.testBit = some t) : 2^t ∣ m := by
  have hlow := List.find?_range_eq_some.mp h
  apply Nat.dvd_of_mod_eq_zero
  apply Nat.eq_of_testBit_eq
  intro k
  rw [Nat.testBit_mod_two_pow, Nat.zero_testBit]
  by_cases hk : k < t
  · simpa using fun _ => hlow.2.2 k hk
  · simp [hk]

/-- Wherever a subsection may start is as aligned as it was in its object. -/
theorem p2align_dvd_offset {isec : InputSection} (h : isec.p2align < 64) (off : ℕ) :
    2^(isec.p2alignAt isec.inputAddr) ∣ isec.alignOffset off := by
  have hpos : 0 < 2^isec.p2align := Nat.two_pow_pos _
  have halign := Align.align_to_dvd hpos
  rw [InputSection.p2alignAt, InputSection.alignOffset, Nat.mod_eq_of_lt h]
  cases hrecord : isec.isRecord with
  | true => simpa using halign off
  | false =>
    simp only [Bool.false_or, Bool.false_eq_true, if_false, beq_iff_eq]
    have hoff {d : ℕ} (hd : d ∣ 2^isec.p2align) (hm : d ∣ isec.inputAddr % 2^isec.p2align) :
        d ∣ Align.alignToMod off (2^isec.p2align) (isec.inputAddr % 2^isec.p2align) := by
      rw [Align.alignToMod]
      split
      · exact hm
      · exact Nat.dvd_add (hd.trans (halign _)) hm
    split
    · next hzero =>
      exact hoff (Nat.dvd_refl _) (hzero ▸ Nat.dvd_zero _)
    · next hzero =>
      obtain ⟨t,ht,hbit⟩ := InputSections.find_bit hzero (Nat.mod_lt _ hpos) h.le
      rw [hbit]
      exact hoff (Nat.pow_dvd_pow 2 ht.le) (find_low_bit hbit)

/-! ## The survivors -/

section Survivors
variable (ctx : Context)

/-- A literal that takes part in the merge. -/
def IsLiteral (i : ℕ) : Prop :=
  ∃ isec, (markLabeledLiterals ctx)[i]? = some isec ∧ isec.isEmitted = true ∧
    isec.isLabeled = false ∧ isMergeableLiteral (ctx.hdr isec) isec = true

/-- Two subsections of the same bytes, of sections of the same name and type. -/
def Copies (i j : ℕ) : Prop :=
  ∃ a b, ctx.isecs[i]? = some a ∧ ctx.isecs[j]? = some b ∧ a.contents = b.contents ∧
    (ctx.hdr a).rawSegname = (ctx.hdr b).rawSegname ∧
    (ctx.hdr a).rawSectname = (ctx.hdr b).rawSectname ∧
    (ctx.hdr a).sectionType = (ctx.hdr b).sectionType

def NamedCopies (i j : ℕ) : Prop :=
  ∃ a b, ctx.isecs[i]? = some a ∧ ctx.isecs[j]? = some b ∧ a.contents = b.contents ∧
    (ctx.hdr a).segname = (ctx.hdr b).segname ∧ (ctx.hdr a).sectname = (ctx.hdr b).sectname ∧
    (ctx.hdr a).sectionType = (ctx.hdr b).sectionType

/-- The headers' names fill their fields with nulls. -/
def NamesPadded : Prop :=
  ∀ isec ∈ ctx.isecs, NulPadded (ctx.hdr isec).rawSegname ∧ NulPadded (ctx.hdr isec).rawSectname

/-- Which literal stands for another after the merge. -/
structure Survivor (isecs : List InputSection) (i s : ℕ) : Prop where
  literal : IsLiteral ctx s
  copy : Copies ctx i s
  resolves : ∀ fuel, resolve isecs (fuel+2) i = some s
  kept : replacementOf isecs s = none
  greatest : ∀ j, IsLiteral ctx j → Copies ctx i j →
    p2align ctx.isecs j < p2align ctx.isecs s ∨ p2align ctx.isecs j = p2align ctx.isecs s ∧ s ≤ j
  aligned : ∀ isec, isecs[s]? = some isec → ∀ off j, IsLiteral ctx j → Copies ctx i j →
    2^p2align ctx.isecs j ∣ isec.alignOffset off

variable {ctx} (hash : List UInt8 → ℕ)

theorem marked_get {i : ℕ} {isec : InputSection} (h : (markLabeledLiterals ctx)[i]? = some isec) :
    ∃ old, ctx.isecs[i]? = some old ∧ isec = { old with isLabeled := isec.isLabeled } := by
  rw [markLabeledLiterals, List.getElem?_mapIdx] at h
  obtain ⟨old,hold,rfl⟩ := Option.map_eq_some_iff.mp h
  exact ⟨old,hold,rfl⟩

theorem marked_p2align (i : ℕ) : p2align (markLabeledLiterals ctx) i = p2align ctx.isecs i := by
  rw [p2align, p2align, markLabeledLiterals, List.getElem?_mapIdx, Option.map_map]
  rfl

theorem marked_replacement (i : ℕ) :
    replacementOf (markLabeledLiterals ctx) i = replacementOf ctx.isecs i := by
  rw [replacementOf, replacementOf, markLabeledLiterals, List.getElem?_mapIdx]
  cases ctx.isecs[i]? with
  | none => rfl
  | some isec => rfl

/-- The literal of a subsection that takes part. -/
theorem literal_of {i : ℕ} (h : IsLiteral ctx i) :
    ∃ lit ∈ literals ctx hash (markLabeledLiterals ctx), lit.i = i := by
  obtain ⟨isec,hget,hemit,hlabel,hmerge⟩ := h
  exact ⟨⟨hash isec.contents,ctx.hdr isec,i⟩,
    (mem_literals ctx hash _).mpr ⟨isec,hget,hemit,hlabel,hmerge,rfl,rfl⟩,rfl⟩

theorem literal_is {lit : Literal} (h : lit ∈ literals ctx hash (markLabeledLiterals ctx)) :
    IsLiteral ctx lit.i := by
  obtain ⟨isec,hget,hemit,hlabel,hmerge,-⟩ := (mem_literals ctx hash _).mp h
  exact ⟨isec,hget,hemit,hlabel,hmerge⟩

/-- Literals of one key are copies. -/
theorem key_copies {lit other : Literal} (h : lit ∈ literals ctx hash (markLabeledLiterals ctx))
    (h' : other ∈ literals ctx hash (markLabeledLiterals ctx)) :
    mergeKey (markLabeledLiterals ctx) lit = mergeKey (markLabeledLiterals ctx) other ↔
      Copies ctx lit.i other.i := by
  obtain ⟨a,hget,-,-,-,hhash,hhdr⟩ := (mem_literals ctx hash _).mp h
  obtain ⟨b,hget',-,-,-,hhash',hhdr'⟩ := (mem_literals ctx hash _).mp h'
  obtain ⟨a',ha,haeq⟩ := marked_get hget
  obtain ⟨b',hb,hbeq⟩ := marked_get hget'
  have hac : a.contents = a'.contents := by rw [haeq]
  have hbc : b.contents = b'.contents := by rw [hbeq]
  have hah : ctx.hdr a = ctx.hdr a' := by rw [haeq]; rfl
  have hbh : ctx.hdr b = ctx.hdr b' := by rw [hbeq]; rfl
  have hget1 : contents (markLabeledLiterals ctx) lit.i = a.contents := by
    rw [contents, hget, Option.map_some, Option.getD_some]
  have hget2 : contents (markLabeledLiterals ctx) other.i = b.contents := by
    rw [contents, hget', Option.map_some, Option.getD_some]
  simp only [mergeKey, Prod.mk.injEq, hget1, hget2, hhash, hhash', hhdr, hhdr', hac, hbc, hah, hbh]
  constructor
  · rintro ⟨-,hseg,hsect,htype,hbytes⟩
    exact ⟨a',b',ha,hb,hbytes,hseg,hsect,htype⟩
  · rintro ⟨a'',b'',ha',hb',hbytes,hseg,hsect,htype⟩
    rw [ha] at ha'
    rw [hb] at hb'
    obtain rfl := Option.some.inj ha'
    obtain rfl := Option.some.inj hb'
    exact ⟨by rw [hbytes],hseg,hsect,htype,hbytes⟩

theorem literal_unique {lit other : Literal} (h : lit ∈ literals ctx hash (markLabeledLiterals ctx))
    (h' : other ∈ literals ctx hash (markLabeledLiterals ctx)) (hi : lit.i = other.i) : lit = other := by
  obtain ⟨a,hget,-,-,-,hhash,hhdr⟩ := (mem_literals ctx hash _).mp h
  obtain ⟨b,hget',-,-,-,hhash',hhdr'⟩ := (mem_literals ctx hash _).mp h'
  rw [hi, hget'] at hget
  obtain rfl := Option.some.inj hget
  cases lit
  cases other
  simp only at hi hhash hhdr hhash' hhdr'
  rw [hi, hhash, hhdr, hhash', hhdr']

theorem loses_once {l w w' : ℕ}
    (h : Loses (markLabeledLiterals ctx) (literals ctx hash (markLabeledLiterals ctx)) l w)
    (h' : Loses (markLabeledLiterals ctx) (literals ctx hash (markLabeledLiterals ctx)) l w') :
    w = w' := by
  obtain ⟨lit,hlit,hl,win,hbest,hk,rfl,-⟩ := h
  obtain ⟨lit',hlit',hl',win',hbest',hk',rfl,-⟩ := h'
  obtain rfl := literal_unique hash hlit hlit' (hl.trans hl'.symm)
  exact hbest.unique hbest' (hk.trans hk'.symm)

theorem best_kept {win : Literal} {w : ℕ}
    (h : Best (markLabeledLiterals ctx) (literals ctx hash (markLabeledLiterals ctx)) win) :
    ¬ Loses (markLabeledLiterals ctx) (literals ctx hash (markLabeledLiterals ctx)) win.i w := by
  rintro ⟨lit,hlit,hi,win',hbest',hk,rfl,hne⟩
  obtain rfl := literal_unique hash hlit h.1 hi
  exact hne (h.unique hbest' hk.symm)

/-- What the merge makes of the replacements. -/
theorem merged_replacement (i : ℕ) :
    (∃ w, Loses (markLabeledLiterals ctx) (literals ctx hash (markLabeledLiterals ctx)) i w ∧
      replacementOf (mergedSections ctx hash) i = some w) ∨
    (∀ w, ¬ Loses (markLabeledLiterals ctx) (literals ctx hash (markLabeledLiterals ctx)) i w) ∧
      replacementOf (mergedSections ctx hash) i = replacementOf ctx.isecs i := by
  by_cases hloses : ∃ w, Loses (markLabeledLiterals ctx)
      (literals ctx hash (markLabeledLiterals ctx)) i w
  · obtain ⟨w,hw⟩ := hloses
    refine .inl ⟨w,hw,?_⟩
    have hlt : i < (markLabeledLiterals ctx).length := by
      obtain ⟨lit,hlit,rfl,-⟩ := hw
      obtain ⟨isec,hget,-⟩ := (mem_literals ctx hash _).mp hlit
      exact (List.getElem?_eq_some_iff.mp hget).1
    refine replaces_at hlt ((mem_folds ctx hash _ i w).mpr hw) ?_
    rintro ⟨l,w'⟩ hf rfl
    exact loses_once hash ((mem_folds ctx hash _ l w').mp hf) hw
  · refine .inr ⟨fun w hw => hloses ⟨w,hw⟩,?_⟩
    rw [← marked_replacement]
    refine replaces_frame ?_
    rintro ⟨l,w⟩ hf rfl
    exact hloses ⟨w,(mem_folds ctx hash _ l w).mp hf⟩

theorem literal_root {i : ℕ} (h : IsLiteral ctx i) : replacementOf ctx.isecs i = none := by
  obtain ⟨isec,hget,hemit,-⟩ := h
  rw [← marked_replacement, replacementOf, hget, Option.bind_some]
  simp only [InputSection.isEmitted, Bool.and_eq_true, Option.isNone_iff_eq_none] at hemit
  exact hemit.2

theorem best_root {win : Literal}
    (h : Best (markLabeledLiterals ctx) (literals ctx hash (markLabeledLiterals ctx)) win) :
    replacementOf (mergedSections ctx hash) win.i = none := by
  rcases merged_replacement hash win.i with ⟨w,hloses,-⟩ | ⟨-,hsame⟩
  · exact absurd hloses (best_kept hash h)
  · exact hsame.trans (literal_root (literal_is hash h.1))

theorem literal_survivor (hshift : ∀ isec ∈ ctx.isecs, isec.p2align < 64) {i : ℕ}
    (h : IsLiteral ctx i) : ∃ s, Survivor ctx (mergedSections ctx hash) i s := by
  obtain ⟨lit,hlit,rfl⟩ := literal_of hash h
  obtain ⟨win,hbest,hkey⟩ := exists_best (literals_ordered ctx hash (markLabeledLiterals ctx)) hlit
  have hroot := best_root hash hbest
  have hgreatest : ∀ j, IsLiteral ctx j → Copies ctx lit.i j →
      p2align ctx.isecs j < p2align ctx.isecs win.i ∨
        p2align ctx.isecs j = p2align ctx.isecs win.i ∧ win.i ≤ j := by
    intro j hj hcopy
    obtain ⟨x,hx,rfl⟩ := literal_of hash hj
    have hk := (key_copies hash hlit hx).mpr hcopy
    have hle := hbest.2 x hx (hk.symm.trans hkey.symm)
    rwa [marked_p2align, marked_p2align] at hle
  refine ⟨win.i,literal_is hash hbest.1,(key_copies hash hlit hbest.1).mp hkey.symm,fun fuel => ?_,
    hroot,hgreatest,fun isec hget off j hj hcopy => ?_⟩
  · rcases merged_replacement hash lit.i with ⟨w,hloses,hw⟩ | ⟨hkept,hsame⟩
    · have hwin : w = win.i := by
        obtain ⟨lit',hlit',hi,win',hbest',hk',rfl,-⟩ := hloses
        obtain rfl := literal_unique hash hlit' hlit hi
        exact hbest'.unique hbest (hk'.trans hkey.symm)
      rw [resolve, follow, hw]
      dsimp only
      rw [hwin, follow, hroot]
    · have hself : lit.i = win.i := by
        by_contra hne
        exact hkept win.i ⟨lit,hlit,rfl,win,hbest,hkey,rfl,hne⟩
      rw [resolve, follow, hsame, literal_root h, hself]
  · obtain ⟨marked,hmarked,heq⟩ := replaces_get _ _ hget
    obtain ⟨old,hold,heq'⟩ := marked_get hmarked
    have hoff : isec.alignOffset off = old.alignOffset off := by rw [heq, heq']; rfl
    have hp : p2align ctx.isecs win.i = old.p2alignAt old.inputAddr := by
      rw [p2align, hold, Option.map_some, Option.getD_some]
    have hdvd := p2align_dvd_offset (hshift old (List.mem_of_getElem? hold)) off
    rw [← hp, ← hoff] at hdvd
    refine (Nat.pow_dvd_pow 2 ?_).trans hdvd
    rcases hgreatest j hj hcopy with hlt | ⟨heq,-⟩
    · exact hlt.le
    · exact heq.le

/-- Fields compare as the names do. -/
theorem padded_inj {a b : List UInt8} (h : NulPadded a) (h' : NulPadded b) :
    a = b ↔ nameToBytes a = nameToBytes b := by
  refine ⟨congrArg nameToBytes,fun heq => ?_⟩
  rw [h, h', heq]

theorem copies_by_name (h : NamesPadded ctx) {i j : ℕ} : Copies ctx i j ↔ NamedCopies ctx i j := by
  refine exists_congr fun a => exists_congr fun b => and_congr_right fun ha =>
    and_congr_right fun hb => and_congr_right fun _ => ?_
  obtain ⟨hseg,hsect⟩ := h a (List.mem_of_getElem? ha)
  obtain ⟨hseg',hsect'⟩ := h b (List.mem_of_getElem? hb)
  rw [padded_inj hseg hseg', padded_inj hsect hsect']
  rfl

theorem Copies.symm {i j : ℕ} (h : Copies ctx i j) : Copies ctx j i := by
  obtain ⟨a,b,ha,hb,hbytes,hseg,hsect,htype⟩ := h
  exact ⟨b,a,hb,ha,hbytes.symm,hseg.symm,hsect.symm,htype.symm⟩

theorem Copies.trans {i j k : ℕ} (h : Copies ctx i j) (h' : Copies ctx j k) : Copies ctx i k := by
  obtain ⟨a,b,ha,hb,hbytes,hseg,hsect,htype⟩ := h
  obtain ⟨b',c,hb',hc,hbytes',hseg',hsect',htype'⟩ := h'
  rw [hb] at hb'
  obtain rfl := Option.some.inj hb'
  exact ⟨a,c,ha,hc,hbytes.trans hbytes',hseg.trans hseg',hsect.trans hsect',htype.trans htype'⟩

theorem survivors_same {isecs : List InputSection} {i j s t : ℕ} (hs : Survivor ctx isecs i s)
    (ht : Survivor ctx isecs j t) : s = t ↔ Copies ctx i j := by
  constructor
  · rintro rfl
    exact hs.copy.trans ht.copy.symm
  · intro hcopy
    have hle := hs.greatest t ht.literal (hcopy.trans ht.copy)
    have hle' := ht.greatest s hs.literal (hcopy.symm.trans hs.copy)
    rcases hle with hlt | ⟨heq,hle⟩
    · rcases hle' with hlt' | ⟨heq',-⟩
      · exact absurd hlt (Nat.lt_asymm hlt')
      · exact absurd heq' hlt.ne'
    · rcases hle' with hlt' | ⟨-,hle'⟩
      · exact absurd heq hlt'.ne'
      · exact Nat.le_antisymm hle hle'

theorem merged_forest (h : Forest (replacementOf ctx.isecs)) :
    Forest (replacementOf (mergedSections ctx hash)) := by
  refine h.extend fun i => ?_
  rcases merged_replacement hash i with ⟨w,hloses,hw⟩ | ⟨-,hsame⟩
  · obtain ⟨lit,hlit,rfl,win,hbest,-,rfl,-⟩ := hloses
    exact .inr ⟨literal_root (literal_is hash hlit),win.i,hw,best_root hash hbest⟩
  · exact .inl hsame

/-- The merge returns, and every literal then resolves to the one survivor of
its copies: those of the same bytes whose sections have the same names, in
fields of sixteen bytes, and type. -/
theorem merge_literals_survivors (hshift : ∀ isec ∈ ctx.isecs, isec.p2align < 64) :
    (Forest (replacementOf ctx.isecs) →
      ∃ fuel, ∀ more, (mergeLiterals ctx hash (fuel+more)).isSome = true) ∧
    ∀ fuel after, mergeLiterals ctx hash fuel = some after →
      (∀ i, IsLiteral ctx i → ∃ s, Survivor ctx after.isecs i s) ∧
      ∀ i j s t, IsLiteral ctx i → IsLiteral ctx j → resolve after.isecs 2 i = some s →
        resolve after.isecs 2 j = some t →
        (s = t ↔ Copies ctx i j) ∧ (NamesPadded ctx → (s = t ↔ NamedCopies ctx i j)) := by
  constructor
  · intro hforest
    obtain ⟨fuel,hfuel⟩ := redirect_returns (merged_forest hash hforest) ctx.syms
      ctx.symbols.names.length
    refine ⟨fuel,fun more => ?_⟩
    obtain ⟨syms,hsyms,-⟩ := hfuel more
    rw [mergeLiterals, hsyms]
    rfl
  · intro fuel after hafter
    have hisecs : after.isecs = mergedSections ctx hash := by
      obtain ⟨syms,-,rfl⟩ := Option.map_eq_some_iff.mp hafter
      rfl
    rw [hisecs]
    refine ⟨fun i hi => literal_survivor hash hshift hi,fun i j s t hi hj hs ht => ?_⟩
    obtain ⟨s',hs'⟩ := literal_survivor hash hshift hi
    obtain ⟨t',ht'⟩ := literal_survivor hash hshift hj
    have hss := (hs'.resolves 0).symm.trans hs
    have htt := (ht'.resolves 0).symm.trans ht
    rw [← Option.some.inj hss, ← Option.some.inj htt]
    have hsame := survivors_same hs' ht'
    exact ⟨hsame,fun hpadded => hsame.trans (copies_by_name hpadded)⟩

/-- Copies of a string at odd and at aligned addresses, in three objects, and
another string. -/
def repeatedStrings : Context where
  sectHdrs _ _ :=
    { rawSectname := nameField (Chunks.bytes "__cstring")
      rawSegname := nameField (Chunks.bytes "__TEXT"), flags := sCstringLiterals }
  isecs := [{ file := 0, p2align := 4, inputAddr := 8, contents := [97,0] },
    { file := 1, p2align := 4, inputAddr := 32, contents := [97,0] },
    { file := 2, p2align := 4, inputAddr := 16, contents := [97,0] },
    { file := 2, p2align := 4, inputAddr := 32, contents := [98,0] }]
  symbols := .empty
  syms _ := {}

theorem merge_literals_survivors_repeated :
    ∃ after, mergeLiterals repeatedStrings List.length 0 = some after ∧
      (∃ s, Survivor repeatedStrings after.isecs 0 s) ∧ NamedCopies repeatedStrings 0 2 ∧
        ¬ NamedCopies repeatedStrings 2 3 := by
  refine ⟨_,rfl,?_⟩
  have hshift : ∀ isec ∈ repeatedStrings.isecs, isec.p2align < 64 := by decide
  have hpadded : NamesPadded repeatedStrings := fun _ _ => ⟨rfl,rfl⟩
  have hliteral : ∀ i < 4, IsLiteral repeatedStrings i := by
    intro i hi
    match i, hi with
    | 0, _ => exact ⟨_,rfl,rfl,rfl,by decide⟩
    | 1, _ => exact ⟨_,rfl,rfl,rfl,by decide⟩
    | 2, _ => exact ⟨_,rfl,rfl,rfl,by decide⟩
    | 3, _ => exact ⟨_,rfl,rfl,rfl,by decide⟩
  obtain ⟨hsurvivor,hsame⟩ := (merge_literals_survivors List.length hshift).2 0 _ rfl
  refine ⟨hsurvivor 0 (hliteral 0 (by decide)),?_,?_⟩
  · exact ((hsame 0 2 1 1 (hliteral 0 (by decide)) (hliteral 2 (by decide)) (by decide +kernel)
      (by decide +kernel)).2 hpadded).1 rfl
  · intro h
    have := ((hsame 2 3 1 3 (hliteral 2 (by decide)) (hliteral 3 (by decide)) (by decide +kernel)
      (by decide +kernel)).2 hpadded).2 h
    cases this

end Survivors

end MoldMacho.MergeLiterals
