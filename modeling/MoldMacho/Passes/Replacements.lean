import Mathlib.Data.Finset.Lattice.Fold
import MoldMacho.InputSections
import MoldMacho.Lib.Links
import MoldMacho.Symbol

/-!
# Replaced subsections

A subsection may be replaced by another that stands for it, which may be
replaced in turn. The symbols of a replaced one move to the last.
-/

set_option autoImplicit false

namespace MoldMacho.Replacements
open MoldMacho.InputSections (InputSection)
open MoldMacho.Links MoldMacho.Symbols

def replacementOf (isecs : List InputSection) (i : ℕ) : Option ℕ :=
  isecs[i]?.bind InputSection.replacement

/-- Follows the replacements of a subsection, so many at most. -/
def resolve (isecs : List InputSection) (fuel i : ℕ) : Option ℕ := follow (replacementOf isecs) fuel i

/-- Follows the replacements of a subsection: as many as there are subsections, if
they end. -/
def resolveTo (isecs : List InputSection) (i : ℕ) : ℕ :=
  (resolve isecs (isecs.length+1) i).getD i

theorem resolve_to_eq {isecs : List InputSection} {i r : ℕ}
    (h : Ends (replacementOf isecs) i r) : resolveTo isecs i = r := by
  have hlinks : ∀ i j, replacementOf isecs i = some j → i < isecs.length := by
    intro i j hij
    obtain ⟨isec,hisec,-⟩ := Option.bind_eq_some_iff.1 hij
    exact (List.getElem?_eq_some_iff.1 hisec).1
  rw [resolveTo, resolve, follow_bound hlinks h]
  rfl

theorem resolve_to_ends {isecs : List InputSection} (h : Forest (replacementOf isecs)) (i : ℕ) :
    Ends (replacementOf isecs) i (resolveTo isecs i) := by
  obtain ⟨r,hr⟩ := h i
  rw [resolve_to_eq hr]
  exact hr

def replace (isecs : List InputSection) (loser winner : ℕ) : List InputSection :=
  isecs.modify loser fun isec => { isec with replacement := some winner }

/-- Points a symbol of a replaced subsection at the one that stands for it. -/
def redirectSymbol (isecs : List InputSection) (fuel : ℕ) (sym : Symbol) : Option Symbol :=
  match sym.inputSection with
  | some i => (resolve isecs fuel i).map fun r => { sym with inputSection := some r }
  | none => some sym

/-- Redirects the symbols, if their replacements end. -/
def redirectSymbolsToReplacements (isecs : List InputSection) (fuel count : ℕ)
    (syms : SymbolId → Symbol) : Option (SymbolId → Symbol) :=
  if (List.range count).all fun id => (redirectSymbol isecs fuel (syms id)).isSome then
    some fun id => (redirectSymbol isecs fuel (syms id)).getD (syms id)
  else none

section Replace
variable {isecs : List InputSection} {fs : List (ℕ × ℕ)}

theorem replacement_replace (isecs : List InputSection) (l w i : ℕ) :
    replacementOf (replace isecs l w) i =
      if l = i ∧ i < isecs.length then some w else replacementOf isecs i := by
  rw [replacementOf, replacementOf, replace, List.getElem?_modify]
  by_cases hl : l = i
  · subst hl
    by_cases hlt : l < isecs.length
    · simp [hlt]
    · simp [hlt]
  · simp [hl]

theorem replace_length (isecs : List InputSection) (l w : ℕ) :
    (replace isecs l w).length = isecs.length := by
  rw [replace, List.length_modify]

/-- Nothing of a subsection but its replacement changes. -/
theorem replace_get (isecs : List InputSection) (l w : ℕ) {i : ℕ} {isec : InputSection}
    (h : (replace isecs l w)[i]? = some isec) :
    ∃ old, isecs[i]? = some old ∧ isec = { old with replacement := isec.replacement } := by
  rw [replace, List.getElem?_modify] at h
  obtain ⟨old,hold,rfl⟩ := Option.map_eq_some_iff.mp h
  refine ⟨old,hold,?_⟩
  split <;> rfl

theorem replaces_get (fs : List (ℕ × ℕ)) (isecs : List InputSection) {i : ℕ} {isec : InputSection}
    (h : (fs.foldl (fun isecs f => replace isecs f.1 f.2) isecs)[i]? = some isec) :
    ∃ old, isecs[i]? = some old ∧ isec = { old with replacement := isec.replacement } := by
  induction fs generalizing isecs with
  | nil => exact ⟨isec,h,rfl⟩
  | cons f fs ih =>
    obtain ⟨mid,hmid,heq⟩ := ih (replace isecs f.1 f.2) h
    obtain ⟨old,hold,heq'⟩ := replace_get isecs f.1 f.2 hmid
    refine ⟨old,hold,?_⟩
    rw [heq, heq']

theorem replaces_frame {i : ℕ} (h : ∀ f ∈ fs, f.1 ≠ i) :
    replacementOf (fs.foldl (fun isecs f => replace isecs f.1 f.2) isecs) i = replacementOf isecs i := by
  induction fs generalizing isecs with
  | nil => rfl
  | cons f fs ih =>
    rw [List.foldl_cons, ih fun f' hf' => h f' (List.mem_cons_of_mem _ hf'), replacement_replace,
      if_neg fun hi => h f List.mem_cons_self hi.1]

theorem replaces_at {i w : ℕ} (hlt : i < isecs.length) (hmem : (i,w) ∈ fs)
    (h : ∀ f ∈ fs, f.1 = i → f.2 = w) :
    replacementOf (fs.foldl (fun isecs f => replace isecs f.1 f.2) isecs) i = some w := by
  induction fs generalizing isecs with
  | nil => cases hmem
  | cons f fs ih =>
    rw [List.foldl_cons]
    have hrest : ∀ f' ∈ fs, f'.1 = i → f'.2 = w := fun f' hf' => h f' (List.mem_cons_of_mem _ hf')
    by_cases hin : (i,w) ∈ fs
    · exact ih (by rwa [replace_length]) hin hrest
    · have hf : f = (i,w) := (List.mem_cons.mp hmem).resolve_right hin |>.symm
      have hnone : ∀ f' ∈ fs, f'.1 ≠ i := by
        rintro ⟨i',w'⟩ hf' rfl
        obtain rfl : w' = w := hrest _ hf' rfl
        exact hin hf'
      rw [replaces_frame hnone, replacement_replace, hf, if_pos ⟨rfl,hlt⟩]

theorem replacement_link (isecs : List InputSection) (l w : ℕ) :
    replacementOf (replace isecs l w) =
      if l < isecs.length then Function.update (replacementOf isecs) l (some w)
      else replacementOf isecs := by
  funext i
  rw [replacement_replace]
  by_cases hl : l = i
  · subst hl
    split
    · next h => rw [if_pos h.2, Function.update_self]
    · next h => rw [if_neg fun hlt => h ⟨rfl,hlt⟩]
  · rw [if_neg fun h => hl h.1]
    split
    · rw [Function.update_of_ne (Ne.symm hl)]
    · rfl

end Replace

section Redirect
variable {isecs : List InputSection}

theorem redirect_symbol {fuel s r : ℕ} {sym : Symbol} (hs : sym.inputSection = some s)
    (hr : resolve isecs fuel s = some r) :
    redirectSymbol isecs fuel sym = some { sym with inputSection := some r } := by
  rw [redirectSymbol, hs]
  dsimp only
  rw [hr, Option.map_some]

/-- Where the replacements end, the redirection returns. -/
theorem redirect_returns (h : Forest (replacementOf isecs)) (syms : SymbolId → Symbol) (count : ℕ) :
    ∃ fuel, ∀ more, ∃ after,
      redirectSymbolsToReplacements isecs (fuel+more) count syms = some after ∧
      ∀ id < count, ∀ s r, (syms id).inputSection = some s → Ends (replacementOf isecs) s r →
        after id = { syms id with inputSection := some r } := by
  have hone (id : SymbolId) : ∃ fuel, ∀ more,
      (redirectSymbol isecs (fuel+more) (syms id)).isSome = true ∧
      ∀ s r, (syms id).inputSection = some s → Ends (replacementOf isecs) s r →
        redirectSymbol isecs (fuel+more) (syms id) = some { syms id with inputSection := some r } := by
    cases hi : (syms id).inputSection with
    | none =>
      refine ⟨0,fun more => ⟨?_,fun _ _ hs => nomatch hs⟩⟩
      rw [redirectSymbol, hi]
      rfl
    | some i =>
      obtain ⟨r,hr⟩ := h i
      obtain ⟨fuel,hfuel⟩ := hr.follow
      refine ⟨fuel,fun more => ?_⟩
      have heq := redirect_symbol hi (hfuel more)
      refine ⟨by rw [heq]; rfl,fun s r' hs hr' => ?_⟩
      obtain rfl := Option.some.inj hs
      rw [heq, hr.unique hr']
  choose fuel hfuel using hone
  refine ⟨(Finset.range count).sup fuel,fun more => ?_⟩
  have hmore (id : SymbolId) (hid : id < count) :
      ∃ rest, (Finset.range count).sup fuel + more = fuel id + rest := by
    have hle : fuel id ≤ (Finset.range count).sup fuel := Finset.le_sup (Finset.mem_range.mpr hid)
    obtain ⟨rest,hrest⟩ := Nat.le.dest (hle.trans (Nat.le_add_right _ more))
    exact ⟨rest,hrest.symm⟩
  have hall : ((List.range count).all fun id =>
      (redirectSymbol isecs ((Finset.range count).sup fuel + more) (syms id)).isSome) = true := by
    rw [List.all_eq_true]
    intro id hid
    obtain ⟨rest,hrest⟩ := hmore id (List.mem_range.mp hid)
    rw [hrest]
    exact (hfuel id rest).1
  refine ⟨_,if_pos hall,fun id hid s r hs hr => ?_⟩
  obtain ⟨rest,hrest⟩ := hmore id hid
  dsimp only
  rw [hrest, (hfuel id rest).2 s r hs hr, Option.getD_some]

end Redirect

end MoldMacho.Replacements
