import Mathlib.Data.Option.Basic
import MoldMacho.Chunks.Header
import MoldMacho.Lib.Wildcards

/-!
# Glob patterns

A pattern's text is compiled to tokens, its literals gathered, and matched without
recursion: a mismatch retries the last star with one more letter. What a text
means is the items it reads as.
-/

set_option autoImplicit false

namespace MoldMacho.Globs
open MoldMacho.Wildcards

inductive Token where
  | str (literal : List UInt8)
  | star
  | question
  | bracket (chars : UInt8 → Bool)

structure Pattern where
  tokens : List Token
  value : ℤ

/-! ## Texts -/

/-- What a bracket expression matches, `prev` the character before. A range starts at
the one before its `-` and is the `-` itself to a range after it. -/
def bracketFrom (chars : UInt8 → Bool) (prev : Option UInt8) : List UInt8 → Option (UInt8 → Bool)
  | [] => some chars
  | c::cls =>
    if c = 0x2d then
      match prev, cls with
      | some start, stop::cls =>
        bracketFrom (fun x => chars x || (decide (start ≤ x) && decide (x ≤ stop))) (some c) cls
      | _, _ => none
    else bracketFrom (fun x => chars x || x == c) (some c) cls

def bracket (cls : List UInt8) : Option (UInt8 → Bool) := bracketFrom (fun _ => false) none cls

def pushChar (tokens : List Token) (c : UInt8) : List Token :=
  match tokens.getLast? with
  | some (.str literal) => tokens.dropLast ++ [.str (literal ++ [c])]
  | _ => tokens ++ [.str [c]]

def pushStar (tokens : List Token) : List Token :=
  match tokens.getLast? with
  | some .star => tokens
  | _ => tokens ++ [.star]

/-- The bracket expression that a text after its `[` starts with, and what follows. -/
def bracketAt (pat : List UInt8) : Option ((UInt8 → Bool) × List UInt8) :=
  match pat.idxOf? 0x5d with
  | some stop => (bracket (pat.take stop)).map fun chars => (chars,pat.drop (stop+1))
  | none => none

theorem bracket_at_shorter {pat rest : List UInt8} {chars : UInt8 → Bool}
    (h : bracketAt pat = some (chars,rest)) : rest.length ≤ pat.length := by
  unfold bracketAt at h
  split at h
  · obtain ⟨chars',-,heq⟩ := Option.map_eq_some_iff.1 h
    cases heq
    exact List.length_drop ▸ Nat.sub_le _ _
  · cases h

def compileFrom (tokens : List Token) : List UInt8 → Option (List Token)
  | [] => some tokens
  | c::pat =>
    if c = 0x5b then
      match h : bracketAt pat with
      | some (chars,rest) =>
        have := bracket_at_shorter h
        compileFrom (tokens ++ [.bracket chars]) rest
      | none => none
    else if c = 0x3f then compileFrom (tokens ++ [.question]) pat
    else if c = 0x2a then compileFrom (pushStar tokens) pat
    else if c = 0x5c then
      -- A backslash at the end is itself.
      match pat with
      | escaped::pat => compileFrom (pushChar tokens escaped) pat
      | [] => compileFrom (pushChar tokens c) []
    else compileFrom (pushChar tokens c) pat
termination_by pat => pat.length

def Pattern.compile (pat : List UInt8) (value : ℤ) : Option Pattern :=
  (compileFrom [] pat).map fun tokens => { tokens, value }

/-! ## What a text means -/

/-- The items of a text. A malformed one has none. -/
def readItems : List UInt8 → Option (List (Item UInt8))
  | [] => some []
  | c::pat =>
    if c = 0x5b then
      match h : bracketAt pat with
      | some (chars,rest) =>
        have := bracket_at_shorter h
        (readItems rest).map (.one chars::·)
      | none => none
    else if c = 0x3f then (readItems pat).map (.one (fun _ => true)::·)
    else if c = 0x2a then (readItems pat).map (.star::·)
    else if c = 0x5c then
      match pat with
      | escaped::pat => (readItems pat).map (.one (· == escaped)::·)
      | [] => some [.one (· == c)]
    else (readItems pat).map (.one (· == c)::·)
termination_by pat => pat.length

/-- The text is a pattern that matches the string. -/
def TextMatches (pat s : List UInt8) : Prop := ∃ items, readItems pat = some items ∧ Matches items s

def Token.items : Token → List (Item UInt8)
  | .str literal => letters literal
  | .star => [.star]
  | .question => [.one fun _ => true]
  | .bracket chars => [.one chars]

def itemsOf (tokens : List Token) : List (Item UInt8) := tokens.flatMap Token.items

theorem items_of_append (a b : List Token) : itemsOf (a ++ b) = itemsOf a ++ itemsOf b :=
  List.flatMap_append

theorem push_char_items (tokens : List Token) (c : UInt8) :
    itemsOf (pushChar tokens c) = itemsOf tokens ++ [.one (· == c)] := by
  unfold pushChar
  split
  · next literal h =>
    obtain ⟨init,rfl⟩ := List.getLast?_eq_some_iff.1 h
    simp [itemsOf, Token.items, letters]
  · rw [items_of_append]
    rfl

theorem push_star_items (tokens : List Token) :
    Same (itemsOf (pushStar tokens)) (itemsOf tokens ++ [.star]) := by
  unfold pushStar
  split
  · next h =>
    obtain ⟨init,rfl⟩ := List.getLast?_eq_some_iff.1 h
    rw [items_of_append, List.append_assoc]
    exact (Same.refl _).append fun s => (star_star s).symm
  · rw [items_of_append]
    exact Same.refl _

/-- What is compiled means what was before it and the items read after. -/
def CompilesTo (tokens : List Token) : Option (List Token) → Option (List (Item UInt8)) → Prop :=
  Option.Rel fun compiled items => Same (itemsOf compiled) (itemsOf tokens ++ items)

theorem CompilesTo.push {tokens pushed : List Token} {item : Item UInt8}
    {compiled : Option (List Token)} {items : Option (List (Item UInt8))}
    (h : CompilesTo pushed compiled items)
    (hpush : Same (itemsOf pushed) (itemsOf tokens ++ [item])) :
    CompilesTo tokens compiled (items.map (item::·)) := by
  cases h with
  | none => exact .none
  | some h =>
    have hsame := h.trans (hpush.append (Same.refl _))
    rw [List.append_assoc] at hsame
    exact .some hsame

theorem CompilesTo.char {tokens : List Token} {c : UInt8} {compiled : Option (List Token)}
    {items : Option (List (Item UInt8))} (h : CompilesTo (pushChar tokens c) compiled items) :
    CompilesTo tokens compiled (items.map (.one (· == c)::·)) :=
  h.push (push_char_items tokens c ▸ Same.refl _)

theorem CompilesTo.end (tokens : List Token) : CompilesTo tokens (some tokens) (some []) :=
  .some (List.append_nil _ ▸ Same.refl _)

/-- Compiled or not, a text means the same. -/
theorem compile_from_items (tokens : List Token) (pat : List UInt8) :
    CompilesTo tokens (compileFrom tokens pat) (readItems pat) := by
  fun_induction compileFrom tokens pat with
  | case1 tokens =>
    rw [readItems]
    exact CompilesTo.end tokens
  | case2 tokens pat chars rest h _ ih =>
    have hread : readItems (0x5b::pat) = (readItems rest).map (.one chars::·) := by
      rw [readItems.eq_def]
      dsimp only
      rw [if_pos rfl]
      split
      · next heq =>
        cases h.symm.trans heq
        rfl
      · next heq => cases h.symm.trans heq
    rw [hread]
    exact ih.push (items_of_append _ _ ▸ Same.refl _)
  | case3 tokens pat h =>
    have hread : readItems (0x5b::pat) = none := by
      rw [readItems.eq_def]
      dsimp only
      rw [if_pos rfl]
      split
      · next heq => cases h.symm.trans heq
      · rfl
    rw [hread]
    exact .none
  | case4 tokens pat h ih =>
    rw [readItems.eq_def]
    dsimp only
    rw [if_neg h, if_pos rfl]
    exact ih.push (items_of_append _ _ ▸ Same.refl _)
  | case5 tokens pat h h' ih =>
    rw [readItems.eq_def]
    dsimp only
    rw [if_neg h, if_neg h', if_pos rfl]
    exact ih.push (push_star_items tokens)
  | case6 tokens escaped pat h h' h'' ih =>
    rw [readItems.eq_def]
    dsimp only
    rw [if_neg h, if_neg h', if_neg h'', if_pos rfl]
    exact ih.char
  | case7 tokens h h' h'' =>
    rw [readItems.eq_def]
    dsimp only
    rw [if_neg h, if_neg h', if_neg h'', if_pos rfl, compileFrom]
    exact (CompilesTo.end _).char
  | case8 tokens c pat h h' h'' h''' ih =>
    rw [readItems.eq_def]
    dsimp only
    rw [if_neg h, if_neg h', if_neg h'', if_neg h''']
    exact ih.char

end MoldMacho.Globs
