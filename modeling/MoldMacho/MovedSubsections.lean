import Mathlib.Data.List.Find
import MoldMacho.SymbolMoves

/-!
# The subsections that symbol moves take

A subsection goes where the first of its symbols that is moved at all sends it.
That is where the lists send the subsection just when they agree on that symbol.
-/

set_option autoImplicit false

namespace MoldMacho.SymbolMoves
open MoldMacho.Chunks MoldMacho.Symbols
open MoldMacho.OutputSectionNames (Move MoveOption nameField)

/-! ## What the lists say of a subsection -/

section Lists
variable (ctx : Context)

def visitsOf (k : ℕ) : List Visit := (visits ctx).filter fun v => v.subsec.isec == some k

def finds (list : SymbolMove) (v : Visit) : Bool := decide (0 ≤ foundSymbol ctx v list)

/-- The first list that finds a symbol. -/
def ownFirst (v : Visit) (lists : List SymbolMove) : Option SymbolMove :=
  lists.find? fun list => finds ctx list v

/-- The first list that finds any of a subsection's symbols. -/
def firstFinding (k : ℕ) (lists : List SymbolMove) : Option SymbolMove :=
  lists.find? fun list => (visitsOf ctx k).any (finds ctx list)

/-- Where an option's first list moves a subsection, unless it holds `stays` or is
there already. -/
def moveTo (option : MoveOption) (stays : Content) (subsec : Subsec) (first : Option SymbolMove) :
    Option Move :=
  first.bind fun list =>
    if cutName list.segment = subsec.segment ∨ subsec.content = stays then none
    else some ⟨option,cutName list.segment⟩

def dirtyMove (subsec : Subsec) (first : Option SymbolMove) : Option Move :=
  if first.isSome && !subsec.tlvTemplate then some ⟨.dirty,bytes "__DATA_DIRTY"⟩ else none

/-- Where the lists move a subsection. -/
def listed (k : ℕ) : Option Move :=
  ((moveTo .rw .code (subsecOf ctx k k) (firstFinding ctx k ctx.moveToRw)).or
    (moveTo .ro .data (subsecOf ctx k k) (firstFinding ctx k ctx.moveToRo))).or
    (dirtyMove (subsecOf ctx k k) (firstFinding ctx k ctx.dirtyData))

def Movable (k : ℕ) : Prop := (ctx.isec k).isAlive = true ∧ (subsecOf ctx k k).isec = some k

/-! Where its own lists move a symbol. -/

def ownRw (v : Visit) : Option Move := moveTo .rw .code v.subsec (ownFirst ctx v ctx.moveToRw)
def ownRo (v : Visit) : Option Move := moveTo .ro .data v.subsec (ownFirst ctx v ctx.moveToRo)
def ownDirty (v : Visit) : Option Move := dirtyMove v.subsec (ownFirst ctx v ctx.dirtyData)

def Unmoved (v : Visit) : Prop := ownRw ctx v = none ∧ ownRo ctx v = none ∧ ownDirty ctx v = none

/-- The lists move the subsection as they do one of its symbols: the option that
moves the symbol sends both to one segment, and the options before it neither. -/
structure Leads (k : ℕ) (v : Visit) : Prop where
  rw : moveTo .rw .code (subsecOf ctx k k) (firstFinding ctx k ctx.moveToRw) = ownRw ctx v
  ro : ownRw ctx v = none →
    moveTo .ro .data (subsecOf ctx k k) (firstFinding ctx k ctx.moveToRo) = ownRo ctx v
  dirty : ownRw ctx v = none → ownRo ctx v = none →
    dirtyMove (subsecOf ctx k k) (firstFinding ctx k ctx.dirtyData) = ownDirty ctx v

/-- The first of a subsection's symbols that its own lists move leads, and where
there is none no option's lists move the subsection. -/
structure Led (k : ℕ) : Prop where
  first : ∀ before v after, visitsOf ctx k = before ++ v::after →
    (∀ u ∈ before, Unmoved ctx u) → ¬Unmoved ctx v → Leads ctx k v
  none : (∀ v ∈ visitsOf ctx k, Unmoved ctx v) →
    moveTo .rw .code (subsecOf ctx k k) (firstFinding ctx k ctx.moveToRw) = none ∧
    moveTo .ro .data (subsecOf ctx k k) (firstFinding ctx k ctx.moveToRo) = none ∧
    dirtyMove (subsecOf ctx k k) (firstFinding ctx k ctx.dirtyData) = none

end Lists

/-! ## One symbol -/

section OneSymbol
variable {ctx : Context} {k : ℕ} {v : Visit}

theorem find_in_first (v : Visit) (lists : List SymbolMove) :
    (findIn ctx v lists).map Prod.fst = ownFirst ctx v lists := by
  rw [findIn, ownFirst]
  induction lists with
  | nil => rfl
  | cons list lists ih =>
    rw [List.findSome?_cons, List.find?_cons]
    by_cases h : 0 ≤ foundSymbol ctx v list
    · simp [h, finds]
    · simp [h, finds, ih]

theorem move_by_fst (option : MoveOption) (stays : Content) (v : Visit) (lists : List SymbolMove) :
    (moveBy ctx option stays v lists).1 = moveTo option stays v.subsec (ownFirst ctx v lists) := by
  rw [moveBy, moveTo, ← find_in_first]
  cases findIn ctx v lists with
  | none => rfl
  | some found =>
    obtain ⟨list,named⟩ := found
    dsimp only [Option.map_some, Option.bind_some]
    by_cases hseg : cutName list.segment = v.subsec.segment
    · rw [if_pos hseg, if_pos (.inl hseg)]
    · by_cases hstays : v.subsec.content = stays
      · rw [if_neg hseg, if_neg (not_not.2 hstays)]
        exact (if_pos (.inr hstays)).symm
      · rw [if_neg hseg, if_pos hstays, if_neg (not_or.2 ⟨hseg,hstays⟩)]

/-- A symbol's own lists, in the options' order. -/
theorem choose_fst (ctx : Context) (v : Visit) :
    (choose ctx v).1 = ((ownRw ctx v).or (ownRo ctx v)).or (ownDirty ctx v) := by
  rw [choose, ownRw, ownRo, ← move_by_fst, ← move_by_fst, ownDirty, dirtyMove, ← find_in_first,
    Option.isSome_map]

theorem choose_none : (choose ctx v).1 = none ↔ Unmoved ctx v := by
  rw [choose_fst, Option.or_eq_none_iff, Option.or_eq_none_iff, and_assoc]
  rfl

theorem move_to_option {option : MoveOption} {stays : Content} {subsec : Subsec}
    {first : Option SymbolMove} {m : Move} (h : moveTo option stays subsec first = some m) :
    m.option = option := by
  obtain ⟨list,-,h⟩ := Option.bind_eq_some_iff.1 h
  split_ifs at h
  cases h
  rfl

theorem dirty_move_option {subsec : Subsec} {first : Option SymbolMove} {m : Move}
    (h : dirtyMove subsec first = some m) : m.option = .dirty := by
  rw [dirtyMove] at h
  split_ifs at h
  cases h
  rfl

/-- Moves by the options in turn are the same just when they are up to the first. -/
theorem options_eq {rw rw' ro ro' dirty dirty' : Option Move}
    (hrw : ∀ m ∈ rw, m.option = .rw) (hrw' : ∀ m ∈ rw', m.option = .rw)
    (hro : ∀ m ∈ ro, m.option = .ro) (hro' : ∀ m ∈ ro', m.option = .ro)
    (hdirty : ∀ m ∈ dirty, m.option = .dirty) (hdirty' : ∀ m ∈ dirty', m.option = .dirty) :
    (rw'.or ro').or dirty' = (rw.or ro).or dirty ↔
      rw = rw' ∧ (rw' = none → ro = ro') ∧ (rw' = none → ro' = none → dirty = dirty') := by
  constructor
  · intro h
    cases rw' with
    | some m' =>
      have hm' := hrw' m' rfl
      cases rw with
      | some m => simpa using h.symm
      | none =>
        cases ro with
        | some m => simp_all
        | none => cases dirty <;> simp_all
    | none =>
      cases rw with
      | some m =>
        have hm := hrw m rfl
        cases ro' with
        | some m' => simp_all
        | none => cases dirty' <;> simp_all
      | none =>
        refine ⟨rfl,fun _ => ?_,fun _ hnone => ?_⟩
        · cases ro' with
          | some m' =>
            cases ro with
            | some m => simpa using h.symm
            | none => cases dirty <;> simp_all
          | none =>
            cases ro with
            | some m => cases dirty' <;> simp_all
            | none => rfl
        · subst hnone
          cases ro with
          | some m => cases dirty' <;> simp_all
          | none => simpa using h.symm
  · rintro ⟨rfl,hro,hdirty⟩
    cases rw with
    | some m => rfl
    | none =>
      rw [hro rfl]
      cases ro' with
      | some m => rfl
      | none => rw [hdirty rfl rfl]

theorem leads_iff : (choose ctx v).1 = listed ctx k ↔ Leads ctx k v := by
  rw [choose_fst, listed]
  refine (options_eq ?_ ?_ ?_ ?_ ?_ ?_).trans ?_
  · exact fun _ => move_to_option
  · exact fun _ => move_to_option
  · exact fun _ => move_to_option
  · exact fun _ => move_to_option
  · exact fun _ => dirty_move_option
  · exact fun _ => dirty_move_option
  · exact ⟨fun ⟨hrw,hro,hdirty⟩ => ⟨hrw,hro,hdirty⟩,fun ⟨hrw,hro,hdirty⟩ => ⟨hrw,hro,hdirty⟩⟩

end OneSymbol

/-! ## All symbols -/

section AllSymbols
variable (ctx : Context) (k : ℕ)

theorem visit_lookup (moves : List (ℕ × Move) × List Warning) (v : Visit) :
    (visit ctx moves v).1.lookup k =
      (moves.1.lookup k).or (if v.subsec.isec = some k then (choose ctx v).1 else none) := by
  obtain ⟨moves,warnings⟩ := moves
  rw [visit]
  obtain ⟨chosen,warned⟩ := choose ctx v
  cases chosen with
  | none => simp
  | some m =>
    cases hisec : v.subsec.isec with
    | none => simp
    | some i =>
      dsimp only
      by_cases hi : i = k
      · subst hi
        cases hlookup : moves.lookup i with
        | some old => simp [hlookup]
        | none => simp [hlookup, List.lookup_append]
      · have hne : (k == i) = false := beq_eq_false_iff_ne.2 fun h => hi h.symm
        have hnot : ¬some i = some k := fun h => hi (Option.some_inj.1 h)
        rw [if_neg hnot, Option.or_none]
        split_ifs
        · rfl
        · rw [List.lookup_append, List.lookup_cons, hne, List.lookup_nil, Option.or_none]

/-- A subsection gets the first move that is chosen of its symbols. -/
theorem visits_lookup (vs : List Visit) (moves : List (ℕ × Move) × List Warning) :
    (vs.foldl (visit ctx) moves).1.lookup k =
      (moves.1.lookup k).or
        ((vs.filter fun v => v.subsec.isec == some k).findSome? fun v => (choose ctx v).1) := by
  induction vs generalizing moves with
  | nil => simp
  | cons v vs ih =>
    rw [List.foldl_cons, ih, visit_lookup, Option.or_assoc]
    by_cases hk : v.subsec.isec = some k
    · rw [if_pos hk, List.filter_cons_of_pos (by simpa using hk), List.findSome?_cons]
      cases (choose ctx v).1 <;> rfl
    · rw [if_neg hk, List.filter_cons_of_neg (by simpa using hk), Option.none_or]

theorem unlisted_unmoved (h : ctx.moveToRw.isEmpty && ctx.moveToRo.isEmpty &&
    ctx.dirtyData.isEmpty) (v : Visit) : (choose ctx v).1 = none := by
  rw [Bool.and_eq_true, Bool.and_eq_true, List.isEmpty_iff, List.isEmpty_iff,
    List.isEmpty_iff] at h
  rw [choose_none, Unmoved, ownRw, ownRo, ownDirty, h.1.1, h.1.2, h.2]
  exact ⟨rfl,rfl,rfl⟩

theorem find_moves_lookup (hfinal : ctx.relocatable = false) :
    (findMoves ctx).1.lookup k = (visitsOf ctx k).findSome? fun v => (choose ctx v).1 := by
  rw [findMoves, hfinal, Bool.false_or]
  split_ifs with hempty
  · rw [List.lookup_nil, eq_comm, List.findSome?_eq_none_iff]
    exact fun v _ => unlisted_unmoved ctx hempty v
  · rw [visits_lookup]
    rfl

theorem led_iff :
    (visitsOf ctx k).findSome? (fun v => (choose ctx v).1) = listed ctx k ↔ Led ctx k := by
  constructor
  · intro h
    constructor
    · intro before v after hsplit hbefore hv
      rw [← leads_iff, ← h, hsplit, List.findSome?_append, List.findSome?_cons,
        List.findSome?_eq_none_iff.2 fun u hu => choose_none.2 (hbefore u hu), Option.none_or]
      cases hchosen : (choose ctx v).1 with
      | none => exact absurd (choose_none.1 hchosen) hv
      | some m => rfl
    · intro hall
      rw [List.findSome?_eq_none_iff.2 fun v hv => choose_none.2 (hall v hv), eq_comm, listed,
        Option.or_eq_none_iff, Option.or_eq_none_iff, and_assoc] at h
      exact h
  · rintro ⟨hfirst,hnone⟩
    cases hfound : (visitsOf ctx k).findSome? fun v => (choose ctx v).1 with
    | none =>
      obtain ⟨hrw,hro,hdirty⟩ := hnone fun v hv =>
        choose_none.1 (List.findSome?_eq_none_iff.1 hfound v hv)
      rw [listed, hrw, hro, hdirty]
      rfl
    | some m =>
      obtain ⟨before,v,after,hsplit,hv,hbefore⟩ := List.findSome?_eq_some_iff.1 hfound
      rw [← hv, leads_iff]
      apply hfirst before v after hsplit fun u hu => choose_none.1 (hbefore u hu)
      rw [← choose_none, hv]
      exact Option.some_ne_none m

/-- The symbols are the subsection's own and no list tells them apart. -/
structure Alike : Prop where
  own : ∀ v ∈ visitsOf ctx k, v.subsec = subsecOf ctx k k
  found : ∀ list ∈ ctx.moveToRw ++ ctx.moveToRo ++ ctx.dirtyData,
    ∀ u ∈ visitsOf ctx k, ∀ v ∈ visitsOf ctx k, finds ctx list u = finds ctx list v

theorem alike_first (h : Alike ctx k) {v : Visit} (hv : v ∈ visitsOf ctx k) {lists : List SymbolMove}
    (hlists : ∀ list ∈ lists, list ∈ ctx.moveToRw ++ ctx.moveToRo ++ ctx.dirtyData) :
    firstFinding ctx k lists = ownFirst ctx v lists := by
  apply List.find?_congr
  intro list hlist
  rw [Bool.eq_iff_iff, List.any_eq_true]
  constructor
  · rintro ⟨u,hu,hfinds⟩
    rwa [← h.found list (hlists list hlist) u hu v hv]
  · exact fun hfinds => ⟨v,hv,hfinds⟩

/-- Lists that do not tell a subsection's symbols apart lead it. So they do one of
a single symbol. -/
theorem led_of_alike (h : Alike ctx k) : Led ctx k := by
  rw [← led_iff]
  have hchoose : ∀ v ∈ visitsOf ctx k, (choose ctx v).1 = listed ctx k := by
    intro v hv
    rw [choose_fst, listed, ownRw, ownRo, ownDirty, h.own v hv, alike_first ctx k h hv,
      alike_first ctx k h hv, alike_first ctx k h hv]
    · exact fun list hlist => List.mem_append_right _ hlist
    · exact fun list hlist => List.mem_append_left _ (List.mem_append_right _ hlist)
    · exact fun list hlist => List.mem_append_left _ (List.mem_append_left _ hlist)
  cases hvisits : visitsOf ctx k with
  | nil =>
    have hnone (lists : List SymbolMove) : firstFinding ctx k lists = none := by
      rw [firstFinding, hvisits]
      exact List.find?_eq_none.2 fun _ _ => by simp
    rw [listed, hnone, hnone, hnone]
    rfl
  | cons v vs =>
    rw [hvisits, List.forall_mem_cons] at hchoose
    rw [List.findSome?_cons, hchoose.1]
    cases hlisted : listed ctx k with
    | some m => rfl
    | none => exact List.findSome?_eq_none_iff.2 fun u hu => (hchoose.2 u hu).trans hlisted

end AllSymbols

/-- The lists alone decide where a final link's movable live subsections go just
when each subsection is led by the first of its symbols that is moved. -/
theorem moves_by_lists (ctx : Context) (hfinal : ctx.relocatable = false) :
    (∀ k, Movable ctx k → (findMoves ctx).1.lookup k = listed ctx k) ↔
      ∀ k, Movable ctx k → Led ctx k := by
  apply forall₂_congr
  intro k _
  rw [find_moves_lookup ctx k hfinal, led_iff]

/-! Data with two names, `_a` and then `_b`. -/

/-- A list of names. -/
def namesList (segment : Name) (names : List Name) : SymbolMove where
  segment
  find name := if names.contains name then 1 else -1

/-- The names on a read-write list and those that are dirty. -/
def twoNames (rw dirty : List Name) : Context where
  moveToRw := [namesList (bytes "__FOO") rw]
  dirtyData := [namesList (bytes "__DATA_DIRTY") dirty]
  objs := [{ sectHdrs := [{ rawSectname := nameField (bytes "__data")
                            rawSegname := nameField (bytes "__DATA") }]
             machSyms := [{ type := 0xf, sect := 1 },{ type := 0xf, sect := 1 }]
             symbols := [0,1] }]
  symtab := { names := [bytes "_a",bytes "_b"], lookup := fun _ => none, lookup_name := by simp }
  syms := fun _ => { file := some (.obj 0), inputSection := some 0 }
  isecs := [{ file := 0 }]

/-- The read-write list names both, and the dirty one the second. -/
theorem moves_by_lists_two_names :
    let ctx := twoNames [bytes "_a",bytes "_b"] [bytes "_b"]
    (visitsOf ctx 0).length = 2 ∧ Movable ctx 0 ∧ Led ctx 0 ∧
      ∀ k, Movable ctx k → (findMoves ctx).1.lookup k = listed ctx k := by
  intro ctx
  have hled : Led ctx 0 := (led_iff ctx 0).1 (by decide +kernel)
  refine ⟨by decide +kernel,⟨rfl,by decide +kernel⟩,hled,(moves_by_lists ctx rfl).2 fun k _ => ?_⟩
  by_cases hk : k = 0
  · exact hk ▸ hled
  · have hnone : visitsOf ctx k = [] := by
      have hall : ∀ v ∈ visits ctx, v.subsec.isec = some 0 := by decide +kernel
      refine List.filter_eq_nil_iff.2 fun v hv => ?_
      rw [hall v hv, beq_iff_eq, Option.some_inj]
      exact fun h => hk h.symm
    exact led_of_alike ctx k ⟨by simp [hnone],by simp [hnone]⟩

/-- The dirty list takes what the read-write list names. -/
theorem first_name_moves :
    let ctx := twoNames [bytes "_b"] [bytes "_a"]
    ctx.relocatable = false ∧ ctx.aliases = [] ∧ Movable ctx 0 ∧
      listed ctx 0 = some ⟨.rw,bytes "__FOO"⟩ ∧
      (findMoves ctx).1.lookup 0 = some ⟨.dirty,bytes "__DATA_DIRTY"⟩ := by
  refine ⟨rfl,rfl,⟨rfl,?_⟩,?_,?_⟩ <;> decide +kernel

end MoldMacho.SymbolMoves
