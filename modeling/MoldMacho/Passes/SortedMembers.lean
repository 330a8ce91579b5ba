import Mathlib.Data.List.Permutation
import Mathlib.Data.Fintype.EquivFin
import Mathlib.Data.Set.Finite.List
import MoldMacho.Passes.OrderFileLines

/-!
# The order of the members

The members of each output section come in the order of the lines as read. That is
the order of the lines as meant just when both rank any two symbols alike.
-/

set_option autoImplicit false

namespace MoldMacho.OrderFiles
open MoldMacho.Chunks MoldMacho.StableSort MoldMacho.Symbols MoldMacho.Text

/-! ## The first line that names a symbol -/

def firstIndex {α : Type} (p : α → Bool) (l : List α) : Rank :=
  match l.findIdx? p with
  | some i => i
  | none => ⊤

theorem first_index_le {α : Type} {p : α → Bool} {l : List α} {r : Rank} :
    firstIndex p l ≤ r ↔ r = ⊤ ∨ ∃ i e, l[i]? = some e ∧ p e = true ∧ ((i : ℕ) : Rank) ≤ r := by
  rw [firstIndex]
  cases h : l.findIdx? p with
  | none =>
    rw [List.findIdx?_eq_none_iff] at h
    dsimp only
    rw [top_le_iff, or_iff_left]
    rintro ⟨i,e,he,hp,-⟩
    rw [h e (List.mem_of_getElem? he)] at hp
    cases hp
  | some j =>
    obtain ⟨hj,hp,hbefore⟩ := List.findIdx?_eq_some_iff_getElem.1 h
    dsimp only
    constructor
    · exact fun hle => .inr ⟨j,l[j],List.getElem?_eq_getElem hj,hp,hle⟩
    · rintro (rfl | ⟨i,e,he,hpe,hle⟩)
      · exact le_top
      · refine le_trans ?_ hle
        by_contra hlt
        have hij : i < j := WithTop.coe_lt_coe.1 (not_le.1 hlt)
        obtain ⟨hi,rfl⟩ := List.getElem?_eq_some_iff.1 he
        exact hbefore i hij hpe

theorem first_index_top {α : Type} {p : α → Bool} {l : List α} :
    firstIndex p l = ⊤ ↔ ∀ e ∈ l, p e = false := by
  rw [firstIndex]
  cases h : l.findIdx? p with
  | none => exact ⟨fun _ => List.findIdx?_eq_none_iff.1 h,fun _ => rfl⟩
  | some j =>
    obtain ⟨hj,hp,-⟩ := List.findIdx?_eq_some_iff_getElem.1 h
    dsimp only
    refine ⟨fun htop => absurd htop WithTop.coe_ne_top,fun hall => ?_⟩
    rw [hall _ (List.getElem_mem hj)] at hp
    cases hp

/-- The first line that names a symbol of a file. -/
def symbolRank (entries : List OrderEntry) (x : Name × Name) : Rank :=
  firstIndex (fun e => e.names x.1 x.2) entries

/-- Whether a line names a live symbol of the subsection. -/
def namesMember (ctx : Context) (m : ℕ) (e : OrderEntry) : Bool :=
  ctx.syms.any fun sym => (placeOf ctx sym).any fun place =>
    place.1 == m && e.names place.2 sym.name

/-- The first line that names a live symbol of the subsection. -/
def memberRank (ctx : Context) (entries : List OrderEntry) (m : ℕ) : Rank :=
  firstIndex (namesMember ctx m) entries

section Ranks
variable {ctx : Context} {entries : List OrderEntry} {m : ℕ} {r : Rank}

theorem names_member {e : OrderEntry} : namesMember ctx m e = true ↔
    ∃ sym ∈ ctx.syms, ∃ leaf, placeOf ctx sym = some (m,leaf) ∧ e.names leaf sym.name = true := by
  rw [namesMember, List.any_eq_true]
  apply exists_congr
  intro sym
  apply and_congr_right
  intro _
  cases placeOf ctx sym with
  | none => simp
  | some place =>
    obtain ⟨isec,leaf⟩ := place
    rw [Option.any_some, Bool.and_eq_true, beq_iff_eq]
    constructor
    · rintro ⟨rfl,hnames⟩
      exact ⟨leaf,rfl,hnames⟩
    · rintro ⟨leaf',hplace,hnames⟩
      cases hplace
      exact ⟨rfl,hnames⟩

/-- The least rank of the symbols of a subsection. -/
theorem member_rank_le : memberRank ctx entries m ≤ r ↔
    r = ⊤ ∨ ∃ sym ∈ ctx.syms, ∃ leaf, placeOf ctx sym = some (m,leaf) ∧
      symbolRank entries (leaf,sym.name) ≤ r := by
  rw [memberRank, first_index_le]
  apply or_congr_right'
  intro htop
  constructor
  · rintro ⟨i,e,he,hnames,hle⟩
    obtain ⟨sym,hsym,leaf,hplace,hnames⟩ := names_member.1 hnames
    exact ⟨sym,hsym,leaf,hplace,first_index_le.2 (.inr ⟨i,e,he,hnames,hle⟩)⟩
  · rintro ⟨sym,hsym,leaf,hplace,hle⟩
    rcases first_index_le.1 hle with rfl | ⟨i,e,he,hnames,hle⟩
    · exact absurd rfl htop
    · exact ⟨i,e,he,names_member.2 ⟨sym,hsym,leaf,hplace,hnames⟩,hle⟩

/-! The ranks that the linker gathers. -/

theorem update_ranks_le (ranks : ℕ → Rank) (isec : ℕ) (l : List (OrderEntry × ℕ)) :
    l.foldl (fun ranks e => Function.update ranks isec (min (ranks isec) e.2)) ranks m ≤ r ↔
      ranks m ≤ r ∨ m = isec ∧ ∃ e ∈ l, ((e.2 : ℕ) : Rank) ≤ r := by
  induction l generalizing ranks with
  | nil => simp
  | cons e l ih =>
    rw [List.foldl_cons, ih, List.exists_mem_cons_iff]
    by_cases hm : m = isec
    · subst hm
      rw [Function.update_self, min_le_iff]
      simp only [true_and, or_assoc]
    · rw [Function.update_of_ne hm]
      simp [hm]

theorem rank_symbol_le (ranks : ℕ → Rank) (sym : NamedSymbol) (hr : r ≠ ⊤) :
    rankSymbol ctx entries ranks sym m ≤ r ↔
      ranks m ≤ r ∨ ∃ leaf, placeOf ctx sym = some (m,leaf) ∧
        symbolRank entries (leaf,sym.name) ≤ r := by
  rw [rankSymbol]
  cases placeOf ctx sym with
  | none => simp
  | some place =>
    obtain ⟨isec,leaf⟩ := place
    dsimp only
    rw [update_ranks_le]
    apply or_congr_right
    have hleast : (∃ e ∈ entries.zipIdx.filter fun e => e.1.names leaf sym.name,
        ((e.2 : ℕ) : Rank) ≤ r) ↔ symbolRank entries (leaf,sym.name) ≤ r := by
      rw [symbolRank, first_index_le, or_iff_right hr]
      constructor
      · rintro ⟨⟨e,i⟩,he,hle⟩
        obtain ⟨he,hnames⟩ := List.mem_filter.1 he
        exact ⟨i,e,List.mem_zipIdx_iff_getElem?.1 he,hnames,hle⟩
      · rintro ⟨i,e,he,hnames,hle⟩
        exact ⟨(e,i),List.mem_filter.2 ⟨List.mem_zipIdx_iff_getElem?.2 he,hnames⟩,hle⟩
    rw [hleast]
    constructor
    · rintro ⟨rfl,hle⟩
      exact ⟨leaf,rfl,hle⟩
    · rintro ⟨leaf',hplace,hle⟩
      cases hplace
      exact ⟨rfl,hle⟩

theorem rank_symbols_le (syms : List NamedSymbol) (ranks : ℕ → Rank) (hr : r ≠ ⊤) :
    syms.foldl (rankSymbol ctx entries) ranks m ≤ r ↔
      ranks m ≤ r ∨ ∃ sym ∈ syms, ∃ leaf, placeOf ctx sym = some (m,leaf) ∧
        symbolRank entries (leaf,sym.name) ≤ r := by
  induction syms generalizing ranks with
  | nil => simp
  | cons sym syms ih =>
    rw [List.foldl_cons, ih, rank_symbol_le _ _ hr, List.exists_mem_cons_iff, or_assoc]

theorem ranks_eq : ctx.syms.foldl (rankSymbol ctx entries) (fun _ => ⊤) =
    memberRank ctx entries := by
  funext m
  apply eq_of_forall_ge_iff
  intro r
  by_cases hr : r = ⊤
  · simp [hr]
  · rw [rank_symbols_le _ _ hr, member_rank_le, top_le_iff]

end Ranks

/-! ## Sorted members -/

/-- The members in order: those that are not cold first, then by rank, and then as
they were. -/
structure Placed (cold : ℕ → Bool) (rank : ℕ → Rank) (before after : List ℕ) : Prop where
  perm : after.Perm before
  sorted : after.Pairwise fun a b => cold a < cold b ∨ cold a = cold b ∧ rank a ≤ rank b
  stable : ∀ c r, after.filter (fun m => cold m = c ∧ rank m = r) =
    before.filter fun m => cold m = c ∧ rank m = r

theorem sort_placed (cold : ℕ → Bool) (rank : ℕ → Rank) (members : List ℕ) :
    Placed cold rank members (sortBy cold (sortBy rank members)) where
  perm := (sort_perm _ _).trans (sort_perm _ _)
  sorted := sort_twice_sorted cold rank members
  stable := sort_twice_filter cold rank members

/-- Only how the members' ranks compare matters. -/
theorem Placed.alike {cold : ℕ → Bool} {rank rank' : ℕ → Rank} {before after : List ℕ}
    (h : Placed cold rank before after) (halike : ∀ a b, rank a ≤ rank b ↔ rank' a ≤ rank' b) :
    Placed cold rank' before after := by
  refine ⟨h.perm,h.sorted.imp fun hab => ?_,fun c r => ?_⟩
  · exact hab.imp_right (And.imp_right (halike _ _).1)
  · have heq : ∀ a b, rank a = rank b ↔ rank' a = rank' b := by
      intro a b
      rw [le_antisymm_iff, le_antisymm_iff, halike, halike]
    by_cases hr : ∃ m ∈ before, rank' m = r
    · obtain ⟨m,-,rfl⟩ := hr
      have hstable := h.stable c (rank m)
      simp only [heq] at hstable
      exact hstable
    · have hnone : ∀ m ∈ before, ¬(cold m = c ∧ rank' m = r) :=
        fun m hm hmr => hr ⟨m,hm,hmr.2⟩
      have hnone' : ∀ m ∈ after, ¬(cold m = c ∧ rank' m = r) :=
        fun m hm => hnone m (h.perm.mem_iff.1 hm)
      rw [List.filter_eq_nil_iff.2 (by simpa using hnone'),
        List.filter_eq_nil_iff.2 (by simpa using hnone)]

def SectionsPlaced (ctx : Context) (entries : List OrderEntry) (after : Context) : Prop :=
  List.Forall₂ (fun osec osec' =>
    Placed (isCold ctx) (memberRank ctx entries) osec.members osec'.members)
    ctx.outputSections after.outputSections

theorem sort_by_const {κ : Type} [LinearOrder κ] (k : κ) :
    OutputSection.sortBy (fun _ => k) = id := by
  funext osec
  rw [OutputSection.sortBy, sort_const]
  rfl

theorem sections_sorted (ctx : Context) :
    (sortSectionMembers ctx).outputSections =
      (ctx.outputSections.map (OutputSection.sortBy
        (memberRank ctx (readOrderFiles ctx.target ctx.orderFiles)))).map
      (OutputSection.sortBy (isCold ctx)) := by
  have hranks : orderSections ctx = ctx.outputSections.map (OutputSection.sortBy
      (memberRank ctx (readOrderFiles ctx.target ctx.orderFiles))) := by
    rw [orderSections, orderFileRanks]
    by_cases hnone : ctx.orderFiles = []
    · have htop : memberRank ctx (readOrderFiles ctx.target []) = fun _ => ⊤ := rfl
      rw [if_pos hnone, hnone, htop, sort_by_const, List.map_id]
    · rw [if_neg hnone]
      dsimp only
      rw [ranks_eq]
  rw [sortSectionMembers]
  dsimp only
  rw [hranks]
  split_ifs with hcold
  · have hwarm : isCold ctx = fun _ => false := by
      funext m
      rw [isCold, List.isEmpty_iff.1 hcold]
      rfl
    rw [hwarm, sort_by_const, List.map_id]
  · rfl

theorem members_placed (ctx : Context) :
    SectionsPlaced ctx (readOrderFiles ctx.target ctx.orderFiles) (sortSectionMembers ctx) := by
  rw [SectionsPlaced, sections_sorted, List.map_map, List.forall₂_map_right_iff,
    List.forall₂_same]
  exact fun osec _ => sort_placed _ _ _

/-! ## Lines that rank alike -/

/-- Both put one of any two symbols before the other, or neither does. -/
def RankedAlike (entries entries' : List OrderEntry) : Prop :=
  ∀ x y, symbolRank entries x < symbolRank entries y ↔ symbolRank entries' x < symbolRank entries' y

section Alike
variable {entries entries' : List OrderEntry}

theorem RankedAlike.symm (h : RankedAlike entries entries') : RankedAlike entries' entries :=
  fun x y => (h x y).symm

theorem RankedAlike.le (h : RankedAlike entries entries') (x y : Name × Name) :
    symbolRank entries x ≤ symbolRank entries y ↔
      symbolRank entries' x ≤ symbolRank entries' y := by
  rw [← not_lt, ← not_lt, h y x]

/-- Some symbol is in no line. -/
theorem unlisted_name (entries : List OrderEntry) :
    ∃ name : Name, ∀ e ∈ entries, ∀ leaf, e.names leaf name = false := by
  obtain ⟨name,hname⟩ := Infinite.exists_notMem_finset (entries.map OrderEntry.name).toFinset
  refine ⟨name,fun e he leaf => ?_⟩
  have hne : (e.name == name) = false := by
    rw [beq_eq_false_iff_ne]
    rintro rfl
    exact hname (List.mem_toFinset.2 (List.mem_map_of_mem he))
  rw [OrderEntry.names, hne, Bool.false_and]

theorem RankedAlike.top (h : RankedAlike entries entries') {y : Name × Name}
    (hy : symbolRank entries y = ⊤) : symbolRank entries' y = ⊤ := by
  obtain ⟨name,hname⟩ := unlisted_name (entries ++ entries')
  rw [List.forall_mem_append] at hname
  have hz : symbolRank entries ([],name) = ⊤ := first_index_top.2 fun e he => hname.1 e he []
  have hz' : symbolRank entries' ([],name) = ⊤ := first_index_top.2 fun e he => hname.2 e he []
  have hle := (h.le ([],name) y).1 (by rw [hz, hy])
  rw [hz', top_le_iff] at hle
  exact hle

theorem RankedAlike.member (h : RankedAlike entries entries') (ctx : Context) {a b : ℕ}
    (hab : memberRank ctx entries a ≤ memberRank ctx entries b) :
    memberRank ctx entries' a ≤ memberRank ctx entries' b := by
  rcases member_rank_le.1 (le_refl (memberRank ctx entries' b)) with
    htop | ⟨sym,hsym,leaf,hplace,hle⟩
  · rw [htop]
    exact le_top
  · -- the symbol of `b` that its first line names
    have hb : memberRank ctx entries b ≤ symbolRank entries (leaf,sym.name) :=
      member_rank_le.2 (.inr ⟨sym,hsym,leaf,hplace,le_refl _⟩)
    rcases member_rank_le.1 (hab.trans hb) with htop | ⟨sym',hsym',leaf',hplace',hle'⟩
    · rw [h.top htop, top_le_iff] at hle
      rw [hle]
      exact le_top
    · exact member_rank_le.2 (.inr ⟨sym',hsym',leaf',hplace',((h.le _ _).1 hle').trans hle⟩)

theorem RankedAlike.members (h : RankedAlike entries entries') (ctx : Context) (a b : ℕ) :
    memberRank ctx entries a ≤ memberRank ctx entries b ↔
      memberRank ctx entries' a ≤ memberRank ctx entries' b :=
  ⟨h.member ctx,h.symm.member ctx⟩

/-! Two symbols that are told apart. -/

/-- Two objects with a symbol each, the second's subsection before the first's. -/
def twoSymbols (target : Target) (texts : List (Option (List UInt8))) (x y : Name × Name) :
    Context where
  target := target
  orderFiles := texts
  objs := [{ leaf := some x.1 },{ leaf := some y.1 }]
  syms := [{ file := some (.obj 0), inputSection := some 0, name := x.2 },
    { file := some (.obj 1), inputSection := some 1, name := y.2 }]
  isecs := [{ file := 0 },{ file := 1 }]
  outputSections := [{ members := [1,0] }]

theorem two_symbols_rank (target : Target) (texts : List (Option (List UInt8)))
    (x y : Name × Name) (entries : List OrderEntry) :
    memberRank (twoSymbols target texts x y) entries 0 = symbolRank entries x ∧
      memberRank (twoSymbols target texts x y) entries 1 = symbolRank entries y := by
  have hx : placeOf (twoSymbols target texts x y)
      { file := some (.obj 0), inputSection := some 0, name := x.2 } = some (0,x.1) := rfl
  have hy : placeOf (twoSymbols target texts x y)
      { file := some (.obj 1), inputSection := some 1, name := y.2 } = some (1,y.1) := rfl
  have hnames : ∀ m, namesMember (twoSymbols target texts x y) m = fun e =>
      (0 == m && e.names x.1 x.2) || (1 == m && e.names y.1 y.2) := by
    intro m
    funext e
    show ((placeOf _ _).any _ || ((placeOf _ _).any _ || false)) = _
    rw [hx, hy, Bool.or_false]
    rfl
  constructor
  · rw [memberRank, hnames, symbolRank]
    congr 1
    funext e
    simp
  · rw [memberRank, hnames, symbolRank]
    congr 1

/-- An order that fits two lists of lines shows no two symbols that they rank apart. -/
theorem placed_alike {rank rank' : ℕ → Rank} {after : List ℕ}
    (h : Placed (fun _ => false) rank [1,0] after) (h' : Placed (fun _ => false) rank' [1,0] after)
    (hlt : rank 0 < rank 1) : rank' 0 < rank' 1 := by
  have hafter : after = [0,1] := by
    rcases List.perm_pair.1 h.perm with rfl | rfl
    · rcases (List.pairwise_pair.1 h.sorted) with hcold | ⟨-,hle⟩
      · cases hcold
      · exact absurd hlt (not_lt.2 hle)
    · rfl
  subst hafter
  rcases List.pairwise_pair.1 h'.sorted with hcold | ⟨-,hle⟩
  · cases hcold
  · refine lt_of_le_of_ne hle fun heq => ?_
    have hstable := h'.stable false (rank' 0)
    simp [heq] at hstable

theorem two_symbols_placed {ctx : Context} {after : Context} {e : List OrderEntry}
    (hsections : ctx.outputSections = [{ members := [1,0] }]) (hcold : isCold ctx = fun _ => false)
    (h : SectionsPlaced ctx e after) :
    ∃ members, Placed (fun _ => false) (memberRank ctx e) [1,0] members ∧
      after.outputSections = [{ members }] := by
  rw [SectionsPlaced, hsections, hcold] at h
  obtain ⟨osec,rest,hosec,hrest,heq⟩ := List.forall₂_cons_left_iff.1 h
  rw [List.forall₂_nil_left_iff] at hrest
  subst hrest
  exact ⟨osec.members,hosec,heq⟩

theorem two_symbols_alike {target : Target} {texts : List (Option (List UInt8))}
    {x y : Name × Name} (h : SectionsPlaced (twoSymbols target texts x y) entries'
      (sortSectionMembers (twoSymbols target texts x y))) :
    symbolRank (readOrderFiles target texts) x < symbolRank (readOrderFiles target texts) y ↔
      symbolRank entries' x < symbolRank entries' y := by
  have hread := members_placed (twoSymbols target texts x y)
  obtain ⟨after,hread,heq⟩ := two_symbols_placed rfl rfl hread
  obtain ⟨after',hmeant,heq'⟩ := two_symbols_placed rfl rfl h
  rw [heq, List.cons.injEq, OutputSection.mk.injEq] at heq'
  obtain ⟨rfl,-⟩ := heq'
  obtain ⟨hx,hy⟩ := two_symbols_rank target texts x y (readOrderFiles target texts)
  obtain ⟨hx',hy'⟩ := two_symbols_rank target texts x y entries'
  rw [← hx, ← hy, ← hx', ← hy']
  exact ⟨placed_alike hread hmeant,placed_alike hmeant hread⟩

theorem alike_of_placed {target : Target} {texts : List (Option (List UInt8))}
    (hread : readOrderFiles target texts = entries)
    (h : ∀ ctx : Context, ctx.target = target → ctx.orderFiles = texts →
      SectionsPlaced ctx entries' (sortSectionMembers ctx)) : RankedAlike entries entries' := by
  subst hread
  exact fun x y => two_symbols_alike (h (twoSymbols target texts x y) rfl rfl)

end Alike

/-! ## Order files -/

theorem read_lines {target : Target} {texts : List (List UInt8)} {meant : List (List Line)}
    (h : List.Forall₂ (fun text ls => lines text = ls.map (Line.bytes target) ∧ ∀ l ∈ ls, l.Ok)
      texts meant) :
    readOrderFiles target (texts.map some) =
      meant.flatten.filterMap fun l => readLine target (l.bytes target) := by
  induction h with
  | nil => rfl
  | cons hline _ ih =>
    rw [readOrderFiles] at ih ⊢
    rw [List.map_cons, List.flatMap_cons, ih, List.flatten_cons, List.filterMap_append,
      Option.elim_some, hline.1, List.filterMap_map]
    rfl

theorem lines_ok {target : Target} {texts : List (List UInt8)} {meant : List (List Line)}
    (h : List.Forall₂ (fun text ls => lines text = ls.map (Line.bytes target) ∧ ∀ l ∈ ls, l.Ok)
      texts meant) : ∀ l ∈ meant.flatten, l.Ok := by
  induction h with
  | nil => simp
  | cons hline _ ih =>
    rw [List.flatten_cons, List.forall_mem_append]
    exact ⟨hline.2,ih⟩

section Read
variable {target : Target} {texts : List (List UInt8)} {meant : List (List Line)}

theorem placed_of_alike
    (h : List.Forall₂ (fun text ls => lines text = ls.map (Line.bytes target) ∧ ∀ l ∈ ls, l.Ok)
      texts meant)
    (halike : RankedAlike (meant.flatten.filterMap fun l => readLine target (l.bytes target))
      (meant.flatten.filterMap Line.meaning))
    (ctx : Context) (htarget : ctx.target = target) (hfiles : ctx.orderFiles = texts.map some) :
    SectionsPlaced ctx (meant.flatten.filterMap Line.meaning) (sortSectionMembers ctx) := by
  subst htarget
  have hplaced := members_placed ctx
  rw [hfiles, read_lines h] at hplaced
  exact hplaced.imp fun osec osec' hosec => hosec.alike (halike.members ctx)

/-- Order files of plain lines order the members of every link. -/
theorem plain_lines_placed
    (h : List.Forall₂ (fun text ls => lines text = ls.map (Line.bytes target) ∧ ∀ l ∈ ls, l.Ok)
      texts meant)
    (hplain : ∀ l ∈ meant.flatten, l.Plain) (ctx : Context) (htarget : ctx.target = target)
    (hfiles : ctx.orderFiles = texts.map some) :
    SectionsPlaced ctx (meant.flatten.filterMap Line.meaning) (sortSectionMembers ctx) := by
  have hread : (meant.flatten.filterMap fun l => readLine target (l.bytes target)) =
      meant.flatten.filterMap Line.meaning :=
    List.filterMap_congr fun l hl => (read_as_meant (lines_ok h l hl)).2 (hplain l hl)
  refine placed_of_alike h ?_ ctx htarget hfiles
  rw [hread]
  exact fun _ _ => Iff.rfl

end Read

/-- Every link with the order files has its members in the order of their lines just
when these rank any two symbols alike as read and as meant. A line is read as meant
just if it is plain. -/
theorem order_files_place (target : Target) (texts : List (List UInt8)) (meant : List (List Line))
    (h : List.Forall₂ (fun text ls => lines text = ls.map (Line.bytes target) ∧ ∀ l ∈ ls, l.Ok)
      texts meant) :
    ((∀ ctx : Context, ctx.target = target → ctx.orderFiles = texts.map some →
        SectionsPlaced ctx (meant.flatten.filterMap Line.meaning) (sortSectionMembers ctx)) ↔
      RankedAlike (meant.flatten.filterMap fun l => readLine target (l.bytes target))
        (meant.flatten.filterMap Line.meaning)) ∧
    ∀ l ∈ meant.flatten, (readLine target (l.bytes target) = l.meaning ↔ l.Plain) := by
  exact ⟨⟨alike_of_placed (read_lines h),placed_of_alike h⟩,
    fun l hl => read_as_meant (lines_ok h l hl)⟩

/-! A line with a file and one without, and a method whose name has colons. -/

def plainLines : List Line :=
  [{ symbol := some (true,some (bytes "a.o"),bytes "_main"), comment := some (bytes " first") },
    { symbol := some (false,none,bytes "_print") }]

def plainText : List UInt8 := bytes "arm64:a.o:_main# first\n_print\n"

def methodName : Name := bytes "-[Foo set:to:]"

def methodText : List UInt8 := methodName ++ bytes "\n"

theorem plain_ok : ∀ l ∈ plainLines, l.Ok := by
  rw [plainLines, List.forall_mem_cons, List.forall_mem_singleton]
  refine ⟨⟨by simp,by simp,?_⟩,⟨by simp,by simp,?_⟩⟩
  · rintro _ ⟨⟩
    exact ⟨by decide,by decide +kernel,by rintro _ ⟨⟩; decide +kernel⟩
  · rintro _ ⟨⟩
    exact ⟨by decide,by decide +kernel,by simp⟩

theorem order_files_place_plain :
    SectionsPlaced (twoSymbols .arm64 [some plainText] (bytes "a.o",bytes "_main")
        (bytes "b.o",bytes "_print")) (plainLines.filterMap Line.meaning)
      (sortSectionMembers (twoSymbols .arm64 [some plainText] (bytes "a.o",bytes "_main")
        (bytes "b.o",bytes "_print"))) := by
  have hread : (plainLines.filterMap fun l => readLine .arm64 (l.bytes .arm64)) =
      plainLines.filterMap Line.meaning := by decide +kernel
  have h := order_files_place .arm64 [plainText] [plainLines]
    (.cons ⟨by decide +kernel,plain_ok⟩ .nil)
  refine h.1.2 ?_ _ rfl rfl
  rw [List.flatten_singleton, hread]
  exact fun _ _ => Iff.rfl

/-- A bare name with colons is taken for a file's. -/
theorem method_not_placed :
    lines methodText = [Line.bytes .arm64 { symbol := some (false,none,methodName) }] ∧
      Line.Ok { symbol := some (false,none,methodName) } ∧
      ¬SectionsPlaced
        (twoSymbols .arm64 [some methodText] (bytes "a.o",methodName) (bytes "a.o",bytes "_main"))
        [{ name := methodName, file := none }]
        (sortSectionMembers (twoSymbols .arm64 [some methodText] (bytes "a.o",methodName)
          (bytes "a.o",bytes "_main"))) := by
  refine ⟨by decide +kernel,⟨by simp,by simp,?_⟩,?_⟩
  · rintro _ ⟨⟩
    exact ⟨by decide,by decide +kernel,by simp⟩
  · intro h
    have hmeant : symbolRank [{ name := methodName, file := none }] (bytes "a.o",methodName) <
        symbolRank [{ name := methodName, file := none }] (bytes "a.o",bytes "_main") := by
      decide +kernel
    have hread := (two_symbols_alike h).2 hmeant
    exact absurd hread (by decide +kernel)

end MoldMacho.OrderFiles
