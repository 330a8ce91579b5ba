import Mathlib.Data.DFinsupp.WellFounded
import Mathlib.Order.WithBot
import MoldMacho.Lib.Bytes
import MoldMacho.Lib.LeastLabels
import MoldMacho.Passes.DylibRanks

/-!
# The search for the nearest re-exporter

The search that ranks the re-exported libraries ends, and leaves for each the
least of its ways from a named library: by their lengths, then by the library
that re-exports it last.
-/

set_option autoImplicit false

namespace MoldMacho.DylibRanks
open MoldMacho.Dylibs MoldMacho.Definitions MoldMacho.LeastLabels

/-! ## The order of keys -/

/-- What keys compare by. -/
def keyOrder (k : Key) : ℕ ×ₗ List ℕ := toLex (k.1,k.2.map UInt8.toNat)

theorem key_lt {k old : Key} : keyLt k old = true ↔ keyOrder k < keyOrder old := by
  rw [keyLt, keyOrder, keyOrder, Prod.Lex.toLex_lt_toLex]
  simp only [Bool.or_eq_true, Bool.and_eq_true, decide_eq_true_eq, beq_iff_eq, Bytes.bytes_lt]

theorem key_order_mono (m n : ℕ) (via : Name) (h : m ≤ n) : keyOrder (m,via) ≤ keyOrder (n,via) := by
  rw [keyOrder, keyOrder, Prod.Lex.toLex_le_toLex]
  rcases Nat.lt_or_eq_of_le h with h | h
  · exact .inl h
  · exact .inr ⟨h,le_refl _⟩

theorem key_order_first (k k' : Key) (h : keyOrder k ≤ keyOrder k') : k.1 ≤ k'.1 := by
  rw [keyOrder, keyOrder, Prod.Lex.toLex_le_toLex] at h
  rcases h with h | h
  · exact h.le
  · exact h.1.le

/-! ## The graph -/

section Graph
variable (dylibs : List DylibFile)

/-- A dylib re-exports another, so far from it and through that library. -/
def Reexports (i lib hops : ℕ) (via : Name) : Prop :=
  ∃ d, dylibs[i]? = some d ∧ ⟨lib,hops,via⟩ ∈ d.reexported

def Implicit (i : ℕ) : Prop := ∃ d, dylibs[i]? = some d ∧ d.isImplicit = true

def Named (autolinked : Bool) (i : ℕ) : Prop :=
  ∃ d, dylibs[i]? = some d ∧ d.isImplicit = false ∧ d.isAutolinked = autolinked

/-- The edges a search follows: to libraries no one names that have no rank. -/
def Followed (ranks : ℕ → ℕ) (i lib hops : ℕ) (via : Name) : Prop :=
  Reexports dylibs i lib hops via ∧ Implicit dylibs lib ∧ ranks lib = rankMax

end Graph

/-! ## The search -/

section Search
variable {dylibs : List DylibFile} {ranks : ℕ → ℕ}

/-- Whether a search takes ways to a library. -/
def Admits (dylibs : List DylibFile) (ranks : ℕ → ℕ) (lib : ℕ) : Prop :=
  Implicit dylibs lib ∧ ranks lib = rankMax

/-- No label gets worse, and none leaves the queue. -/
structure Better (near next : Near) : Prop where
  keys : ∀ b k, near.key b = some k → ∃ k', next.key b = some k' ∧ keyOrder k' ≤ keyOrder k
  queue : ∀ x ∈ near.queue, x ∈ next.queue

theorem Better.refl (near : Near) : Better near near :=
  ⟨fun _ k hk => ⟨k,hk,le_refl _⟩,fun _ hx => hx⟩

theorem Better.trans {a b c : Near} (hab : Better a b) (hbc : Better b c) : Better a c := by
  refine ⟨fun v k hk => ?_,fun x hx => hbc.queue x (hab.queue x hx)⟩
  obtain ⟨k',hk',hle⟩ := hab.keys v k hk
  obtain ⟨k'',hk'',hle'⟩ := hbc.keys v k' hk'
  exact ⟨k'',hk'',hle'.trans hle⟩

/-- What following an edge does: nothing, or a better label for its end. -/
theorem relax_cases (dylibs : List DylibFile) (ranks : ℕ → ℕ) (depth : ℕ) (near : Near)
    (edge : ReexportEdge) :
    (relax dylibs ranks depth near edge = near ∧ (Admits dylibs ranks edge.dylib →
      ∃ k, near.key edge.dylib = some k ∧ keyOrder k ≤ keyOrder (depth+edge.hops,edge.via))) ∨
    (Admits dylibs ranks edge.dylib ∧
      (∀ k, near.key edge.dylib = some k → keyOrder (depth+edge.hops,edge.via) < keyOrder k) ∧
      relax dylibs ranks depth near edge =
        { key := Function.update near.key edge.dylib (some (depth+edge.hops,edge.via))
          queue := near.queue ++ [(edge.dylib,depth+edge.hops)] }) := by
  unfold relax
  dsimp only
  cases hd : dylibs[edge.dylib]? with
  | none =>
    refine .inl ⟨rfl,?_⟩
    rintro ⟨⟨d,hd',-⟩,-⟩
    rw [hd] at hd'
    cases hd'
  | some d =>
    dsimp only
    split
    · next h =>
      simp only [Bool.and_eq_true, beq_iff_eq] at h
      obtain ⟨⟨himplicit,hrank⟩,hlt⟩ := h
      refine .inr ⟨⟨⟨d,hd,himplicit⟩,hrank⟩,fun k hk => ?_,rfl⟩
      rw [hk, Option.all_some] at hlt
      exact key_lt.mp hlt
    · next h =>
      refine .inl ⟨rfl,?_⟩
      rintro ⟨⟨d',hd',himplicit⟩,hrank⟩
      rw [hd] at hd'
      obtain rfl := Option.some.inj hd'
      simp only [himplicit, hrank, beq_self_eq_true, Bool.true_and] at h
      cases hk : near.key edge.dylib with
      | none => simp [hk] at h
      | some k =>
        rw [hk, Option.all_some] at h
        exact ⟨k,rfl,not_lt.mp fun hlt => h (key_lt.mpr hlt)⟩

/-- What following some edges of a library does. -/
structure Relaxed (dylibs : List DylibFile) (ranks : ℕ → ℕ) (depth : ℕ) (edges : List ReexportEdge)
    (near next : Near) : Prop where
  better : Better near next
  settled : ∀ edge ∈ edges, Admits dylibs ranks edge.dylib →
    ∃ k, next.key edge.dylib = some k ∧ keyOrder k ≤ keyOrder (depth+edge.hops,edge.via)
  keys : ∀ b k, next.key b = some k → near.key b = some k ∨
    (b,k.1) ∈ next.queue ∧ ∃ edge ∈ edges, Admits dylibs ranks b ∧ edge.dylib = b ∧
      k = (depth+edge.hops,edge.via)
  queue : ∀ x ∈ next.queue, x ∈ near.queue ∨
    ∃ edge ∈ edges, Admits dylibs ranks edge.dylib ∧ x = (edge.dylib,depth+edge.hops)

theorem relaxed_one (dylibs : List DylibFile) (ranks : ℕ → ℕ) (depth : ℕ) (near : Near) (edge : ReexportEdge) :
    Relaxed dylibs ranks depth [edge] near (relax dylibs ranks depth near edge) := by
  rcases relax_cases dylibs ranks depth near edge with ⟨hsame,hold⟩ | ⟨hadmits,hlt,hnew⟩
  · rw [hsame]
    refine ⟨Better.refl near,fun e he hadmits => ?_,fun _ _ hk => .inl hk,fun _ hx => .inl hx⟩
    obtain rfl := List.mem_singleton.mp he
    exact hold hadmits
  · rw [hnew]
    refine ⟨⟨fun b k hk => ?_,fun x hx => List.mem_append_left _ hx⟩,fun e he _ => ?_,
      fun b k hk => ?_,fun x hx => ?_⟩
    · by_cases hb : b = edge.dylib
      · subst hb
        exact ⟨_,Function.update_self _ _ _,(hlt k hk).le⟩
      · exact ⟨k,(Function.update_of_ne hb _ _).trans hk,le_refl _⟩
    · obtain rfl := List.mem_singleton.mp he
      exact ⟨_,Function.update_self _ _ _,le_refl _⟩
    · by_cases hb : b = edge.dylib
      · subst hb
        have hk' : some (depth+edge.hops,edge.via) = some k := by simpa using hk
        obtain rfl := Option.some.inj hk'
        exact .inr ⟨List.mem_append_right _ (List.mem_singleton.mpr rfl),edge,
          List.mem_singleton.mpr rfl,hadmits,rfl,rfl⟩
      · exact .inl ((Function.update_of_ne hb _ _).symm.trans hk)
    · rcases List.mem_append.mp hx with hx | hx
      · exact .inl hx
      · exact .inr ⟨edge,List.mem_singleton.mpr rfl,hadmits,List.mem_singleton.mp hx⟩

theorem relaxed_all (dylibs : List DylibFile) (ranks : ℕ → ℕ) (depth : ℕ) (edges : List ReexportEdge) (near : Near) :
    Relaxed dylibs ranks depth edges near (edges.foldl (relax dylibs ranks depth) near) := by
  induction edges generalizing near with
  | nil =>
    exact ⟨Better.refl near,by simp,fun _ _ hk => .inl hk,fun _ hx => .inl hx⟩
  | cons edge edges ih =>
    have hone := relaxed_one dylibs ranks depth near edge
    have hrest := ih (relax dylibs ranks depth near edge)
    rw [List.foldl_cons]
    refine ⟨hone.better.trans hrest.better,fun e he hadmits => ?_,fun b k hk => ?_,fun x hx => ?_⟩
    · rcases List.mem_cons.mp he with rfl | he
      · obtain ⟨k,hk,hle⟩ := hone.settled e (by simp) hadmits
        obtain ⟨k',hk',hle'⟩ := hrest.better.keys _ k hk
        exact ⟨k',hk',hle'.trans hle⟩
      · exact hrest.settled e he hadmits
    · rcases hrest.keys b k hk with hk | ⟨hq,e,he,hadmits,hb,heq⟩
      · rcases hone.keys b k hk with hk | ⟨hq,e,he,hadmits,hb,heq⟩
        · exact .inl hk
        · obtain rfl := List.mem_singleton.mp he
          exact .inr ⟨hrest.better.queue _ hq,e,by simp,hadmits,hb,heq⟩
      · exact .inr ⟨hq,e,List.mem_cons_of_mem _ he,hadmits,hb,heq⟩
    · rcases hrest.queue x hx with hx | ⟨e,he,hadmits,heq⟩
      · rcases hone.queue x hx with hx | ⟨e,he,hadmits,heq⟩
        · exact .inl hx
        · obtain rfl := List.mem_singleton.mp he
          exact .inr ⟨e,by simp,hadmits,heq⟩
      · exact .inr ⟨e,List.mem_cons_of_mem _ he,hadmits,heq⟩

/-! ### The invariant -/

/-- The search has found ways only, and has followed the edges of every library
that waits in the queue no more. -/
structure Searched (dylibs : List DylibFile) (ranks : ℕ → ℕ) (autolinked : Bool) (near : Near) :
    Prop where
  real : ∀ b k, near.key b = some k → Labelled (Named dylibs autolinked) (Followed dylibs ranks) b k
  ways : ∀ x ∈ near.queue, Walk (Named dylibs autolinked) (Followed dylibs ranks) x.1 x.2
  roots : ∀ i, Named dylibs autolinked i →
    (i,0) ∈ near.queue ∨ Settled keyOrder (Followed dylibs ranks) near.key i 0
  keys : ∀ i k, near.key i = some k →
    (i,k.1) ∈ near.queue ∨ Settled keyOrder (Followed dylibs ranks) near.key i k.1

theorem Better.settled {near next : Near} (h : Better near next) {i depth : ℕ}
    (hs : Settled keyOrder (Followed dylibs ranks) near.key i depth) :
    Settled keyOrder (Followed dylibs ranks) next.key i depth := by
  intro b hops via he
  obtain ⟨k,hk,hle⟩ := hs b hops via he
  obtain ⟨k',hk',hle'⟩ := h.keys b k hk
  exact ⟨k',hk',hle'.trans hle⟩

theorem searched_start (ranks : ℕ → ℕ) (autolinked : Bool) :
    Searched dylibs ranks autolinked
      { key := fun _ => none, queue := namedQueue dylibs autolinked } := by
  have hqueue (i depth : ℕ) :
      (i,depth) ∈ namedQueue dylibs autolinked ↔ Named dylibs autolinked i ∧ depth = 0 := by
    simp only [namedQueue, List.mem_map, List.mem_filter, List.mem_range, Prod.mk.injEq, Named]
    constructor
    · rintro ⟨j,⟨hj,hany⟩,rfl,rfl⟩
      obtain ⟨d,hd⟩ : ∃ d, dylibs[j]? = some d := ⟨_,List.getElem?_eq_getElem hj⟩
      simp only [hd, Option.any_some, Bool.and_eq_true, Bool.not_eq_true', beq_iff_eq] at hany
      exact ⟨⟨d,hd,hany.1,hany.2⟩,rfl⟩
    · rintro ⟨⟨d,hd,himplicit,hauto⟩,rfl⟩
      refine ⟨i,⟨(List.getElem?_eq_some_iff.1 hd).1,?_⟩,rfl,rfl⟩
      simp [hd, himplicit, hauto]
  refine ⟨fun _ _ hk => (nomatch hk),?_,fun i hi => .inl ((hqueue i 0).mpr ⟨hi,rfl⟩),
    fun _ _ hk => (nomatch hk)⟩
  rintro ⟨i,depth⟩ hx
  obtain ⟨hi,rfl⟩ := (hqueue i depth).mp hx
  exact .root hi

/-- The edges of the library taken from the queue. -/
def edgesOf (dylibs : List DylibFile) (i : ℕ) : List ReexportEdge :=
  (dylibs[i]?.map DylibFile.reexported).getD []

theorem mem_edges_of {i : ℕ} {edge : ReexportEdge} :
    edge ∈ edgesOf dylibs i ↔ Reexports dylibs i edge.dylib edge.hops edge.via := by
  rw [edgesOf, Reexports]
  cases dylibs[i]? with
  | none => simp
  | some d => simp

theorem searched_step {autolinked : Bool} {near : Near} {queue : List (ℕ × ℕ)} {i depth : ℕ}
    (h : Searched dylibs ranks autolinked near) (hq : near.queue = queue ++ [(i,depth)]) :
    Searched dylibs ranks autolinked
      ((edgesOf dylibs i).foldl (relax dylibs ranks depth) { near with queue }) := by
  have hall := relaxed_all dylibs ranks depth (edgesOf dylibs i) { near with queue }
  have hway : Walk (Named dylibs autolinked) (Followed dylibs ranks) i depth :=
    h.ways (i,depth) (by rw [hq]; simp)
  have hsettled : Settled keyOrder (Followed dylibs ranks)
      ((edgesOf dylibs i).foldl (relax dylibs ranks depth) { near with queue }).key i depth := by
    rintro b hops via ⟨hedge,hadmits⟩
    exact hall.settled ⟨b,hops,via⟩ (mem_edges_of.mpr hedge) hadmits
  have hrest (j m : ℕ) (hj : (j,m) ∈ near.queue ∨ Settled keyOrder (Followed dylibs ranks) near.key j m) :
      (j,m) ∈ ((edgesOf dylibs i).foldl (relax dylibs ranks depth) { near with queue }).queue ∨
        Settled keyOrder (Followed dylibs ranks)
          ((edgesOf dylibs i).foldl (relax dylibs ranks depth) { near with queue }).key j m := by
    rcases hj with hj | hj
    · rw [hq] at hj
      rcases List.mem_append.mp hj with hj | hj
      · exact .inl (hall.better.queue _ hj)
      · obtain ⟨rfl,rfl⟩ := Prod.mk.inj (List.mem_singleton.mp hj)
        exact .inr hsettled
    · exact .inr (hall.better.settled hj)
  refine ⟨fun b k hk => ?_,fun x hx => ?_,fun j hj => hrest j 0 (h.roots j hj),fun j k hk => ?_⟩
  · rcases hall.keys b k hk with hk | ⟨-,edge,he,hadmits,rfl,rfl⟩
    · exact h.real b k hk
    · exact ⟨i,depth,edge.hops,hway,⟨mem_edges_of.mp he,hadmits⟩,rfl⟩
  · rcases hall.queue x hx with hx | ⟨edge,he,hadmits,rfl⟩
    · exact h.ways x (by rw [hq]; exact List.mem_append_left _ hx)
    · exact .step hway ⟨mem_edges_of.mp he,hadmits⟩
  · rcases hall.keys j k hk with hk | ⟨hq,-⟩
    · exact hrest j k.1 (h.keys j k hk)
    · exact .inl hq

/-- An empty queue leaves the least labels. -/
theorem searched_done {autolinked : Bool} {near : Near} (h : Searched dylibs ranks autolinked near)
    (hq : near.queue = []) (b : ℕ) :
    Least keyOrder (Named dylibs autolinked) (Followed dylibs ranks) b (near.key b) := by
  refine least_of_settled key_order_mono key_order_first h.real (fun i hi => ?_) (fun i k hk => ?_) b
  · rcases h.roots i hi with hmem | hs
    · rw [hq] at hmem
      cases hmem
    · exact hs
  · rcases h.keys i k hk with hmem | hs
    · rw [hq] at hmem
      cases hmem
    · exact hs

/-! ### The end of the search -/

/-- The names that edges go through. -/
def vias (dylibs : List DylibFile) : List (List ℕ) :=
  dylibs.flatMap fun d => d.reexported.map fun edge => edge.via.map UInt8.toNat

/-- A key by how many names come before its own. -/
def keyRank (dylibs : List DylibFile) (k : Key) : ℕ ×ₗ ℕ :=
  toLex (k.1,((vias dylibs).filter (· < k.2.map UInt8.toNat)).length)

theorem key_rank_lt {k old : Key} (hvia : k.2.map UInt8.toNat ∈ vias dylibs)
    (h : keyOrder k < keyOrder old) : keyRank dylibs k < keyRank dylibs old := by
  rw [keyOrder, keyOrder, Prod.Lex.toLex_lt_toLex] at h
  rw [keyRank, keyRank, Prod.Lex.toLex_lt_toLex]
  rcases h with h | ⟨h,hlt⟩
  · exact .inl h
  · refine .inr ⟨h,?_⟩
    have hsub : ((vias dylibs).filter (· < k.2.map UInt8.toNat)).Sublist
        ((vias dylibs).filter (· < old.2.map UInt8.toNat)) :=
      List.monotone_filter_right _ fun v hv => by
        simp only [decide_eq_true_eq] at hv ⊢
        exact hv.trans hlt
    refine lt_of_le_of_ne hsub.length_le fun heq => ?_
    have hsame := hsub.eq_of_length heq
    have hmem : k.2.map UInt8.toNat ∈ (vias dylibs).filter (· < old.2.map UInt8.toNat) :=
      List.mem_filter.mpr ⟨hvia,by simpa using hlt⟩
    rw [← hsame] at hmem
    have := List.of_mem_filter hmem
    simp at this

/-- How far the labels of a search have come. -/
def progress (dylibs : List DylibFile) (near : Near) : Fin dylibs.length → WithTop (ℕ ×ₗ ℕ) :=
  fun i => (near.key i).elim ⊤ fun k => (keyRank dylibs k : WithTop (ℕ ×ₗ ℕ))

theorem relax_progress (ranks : ℕ → ℕ) (depth : ℕ) (near : Near) {i : ℕ} {edge : ReexportEdge}
    (he : edge ∈ edgesOf dylibs i) :
    relax dylibs ranks depth near edge = near ∨
      progress dylibs (relax dylibs ranks depth near edge) < progress dylibs near := by
  rcases relax_cases dylibs ranks depth near edge with ⟨hsame,-⟩ | ⟨hadmits,hlt,hnew⟩
  · exact .inl hsame
  · right
    obtain ⟨⟨d,hd,-⟩,-⟩ := hadmits
    have hvia : edge.via.map UInt8.toNat ∈ vias dylibs := by
      obtain ⟨d',hd',hmem⟩ := mem_edges_of.mp he
      exact List.mem_flatMap.mpr ⟨d',List.mem_of_getElem? hd',List.mem_map.mpr ⟨_,hmem,rfl⟩⟩
    have hat : progress dylibs (relax dylibs ranks depth near edge)
        ⟨edge.dylib,(List.getElem?_eq_some_iff.1 hd).1⟩ < progress dylibs near
        ⟨edge.dylib,(List.getElem?_eq_some_iff.1 hd).1⟩ := by
      rw [hnew, progress, progress]
      dsimp only
      rw [Function.update_self]
      cases hk : near.key edge.dylib with
      | none => exact WithTop.coe_lt_top _
      | some k => exact WithTop.coe_lt_coe.mpr (key_rank_lt hvia (hlt k hk))
    refine Pi.lt_def.mpr ⟨fun j => ?_,_,hat⟩
    by_cases hj : j.val = edge.dylib
    · have : j = ⟨edge.dylib,(List.getElem?_eq_some_iff.1 hd).1⟩ := Fin.ext hj
      rw [this]
      exact hat.le
    · rw [hnew, progress, progress]
      dsimp only
      rw [Function.update_of_ne hj]

theorem relax_all_progress (ranks : ℕ → ℕ) (depth : ℕ) {i : ℕ} {edges : List ReexportEdge}
    (he : ∀ edge ∈ edges, edge ∈ edgesOf dylibs i) (near : Near) :
    edges.foldl (relax dylibs ranks depth) near = near ∨
      progress dylibs (edges.foldl (relax dylibs ranks depth) near) < progress dylibs near := by
  induction edges generalizing near with
  | nil => exact .inl rfl
  | cons edge edges ih =>
    rw [List.foldl_cons]
    have hone := relax_progress ranks depth near (he edge (by simp))
    have hrest := ih (fun e hmem => he e (by simp [hmem])) (relax dylibs ranks depth near edge)
    rcases hone with hone | hone
    · rwa [hone] at hrest ⊢
    · rcases hrest with hrest | hrest
      · rw [hrest]
        exact .inr hone
      · exact .inr (hrest.trans hone)

theorem nearest_more {fuel : ℕ} {near : Near} {key : ℕ → Option Key}
    (h : nearest dylibs ranks fuel near = some key) (more : ℕ) :
    nearest dylibs ranks (fuel+more) near = some key := by
  induction fuel generalizing near with
  | zero => cases h
  | succ fuel ih =>
    rw [Nat.succ_add, nearest]
    rw [nearest] at h
    cases hq : near.queue.getLast? with
    | none =>
      rw [hq] at h
      exact h
    | some x =>
      rw [hq] at h
      exact ih h

/-- The search ends, with the least labels. -/
theorem nearest_ends {autolinked : Bool} (near : Near) (h : Searched dylibs ranks autolinked near) :
    ∃ fuel key, nearest dylibs ranks fuel near = some key ∧
      ∀ b, Least keyOrder (Named dylibs autolinked) (Followed dylibs ranks) b (key b) := by
  obtain ⟨m,hm⟩ : ∃ m : (Fin dylibs.length → WithTop (ℕ ×ₗ ℕ)) ×ₗ ℕ,
      m = toLex (progress dylibs near,near.queue.length) := ⟨_,rfl⟩
  induction m using WellFoundedLT.induction generalizing near with
  | ind m ih =>
    cases hq : near.queue.getLast? with
    | none =>
      refine ⟨1,near.key,by rw [nearest, hq],searched_done h ?_⟩
      simpa using hq
    | some x =>
      obtain ⟨i,depth⟩ := x
      obtain ⟨queue,hqueue⟩ := List.getLast?_eq_some_iff.mp hq
      have hdrop : near.queue.dropLast = queue := by rw [hqueue, List.dropLast_concat]
      have hlt : toLex (progress dylibs
            ((edgesOf dylibs i).foldl (relax dylibs ranks depth) { near with queue }),
          ((edgesOf dylibs i).foldl (relax dylibs ranks depth) { near with queue }).queue.length) < m := by
        rw [hm, Prod.Lex.toLex_lt_toLex]
        have hall : ∀ edge ∈ edgesOf dylibs i, edge ∈ edgesOf dylibs i := fun _ he => he
        rcases relax_all_progress ranks depth hall { near with queue } with hsame | hless
        · rw [hsame]
          refine .inr ⟨rfl,?_⟩
          rw [hqueue]
          simp
        · exact .inl hless
      obtain ⟨fuel,key,hkey,hleast⟩ := ih _ hlt _ (searched_step h hqueue) rfl
      refine ⟨fuel+1,key,?_,hleast⟩
      rw [nearest, hq]
      dsimp only
      rw [hdrop]
      exact hkey

end Search

end MoldMacho.DylibRanks
