import MoldMacho.Passes.DylibRanks

/-!
# The dylibs that come later

Dylibs appended to those of a link, which re-export none of them and are
re-exported by none, leave the order of those and what they bind symbols to as
it was.
-/

set_option autoImplicit false

namespace MoldMacho.DylibRanks
open MoldMacho.Dylibs MoldMacho.Definitions MoldMacho.StableSort

section
variable (dylibs : List DylibFile) (num : ℕ)

/-- The dylibs from `num` on re-export none of those before and are re-exported
by none. -/
structure Apart : Prop where
  earlier : ∀ i d, dylibs[i]? = some d → i < num → ∀ edge ∈ d.reexported, edge.dylib < num
  later : ∀ i d, dylibs[i]? = some d → num ≤ i → ∀ edge ∈ d.reexported, num ≤ edge.dylib
  merged : ∀ i d j e, dylibs[i]? = some d → i < num → dylibs[j]? = some e → num ≤ j →
    e.installName ∉ d.mergedReexports

/-- The dylibs' places in the input order are 32-bit numbers. -/
structure Narrow : Prop where
  priority : ∀ d ∈ dylibs, d.priority < 2^32
  namedAt : ∀ d ∈ dylibs, ∀ place, d.namedAt = some place → place < 2^32
  count : dylibs.length < 2^32

end

/-! ## Ranks as numbers -/

theorem phase_bits_or {phase minor : ℕ} (hp : phase < 256) (hm : minor < 2^32) :
    phaseBits phase ||| minor = (512 + phase) * 2^32 + minor := by
  have hphase : phaseBits phase = 2^32 * (512 + phase) := by
    have hlow : phase * 2^32 < 2^40 := by omega
    have h := Nat.two_pow_add_eq_or_of_lt hlow 2
    rw [phaseBits, Nat.shiftLeft_eq, Nat.shiftLeft_eq, Nat.mul_comm 2, ← h]
    omega
  rw [hphase, ← Nat.two_pow_add_eq_or_of_lt hm, Nat.mul_comm]

/-- Two rankings of which one ranks the dylibs before `num` as the other does. -/
structure SameOrder (num : ℕ) (f g : ℕ → ℕ) : Prop where
  unranked : ∀ i < num, f i = rankMax ↔ g i = rankMax
  phase : ∀ i < num, f i / 2^32 = g i / 2^32
  lt : ∀ i < num, ∀ j < num, f i / 2^32 = f j / 2^32 → (f i < f j ↔ g i < g j)

/-- Ranks those of `p` in a phase of their own. -/
def overlay (phase : ℕ) (p : ℕ → Bool) (minor ranks : ℕ → ℕ) (i : ℕ) : ℕ :=
  if p i then phaseBits phase ||| minor i else ranks i

section Overlay
variable {num phase : ℕ} {p q : ℕ → Bool} {minor minor' f g : ℕ → ℕ}

theorem overlay_phase (hphase : phase < 256) (hminor : ∀ i, minor i < 2^32) (i : ℕ) :
    overlay phase p minor f i / 2^32 = if p i then 512 + phase else f i / 2^32 := by
  rw [overlay]
  split
  · rw [phase_bits_or hphase (hminor i)]
    have := hminor i
    omega
  · rfl

theorem overlay_max (hphase : phase < 256) (hminor : ∀ i, minor i < 2^32) (i : ℕ) :
    overlay phase p minor f i = rankMax ↔ p i = false ∧ f i = rankMax := by
  rw [overlay]
  cases hp : p i with
  | false => simp
  | true =>
    rw [if_pos rfl, phase_bits_or hphase (hminor i)]
    have := hminor i
    simp only [rankMax, Bool.true_eq_false, false_and, iff_false]
    omega

theorem overlay_same (h : SameOrder num f g) (hphase : phase < 256)
    (hminor : ∀ i, minor i < 2^32) (hminor' : ∀ i, minor' i < 2^32)
    (hp : ∀ i < num, p i = q i) (hfresh : ∀ i, f i / 2^32 ≠ 512 + phase)
    (hlt : ∀ i < num, ∀ j < num, p i = true → p j = true →
      (minor i < minor j ↔ minor' i < minor' j)) :
    SameOrder num (overlay phase p minor f) (overlay phase q minor' g) where
  unranked := by
    intro i hi
    rw [overlay_max hphase hminor, overlay_max hphase hminor', hp i hi, h.unranked i hi]
  phase := by
    intro i hi
    rw [overlay_phase hphase hminor, overlay_phase hphase hminor', hp i hi, h.phase i hi]
  lt := by
    intro i hi j hj heq
    rw [overlay_phase hphase hminor, overlay_phase hphase hminor] at heq
    have hfi := hfresh i
    have hfj := hfresh j
    simp only [overlay, ← hp i hi, ← hp j hj]
    cases hpi : p i <;> cases hpj : p j <;> simp only [hpi, hpj, if_true] at heq ⊢
    · exact h.lt i hi j hj heq
    · exact absurd heq hfi
    · exact absurd heq.symm hfj
    · have := hlt i hi j hj hpi hpj
      rw [phase_bits_or hphase (hminor i), phase_bits_or hphase (hminor j),
        phase_bits_or hphase (hminor' i), phase_bits_or hphase (hminor' j)]
      omega

end Overlay

/-! ## The search for the nearest -/

/-- A search of all dylibs knows of the ones before `num` what a search of
those alone does. -/
structure Keeps (num : ℕ) (near near' : Near) : Prop where
  key : ∀ i < num, near.key i = near'.key i
  queue : near.queue.filter (fun e => e.1 < num) = near'.queue

section Search
variable {dylibs : List DylibFile} {num : ℕ} {f g : ℕ → ℕ} {near near' : Near}

theorem take_get {i : ℕ} (h : i < num) : (dylibs.take num)[i]? = dylibs[i]? :=
  List.getElem?_take_of_lt h

theorem relax_earlier (hkeeps : Keeps num near near')
    (hsame : ∀ i < num, f i = rankMax ↔ g i = rankMax) (depth : ℕ) {edge : ReexportEdge}
    (hedge : edge.dylib < num) :
    Keeps num (relax dylibs f depth near edge) (relax (dylibs.take num) g depth near' edge) := by
  have hrank : (f edge.dylib == rankMax) = (g edge.dylib == rankMax) := by
    rw [Bool.eq_iff_iff, beq_iff_eq, beq_iff_eq]
    exact hsame _ hedge
  simp only [relax, take_get hedge, hrank, hkeeps.key _ hedge]
  split
  · split
    · constructor
      · intro i hi
        dsimp only
        by_cases heq : i = edge.dylib
        · rw [heq, Function.update_self, Function.update_self]
        · rw [Function.update_of_ne heq, Function.update_of_ne heq, hkeeps.key i hi]
      · simp [List.filter_append, hkeeps.queue, hedge]
    · exact hkeeps
  · exact hkeeps

theorem relax_later (hkeeps : Keeps num near near') (depth : ℕ) {edge : ReexportEdge}
    (hedge : num ≤ edge.dylib) : Keeps num (relax dylibs f depth near edge) near' := by
  simp only [relax]
  split
  · split
    · constructor
      · intro i hi
        have hne : i ≠ edge.dylib := by omega
        dsimp only
        rw [Function.update_of_ne hne, hkeeps.key i hi]
      · simp [List.filter_append, hkeeps.queue, hedge]
    · exact hkeeps
  · exact hkeeps

theorem relax_all_earlier (hsame : ∀ i < num, f i = rankMax ↔ g i = rankMax) (depth : ℕ)
    {edges : List ReexportEdge} (hedges : ∀ edge ∈ edges, edge.dylib < num)
    (hkeeps : Keeps num near near') :
    Keeps num (edges.foldl (relax dylibs f depth) near)
      (edges.foldl (relax (dylibs.take num) g depth) near') := by
  induction edges generalizing near near' with
  | nil => exact hkeeps
  | cons edge edges ih =>
    rw [List.forall_mem_cons] at hedges
    exact ih hedges.2 (relax_earlier hkeeps hsame depth hedges.1)

theorem relax_all_later (depth : ℕ) {edges : List ReexportEdge}
    (hedges : ∀ edge ∈ edges, num ≤ edge.dylib) (hkeeps : Keeps num near near') :
    Keeps num (edges.foldl (relax dylibs f depth) near) near' := by
  induction edges generalizing near with
  | nil => exact hkeeps
  | cons edge edges ih =>
    rw [List.forall_mem_cons] at hedges
    exact ih hedges.2 (relax_later hkeeps depth hedges.1)

theorem edges_of {P : ReexportEdge → Prop} {i : ℕ}
    (h : ∀ d, dylibs[i]? = some d → ∀ edge ∈ d.reexported, P edge) :
    ∀ edge ∈ (dylibs[i]?.map DylibFile.reexported).getD [], P edge := by
  cases hd : dylibs[i]? with
  | none => simp
  | some d => exact h d hd

/-- The search of all dylibs finds those before `num` where the search of those
alone does. -/
theorem nearest_keeps (hapart : Apart dylibs num)
    (hsame : ∀ i < num, f i = rankMax ↔ g i = rankMax) {fuel fuel' : ℕ}
    {key key' : ℕ → Option Key} (hkeeps : Keeps num near near')
    (h : nearest dylibs f fuel near = some key)
    (h' : nearest (dylibs.take num) g fuel' near' = some key') : ∀ i < num, key i = key' i := by
  induction fuel generalizing near near' fuel' with
  | zero => cases h
  | succ fuel ih =>
    cases fuel' with
    | zero => cases h'
    | succ fuel' =>
      rw [nearest] at h
      cases hlast : near.queue.getLast? with
      | none =>
        rw [hlast] at h
        have hempty : near.queue = [] := List.getLast?_eq_none_iff.1 hlast
        have hempty' : near'.queue = [] := by rw [← hkeeps.queue, hempty]; rfl
        rw [nearest, hempty'] at h'
        cases h
        cases h'
        exact hkeeps.key
      | some next =>
        obtain ⟨i,depth⟩ := next
        rw [hlast] at h
        obtain ⟨rest,hrest⟩ := List.getLast?_eq_some_iff.1 hlast
        have hdrop : near.queue.dropLast = rest := by rw [hrest, List.dropLast_concat]
        simp only [hdrop] at h
        by_cases hi : i < num
        · have hqueue : near'.queue = rest.filter (fun e => e.1 < num) ++ [(i,depth)] := by
            rw [← hkeeps.queue, hrest, List.filter_append]
            simp [hi]
          rw [nearest, hqueue, List.getLast?_concat] at h'
          simp only [List.dropLast_concat, take_get hi] at h'
          have hrest' : Keeps num { near with queue := rest }
              { near' with queue := rest.filter (fun e => e.1 < num) } := ⟨hkeeps.key,rfl⟩
          exact ih (relax_all_earlier hsame depth
            (edges_of fun d hd => hapart.earlier i d hd hi) hrest') h h'
        · have hqueue : rest.filter (fun e => e.1 < num) = near'.queue := by
            rw [← hkeeps.queue, hrest, List.filter_append]
            simp [hi]
          have hrest' : Keeps num { near with queue := rest } near' := ⟨hkeeps.key,hqueue⟩
          exact ih (relax_all_later depth
            (edges_of fun d hd => hapart.later i d hd (Nat.le_of_not_lt hi)) hrest') h h'

theorem range_min (num n : ℕ) : List.range (min num n) = (List.range n).filter fun i => i < num := by
  rcases Nat.le_total num n with h | h
  · obtain ⟨k,rfl⟩ := Nat.exists_eq_add_of_le h
    have hlow : (List.range num).filter (fun i => i < num) = List.range num :=
      List.filter_eq_self.2 (by simp)
    have hhigh : ((List.range k).map (num + ·)).filter (fun i => i < num) = [] :=
      List.filter_eq_nil_iff.2 (by simp)
    rw [Nat.min_eq_left h, List.range_add, List.filter_append, hlow, hhigh, List.append_nil]
  · rw [Nat.min_eq_right h, List.filter_eq_self.2]
    intro i hi
    have hlt := List.mem_range.1 hi
    exact decide_eq_true (by omega)

theorem named_queue_earlier (dylibs : List DylibFile) (num : ℕ) (autolinked : Bool) :
    (namedQueue dylibs autolinked).filter (fun e => e.1 < num) =
      namedQueue (dylibs.take num) autolinked := by
  rw [namedQueue, namedQueue, List.length_take, range_min, List.filter_map, List.filter_filter,
    List.filter_filter]
  congr 1
  apply List.filter_congr
  intro i _
  by_cases hi : i < num
  · simp [hi, take_get hi]
  · simp [hi]

end Search

/-! ## The ranks -/

section Ranks
variable {dylibs : List DylibFile} {num : ℕ} {f g next next' : ℕ → ℕ}

theorem mem_reached {key : ℕ → Option Key} {i : ℕ} :
    i ∈ reached dylibs key ↔ i < dylibs.length ∧ (key i).isSome = true := by
  rw [reached, mem_sort, List.mem_filter, List.mem_range]

/-- A library comes before another among those reached. -/
def NearerThan (dylibs : List DylibFile) (key : ℕ → Option Key) (i j : ℕ) : Prop :=
  reachedKey dylibs key i < reachedKey dylibs key j ∨
    reachedKey dylibs key i = reachedKey dylibs key j ∧ i < j

theorem reached_sorted (key : ℕ → Option Key) :
    (reached dylibs key).Pairwise (NearerThan dylibs key) := by
  have hrange : (List.range dylibs.length).Pairwise fun i j => i < j := List.pairwise_lt_range
  exact sort_stable _ (hrange.filter _) ((hrange.imp Nat.ne_of_lt).filter _)

theorem nearer_asymm (key : ℕ → Option Key) (i j : ℕ) (h : NearerThan dylibs key i j) :
    ¬ NearerThan dylibs key j i := by
  rintro (hlt | ⟨heq,hlt⟩) <;> rcases h with hlt' | ⟨heq',hlt'⟩
  · exact lt_asymm hlt hlt'
  · exact absurd heq' hlt.ne'
  · exact absurd heq hlt'.ne'
  · omega

theorem reached_place {key : ℕ → Option Key} {i j : ℕ} (hi : i ∈ reached dylibs key)
    (hj : j ∈ reached dylibs key) :
    (reached dylibs key).idxOf i < (reached dylibs key).idxOf j ↔ NearerThan dylibs key i j :=
  idxOf_lt_iff (reached_sorted key) (nearer_asymm key) hi hj

theorem reached_length (key : ℕ → Option Key) : (reached dylibs key).length ≤ dylibs.length := by
  rw [reached, (sort_perm _ _).length_eq]
  exact (List.length_filter_le _ _).trans List.length_range.le

theorem nearer_earlier {key key' : ℕ → Option Key} (hkey : ∀ i < num, key i = key' i) {i j : ℕ}
    (hi : i < num) (hj : j < num) :
    NearerThan dylibs key i j ↔ NearerThan (dylibs.take num) key' i j := by
  have hsame {i : ℕ} (hi : i < num) :
      reachedKey (dylibs.take num) key' i = reachedKey dylibs key i := by
    simp only [reachedKey, installName, take_get hi, hkey i hi]
  rw [NearerThan, NearerThan, hsame hi, hsame hj]

/-- A phase of the ranking: the libraries reached, in order. -/
theorem rank_reexported_overlay {autolinked : Bool} {fuel : ℕ}
    (h : rankReexported dylibs fuel autolinked f = some next) :
    ∃ key, nearest dylibs f fuel { key := fun _ => none, queue := namedQueue dylibs autolinked } =
        some key ∧
      next = overlay (if autolinked then 3 else 1) (fun i => decide (i ∈ reached dylibs key))
        (fun i => (reached dylibs key).idxOf i) f := by
  obtain ⟨key,hkey,rfl⟩ := Option.map_eq_some_iff.1 h
  refine ⟨key,hkey,?_⟩
  funext i
  simp only [overlay, decide_eq_true_eq]

theorem rank_rest_overlay (dylibs : List DylibFile) (f : ℕ → ℕ) :
    rankRest dylibs f = overlay 4
      (fun i => dylibs[i]?.any fun d => decide (f i = rankMax ∧ d.nameSource ≠ .moved))
      (fun i => (dylibs[i]?.map DylibFile.priority).getD 0) f := by
  funext i
  rw [rankRest, overlay]
  cases hd : dylibs[i]? with
  | none => rfl
  | some d => simp

section Narrow
variable (hnarrow : Narrow dylibs)
include hnarrow

theorem place_lt (key : ℕ → Option Key) (i : ℕ) : (reached dylibs key).idxOf i < 2^32 := by
  have h := List.idxOf_le_length (a := i) (l := reached dylibs key)
  exact (h.trans (reached_length key)).trans_lt hnarrow.count

theorem priority_lt (i : ℕ) : (dylibs[i]?.map DylibFile.priority).getD 0 < 2^32 := by
  cases hd : dylibs[i]? with
  | none => decide
  | some d => exact hnarrow.priority d (List.mem_of_getElem? hd)

theorem named_rank_phase (i : ℕ) :
    namedRank dylibs i = rankMax ∨ namedRank dylibs i / 2^32 = 512 ∨
      namedRank dylibs i / 2^32 = 514 := by
  rw [namedRank]
  split
  case h_1 d hd =>
    split
    · exact Or.inl rfl
    · right
      have hd' := List.mem_of_getElem? hd
      have hplace : d.namedAt.getD d.priority < 2^32 := by
        cases hat : d.namedAt with
        | none => exact hnarrow.priority d hd'
        | some place => exact hnarrow.namedAt d hd' place hat
      split
      · rw [phase_bits_or (by decide) hplace]
        omega
      · rw [phase_bits_or (by decide) hplace]
        omega
  case h_2 => exact Or.inl rfl

theorem narrow_take : Narrow (dylibs.take num) where
  priority d hd := hnarrow.priority d (List.mem_of_mem_take hd)
  namedAt d hd := hnarrow.namedAt d (List.mem_of_mem_take hd)
  count := (List.length_take_le' _ _).trans_lt hnarrow.count

end Narrow

/-- A rank is of one of these phases, or none. -/
def InPhases (phases : List ℕ) (f : ℕ → ℕ) : Prop := ∀ i, f i = rankMax ∨ f i / 2^32 ∈ phases

theorem overlay_in {phases : List ℕ} {phase : ℕ} {p : ℕ → Bool} {minor : ℕ → ℕ}
    (h : InPhases phases f) (hphase : phase < 256) (hminor : ∀ i, minor i < 2^32) :
    InPhases ((512 + phase)::phases) (overlay phase p minor f) := by
  intro i
  rw [overlay_phase hphase hminor, overlay_max hphase hminor]
  cases hp : p i with
  | false =>
    rcases h i with hmax | hin
    · exact Or.inl ⟨rfl,hmax⟩
    · exact Or.inr (List.mem_cons_of_mem _ (by simpa using hin))
  | true => exact Or.inr List.mem_cons_self

theorem phase_fresh {phases : List ℕ} {phase : ℕ} (h : InPhases phases f) (hphase : phase < 256)
    (hfresh : 512 + phase ∉ phases) (i : ℕ) : f i / 2^32 ≠ 512 + phase := by
  intro heq
  rcases h i with hmax | hin
  · rw [hmax, rankMax] at heq
    omega
  · rw [heq] at hin
    exact hfresh hin

section Phases
variable (hnarrow : Narrow dylibs)
include hnarrow

theorem named_rank_in : InPhases [512,514] (namedRank dylibs) := by
  intro i
  simpa using named_rank_phase hnarrow i

theorem rank_reexported_in {phases : List ℕ} {autolinked : Bool} {fuel : ℕ}
    (h : rankReexported dylibs fuel autolinked f = some next) (hf : InPhases phases f) :
    InPhases ((512 + if autolinked then 3 else 1)::phases) next := by
  obtain ⟨key,-,rfl⟩ := rank_reexported_overlay h
  exact overlay_in hf (by split <;> decide) (place_lt hnarrow key)

theorem rank_reexported_same (hapart : Apart dylibs num) {phases : List ℕ} {autolinked : Bool}
    {fuel fuel' : ℕ} (h : rankReexported dylibs fuel autolinked f = some next)
    (h' : rankReexported (dylibs.take num) fuel' autolinked g = some next')
    (hsame : SameOrder num f g) (hf : InPhases phases f)
    (hfresh : (512 + if autolinked then 3 else 1) ∉ phases) : SameOrder num next next' := by
  obtain ⟨key,hkey,rfl⟩ := rank_reexported_overlay h
  obtain ⟨key',hkey',rfl⟩ := rank_reexported_overlay h'
  have hphase : (if autolinked then 3 else 1) < 256 := by split <;> decide
  have hstart : Keeps num { key := fun _ => none, queue := namedQueue dylibs autolinked }
      { key := fun _ => none, queue := namedQueue (dylibs.take num) autolinked } :=
    ⟨fun _ _ => rfl,named_queue_earlier dylibs num autolinked⟩
  have hkeys := nearest_keeps hapart hsame.unranked hstart hkey hkey'
  have hmem (i : ℕ) (hi : i < num) :
      i ∈ reached dylibs key ↔ i ∈ reached (dylibs.take num) key' := by
    have hlt : i < (dylibs.take num).length ↔ i < dylibs.length := by
      rw [List.length_take]
      omega
    rw [mem_reached, mem_reached, hlt, hkeys i hi]
  apply overlay_same hsame hphase (place_lt hnarrow key) (place_lt (narrow_take hnarrow) key')
  · intro i hi
    exact decide_eq_decide.2 (hmem i hi)
  · exact phase_fresh hf hphase hfresh
  · intro i hi j hj hir hjr
    have hir := of_decide_eq_true hir
    have hjr := of_decide_eq_true hjr
    rw [reached_place hir hjr, reached_place ((hmem i hi).1 hir) ((hmem j hj).1 hjr)]
    exact nearer_earlier hkeys hi hj

theorem rank_rest_same {phases : List ℕ} (hsame : SameOrder num f g) (hf : InPhases phases f)
    (hfresh : 512 + 4 ∉ phases) :
    SameOrder num (rankRest dylibs f) (rankRest (dylibs.take num) g) := by
  rw [rank_rest_overlay, rank_rest_overlay]
  apply overlay_same hsame (by decide) (priority_lt hnarrow) (priority_lt (narrow_take hnarrow))
  · intro i hi
    simp only [take_get hi, hsame.unranked i hi]
  · exact phase_fresh hf (by decide) hfresh
  · intro i hi j hj _ _
    rw [take_get hi, take_get hj]

/-- The dylibs before `num` come in the same order whether or not the later
ones are ranked too. -/
theorem dylib_ranks_same (hapart : Apart dylibs num) {fuel fuel' : ℕ}
    (h : dylibRanks dylibs fuel = some f) (h' : dylibRanks (dylibs.take num) fuel' = some g) :
    SameOrder num f g := by
  simp only [dylibRanks, Option.bind_eq_bind, Option.bind_eq_some_iff] at h h'
  obtain ⟨first,hfirst,second,hsecond,hf⟩ := h
  obtain ⟨first',hfirst',second',hsecond',hg⟩ := h'
  cases hf
  cases hg
  have hnamed : SameOrder num (namedRank dylibs) (namedRank (dylibs.take num)) := by
    have heq (i : ℕ) (hi : i < num) : namedRank (dylibs.take num) i = namedRank dylibs i := by
      simp only [namedRank, take_get hi]
    constructor
    · intro i hi
      rw [heq i hi]
    · intro i hi
      rw [heq i hi]
    · intro i hi j hj _
      rw [heq i hi, heq j hj]
  have hin := named_rank_in hnarrow
  have hin' := rank_reexported_in hnarrow hfirst hin
  have hsame := rank_reexported_same hnarrow hapart hfirst hfirst' hnamed hin (by decide)
  have hsame' := rank_reexported_same hnarrow hapart hsecond hsecond' hsame hin' (by decide)
  exact rank_rest_same hnarrow hsame' (rank_reexported_in hnarrow hsecond hin') (by decide)

theorem dylib_ranks_lt {fuel : ℕ} (h : dylibRanks dylibs fuel = some f) (i : ℕ) :
    f i = rankMax ∨ f i < 3 <<< 40 := by
  simp only [dylibRanks, Option.bind_eq_bind, Option.bind_eq_some_iff] at h
  obtain ⟨first,hfirst,second,hsecond,hf⟩ := h
  cases hf
  have hin := rank_reexported_in hnarrow hsecond
    (rank_reexported_in hnarrow hfirst (named_rank_in hnarrow))
  have hrest := overlay_in (p := fun i => dylibs[i]?.any fun d =>
    decide (second i = rankMax ∧ d.nameSource ≠ .moved)) hin (by decide : 4 < 256)
    (priority_lt hnarrow) i
  rw [← rank_rest_overlay] at hrest
  rcases hrest with hmax | hphase
  · exact Or.inl hmax
  · right
    simp only [if_true, Bool.false_eq_true, if_false, List.mem_cons, List.not_mem_nil,
      or_false] at hphase
    rw [Nat.shiftLeft_eq]
    omega

end Phases

end Ranks

/-! ## The providers -/

section Providers
variable {dylibs : List DylibFile} {num : ℕ}

theorem by_name_lt {name : Name} {i : ℕ} (h : byName dylibs name = some i) : i < dylibs.length := by
  obtain ⟨e,he,rfl⟩ := Option.map_eq_some_iff.1 h
  have hmem := List.mem_reverse.1 (List.mem_of_find?_eq_some he)
  simpa using List.snd_lt_of_mem_zipIdx hmem

theorem by_name_earlier {name : Name}
    (h : ∀ j e, dylibs[j]? = some e → num ≤ j → e.installName ≠ name) :
    byName dylibs name = byName (dylibs.take num) name := by
  have hsplit : dylibs.zipIdx = (dylibs.take num).zipIdx ++ (dylibs.drop num).zipIdx num := by
    by_cases hlen : num ≤ dylibs.length
    · conv_lhs => rw [← List.take_append_drop num dylibs, List.zipIdx_append]
      rw [List.length_take_of_le hlen, Nat.zero_add]
    · rw [List.take_of_length_le (by omega), List.drop_of_length_le (by omega)]
      simp
  have hnone : ((dylibs.drop num).zipIdx num).reverse.find? (fun d =>
      !(d.1.isAutolinked && (Chunks.bytes "@rpath/").isPrefixOf d.1.installName) &&
        d.1.installName == name) = none := by
    rw [List.find?_eq_none]
    intro e he
    have hmem := List.mem_reverse.1 he
    obtain ⟨hle,hget⟩ := List.mk_mem_zipIdx_iff_le_and_getElem?_sub.1 hmem
    rw [List.getElem?_drop, Nat.add_sub_of_le hle] at hget
    have hne := h e.2 e.1 hget hle
    simp [hne]
  rw [byName, byName, hsplit, List.reverse_append, List.find?_append, hnone, Option.none_or]

theorem merged_providers_earlier (hapart : Apart dylibs num) {i : ℕ} (hi : i < num) :
    mergedProviders dylibs i = mergedProviders (dylibs.take num) i := by
  rw [mergedProviders, mergedProviders, take_get hi]
  cases hd : dylibs[i]? with
  | none => rfl
  | some d =>
    apply List.filterMap_congr
    intro name hname
    apply by_name_earlier
    rintro j e he hj rfl
    exact hapart.merged i d j e hd hi he hj hname

theorem merged_provider_lt {i p : ℕ} (h : p ∈ mergedProviders (dylibs.take num) i) : p < num := by
  rw [mergedProviders, List.mem_filterMap] at h
  obtain ⟨name,-,hp⟩ := h
  exact (by_name_lt hp).trans_le (List.length_take_le _ _)

theorem provider_earlier (hapart : Apart dylibs num) (name : Name) (steps : ℕ) {idx : ℕ}
    (hidx : idx < num) :
    provider dylibs (mergedProviders (dylibs.take num)) name steps idx =
      provider dylibs (mergedProviders dylibs) name steps idx := by
  induction steps generalizing idx with
  | zero => rfl
  | succ steps ih =>
    rw [provider, provider, merged_providers_earlier hapart hidx]
    split
    · next p hp => exact ih (merged_provider_lt (List.mem_of_find?_eq_some hp))
    · rfl

/-- An earlier dylib's export binds to the same dylib. -/
theorem providing_dylib_earlier (hapart : Apart dylibs num) (name : Name) {idx : ℕ}
    (hidx : idx < num) :
    providingDylib dylibs (mergedProviders (dylibs.take num)) idx name =
      providingDylib dylibs (mergedProviders dylibs) idx name := by
  rw [providingDylib, providingDylib, provider_earlier hapart name _ hidx]

end Providers

end MoldMacho.DylibRanks
