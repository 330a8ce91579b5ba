import MoldMacho.Passes.LaterDylibs
import MoldMacho.Passes.NearestDylibs

/-!
# The order of the dylibs

The ranking ends on every graph of re-exports. It ranks the libraries the
command line names, those they re-export, the ones auto-link options name and
those these re-export one after another: the named ones by their places, and
the others by the least of their ways from a named library through libraries no
one names, then by their own names.
-/

set_option autoImplicit false

namespace MoldMacho.DylibRanks
open MoldMacho.Dylibs MoldMacho.Definitions MoldMacho.StableSort MoldMacho.LeastLabels

section
variable (dylibs : List DylibFile)

/-- A re-export of a library that no one names. -/
def Way (i lib hops : ℕ) (via : Name) : Prop :=
  Reexports dylibs i lib hops via ∧ Implicit dylibs lib

def Reached (autolinked : Bool) (lib : ℕ) : Prop :=
  ∃ k, Labelled (Named dylibs autolinked) (Way dylibs) lib k

/-- The phases of the ranking. -/
def Phase : ℕ → ℕ → Prop
  | 0 => Named dylibs false
  | 1 => Reached dylibs false
  | 2 => Named dylibs true
  | 3 => fun lib => Reached dylibs true lib ∧ ¬ Reached dylibs false lib
  | 4 => fun lib =>
    (∃ d, dylibs[lib]? = some d ∧ d.isImplicit = true ∧ d.nameSource ≠ .moved) ∧
      ¬ Reached dylibs true lib ∧ ¬ Reached dylibs false lib
  | _ => fun _ => False

def naming (lib : ℕ) : ℕ := (dylibs[lib]?.map fun d => d.namedAt.getD d.priority).getD 0

/-- What a library of a least way is ranked by. -/
def nearKey (k : Key) (lib : ℕ) : ℕ ×ₗ List ℕ ×ₗ List ℕ :=
  toLex (k.1,toLex (k.2.map UInt8.toNat,(installName dylibs lib).map UInt8.toNat))

/-- The dylibs are ranked by phase, and within one by place or by nearness. -/
structure Ranked (ranks : ℕ → ℕ) : Prop where
  phases : ∀ p q i j, Phase dylibs p i → Phase dylibs q j → p < q → ranks i < ranks j
  named : ∀ autolinked i j, Named dylibs autolinked i → Named dylibs autolinked j →
    (ranks i < ranks j ↔ naming dylibs i < naming dylibs j)
  least : ∀ autolinked b, Phase dylibs (if autolinked then 3 else 1) b →
    ∃ k, Least keyOrder (Named dylibs autolinked) (Way dylibs) b (some k)
  nearest : ∀ autolinked b c kb kc, Phase dylibs (if autolinked then 3 else 1) b →
    Phase dylibs (if autolinked then 3 else 1) c →
    Least keyOrder (Named dylibs autolinked) (Way dylibs) b (some kb) →
    Least keyOrder (Named dylibs autolinked) (Way dylibs) c (some kc) →
    (ranks b < ranks c ↔ nearKey dylibs kb b < nearKey dylibs kc c ∨
      nearKey dylibs kb b = nearKey dylibs kc c ∧ b < c)
  unranked : ∀ i d, dylibs[i]? = some d → (ranks i = rankMax ↔ d.nameSource = .moved ∧
    d.isImplicit = true ∧ ¬ Reached dylibs true i ∧ ¬ Reached dylibs false i)

end

/-! ## The two searches -/

section Searches
variable {dylibs : List DylibFile} {ranks : ℕ → ℕ}

theorem key_order_inj {k k' : Key} (h : keyOrder k = keyOrder k') : k = k' := by
  have h' := toLex.injective h
  obtain ⟨hhops,hvia⟩ := Prod.mk.inj h'
  have hinj : Function.Injective UInt8.toNat := fun _ _ => UInt8.toNat_inj.mp
  exact Prod.ext hhops (List.map_injective_iff.mpr hinj hvia)

/-- There is one least label. -/
theorem least_unique {root : ℕ → Prop} {edge : ℕ → ℕ → ℕ → Name → Prop} {b : ℕ} {k k' : Option Key}
    (h : Least keyOrder root edge b k) (h' : Least keyOrder root edge b k') : k = k' := by
  cases k with
  | none =>
    cases k' with
    | none => rfl
    | some k' => exact absurd h'.1 (h k')
  | some k =>
    cases k' with
    | none => exact absurd h.1 (h' k)
    | some k' => rw [key_order_inj (le_antisymm (h.2 k' h'.1) (h'.2 k h.1))]

theorem reached_iff {root : ℕ → Prop} {edge : ℕ → ℕ → ℕ → Name → Prop} {key : ℕ → Option Key}
    (hleast : ∀ b, Least keyOrder root edge b (key b))
    (hedge : ∀ a b hops via, edge a b hops via → Implicit dylibs b) (b : ℕ) :
    b ∈ reached dylibs key ↔ ∃ k, Labelled root edge b k := by
  rw [mem_reached]
  have hb := hleast b
  cases hk : key b with
  | none =>
    rw [hk] at hb
    simp only [Option.isSome_none, Bool.false_eq_true, and_false, false_iff]
    rintro ⟨k,hk'⟩
    exact hb k hk'
  | some k =>
    rw [hk] at hb
    obtain ⟨a,-,hops,-,he,-⟩ := hb.1
    obtain ⟨d,hd,-⟩ := hedge a b hops k.2 he
    simp only [Option.isSome_some, and_true]
    exact ⟨fun _ => ⟨k,hb.1⟩,fun _ => (List.getElem?_eq_some_iff.1 hd).1⟩

theorem named_not_implicit {autolinked : Bool} {i : ℕ} (h : Named dylibs autolinked i) :
    ¬ Implicit dylibs i := by
  rintro ⟨d,hd,himplicit⟩
  obtain ⟨d',hd',hnamed,-⟩ := h
  rw [hd] at hd'
  obtain rfl := Option.some.inj hd'
  rw [himplicit] at hnamed
  cases hnamed

theorem named_rank_implicit {lib : ℕ} (h : Implicit dylibs lib) : namedRank dylibs lib = rankMax := by
  obtain ⟨d,hd,himplicit⟩ := h
  rw [namedRank, hd]
  dsimp only
  rw [if_pos himplicit]

theorem followed_first : Followed dylibs (namedRank dylibs) = Way dylibs := by
  funext i lib hops via
  refine propext ⟨fun h => ⟨h.1,h.2.1⟩,fun h => ⟨h.1,h.2,named_rank_implicit h.2⟩⟩

theorem Reached.implicit {autolinked : Bool} {lib : ℕ} (h : Reached dylibs autolinked lib) :
    Implicit dylibs lib := by
  obtain ⟨k,a,-,hops,-,he,-⟩ := h
  exact he.2

/-- What a library reached re-exports is reached. -/
theorem Reached.step {autolinked : Bool} {i lib hops : ℕ} {via : Name}
    (h : Named dylibs autolinked i ∨ Reached dylibs autolinked i) (he : Way dylibs i lib hops via) :
    Reached dylibs autolinked lib := by
  rcases h with h | ⟨k,a,length,hops',hw,he',-⟩
  · exact ⟨(0+hops,via),i,0,hops,.root h,he,rfl⟩
  · exact ⟨(length+hops'+hops,via),i,length+hops',hops,hw.step he',he,rfl⟩

section Second
variable (hranks : ∀ lib, Implicit dylibs lib → (ranks lib = rankMax ↔ ¬ Reached dylibs false lib))
include hranks

theorem followed_second {i lib hops : ℕ} {via : Name} :
    Followed dylibs ranks i lib hops via ↔ Way dylibs i lib hops via ∧ ¬ Reached dylibs false lib := by
  constructor
  · rintro ⟨he,himplicit,hmax⟩
    exact ⟨⟨he,himplicit⟩,(hranks lib himplicit).mp hmax⟩
  · rintro ⟨⟨he,himplicit⟩,hnot⟩
    exact ⟨he,himplicit,(hranks lib himplicit).mpr hnot⟩

/-- A way to a library that the first search did not reach leads through none
that it did. -/
theorem walk_second {lib length : ℕ} (h : Walk (Named dylibs true) (Way dylibs) lib length)
    (hnot : ¬ Reached dylibs false lib) :
    Walk (Named dylibs true) (Followed dylibs ranks) lib length := by
  induction h with
  | root h => exact .root h
  | step _ he ih =>
    have hfrom := fun hreached => hnot (Reached.step (.inr hreached) he)
    exact .step (ih hfrom) ((followed_second hranks).mpr ⟨he,hnot⟩)

theorem walk_first {lib length : ℕ} (h : Walk (Named dylibs true) (Followed dylibs ranks) lib length) :
    Walk (Named dylibs true) (Way dylibs) lib length := by
  induction h with
  | root h => exact .root h
  | step _ he ih => exact .step ih ((followed_second hranks).mp he).1

theorem labelled_second {lib : ℕ} (k : Key) (hnot : ¬ Reached dylibs false lib) :
    Labelled (Named dylibs true) (Followed dylibs ranks) lib k ↔
      Labelled (Named dylibs true) (Way dylibs) lib k := by
  constructor
  · rintro ⟨a,length,hops,hw,he,hk⟩
    exact ⟨a,length,hops,walk_first hranks hw,((followed_second hranks).mp he).1,hk⟩
  · rintro ⟨a,length,hops,hw,he,hk⟩
    have hfrom := fun hreached => hnot (Reached.step (.inr hreached) he)
    exact ⟨a,length,hops,walk_second hranks hw hfrom,(followed_second hranks).mpr ⟨he,hnot⟩,hk⟩

theorem reached_second {lib : ℕ} :
    (∃ k, Labelled (Named dylibs true) (Followed dylibs ranks) lib k) ↔
      Reached dylibs true lib ∧ ¬ Reached dylibs false lib := by
  constructor
  · rintro ⟨k,hk⟩
    have hnot : ¬ Reached dylibs false lib := by
      obtain ⟨a,length,hops,hw,he,-⟩ := hk
      exact ((followed_second hranks).mp he).2
    exact ⟨⟨k,(labelled_second hranks k hnot).mp hk⟩,hnot⟩
  · rintro ⟨⟨k,hk⟩,hnot⟩
    exact ⟨k,(labelled_second hranks k hnot).mpr hk⟩

end Second

end Searches

/-! ## The ranks -/

section Ranks
variable (dylibs : List DylibFile) (near far : ℕ → Option Key)

def place (key : ℕ → Option Key) (i : ℕ) : ℕ := (reached dylibs key).idxOf i

/-- Ranks the libraries that a search reached in a phase of theirs. -/
def rankReached (phase : ℕ) (key : ℕ → Option Key) (ranks : ℕ → ℕ) : ℕ → ℕ :=
  overlay phase (fun i => decide (i ∈ reached dylibs key)) (place dylibs key) ranks

/-- The ranks that two searches give. -/
def layered : ℕ → ℕ :=
  rankRest dylibs (rankReached dylibs 3 far (rankReached dylibs 1 near (namedRank dylibs)))

/-- What a library's rank is within its phase. -/
def minor (phase i : ℕ) : ℕ :=
  match phase with
  | 1 => place dylibs near i
  | 3 => place dylibs far i
  | 4 => (dylibs[i]?.map DylibFile.priority).getD 0
  | _ => naming dylibs i

/-- What the two searches leave. -/
structure Searches : Prop where
  nearLeast : ∀ b, Least keyOrder (Named dylibs false) (Way dylibs) b (near b)
  farLeast : ∀ b, ¬ Reached dylibs false b →
    Least keyOrder (Named dylibs true) (Way dylibs) b (far b)
  nearReached : ∀ b, b ∈ reached dylibs near ↔ Reached dylibs false b
  farReached : ∀ b, b ∈ reached dylibs far ↔ Reached dylibs true b ∧ ¬ Reached dylibs false b

variable {dylibs near far}

theorem rank_reexported_reached {fuel : ℕ} {autolinked : Bool} {ranks : ℕ → ℕ} {key : ℕ → Option Key}
    (h : nearest dylibs ranks fuel { key := fun _ => none, queue := namedQueue dylibs autolinked } =
      some key) (more : ℕ) :
    rankReexported dylibs (fuel+more) autolinked ranks =
      some (rankReached dylibs (if autolinked then 3 else 1) key ranks) := by
  rw [rankReexported, nearest_more h more, Option.map_some]
  refine congrArg some (funext fun i => ?_)
  simp only [rankReached, overlay, decide_eq_true_eq, place]

/-- The ranking ends. -/
theorem dylib_ranks_layered (hnarrow : Narrow dylibs) :
    ∃ fuel near far, Searches dylibs near far ∧
      ∀ more, dylibRanks dylibs (fuel+more) = some (layered dylibs near far) := by
  obtain ⟨fuel,near,hnear,hleast⟩ := nearest_ends _ (searched_start (namedRank dylibs) false)
  rw [followed_first] at hleast
  have hreached := reached_iff hleast fun _ _ _ _ he => he.2
  have hranks (lib : ℕ) (himplicit : Implicit dylibs lib) :
      rankReached dylibs 1 near (namedRank dylibs) lib = rankMax ↔ ¬ Reached dylibs false lib := by
    have hplace (i : ℕ) : place dylibs near i < 2^32 := place_lt hnarrow near i
    rw [rankReached, overlay_max (by decide) hplace]
    simp only [decide_eq_false_iff_not, hreached, named_rank_implicit himplicit, and_true]
    rfl
  obtain ⟨fuel',far,hfar,hleast'⟩ := nearest_ends _ (searched_start (rankReached dylibs 1 near
    (namedRank dylibs)) true)
  refine ⟨fuel+fuel',near,far,⟨hleast,fun b hnot => ?_,hreached,fun b => ?_⟩,fun more => ?_⟩
  · exact (least_congr fun k => labelled_second hranks k hnot).mp (hleast' b)
  · rw [reached_iff hleast' fun _ _ _ _ he => he.2.1]
    exact reached_second hranks
  · have hfirst := rank_reexported_reached hnear (fuel'+more)
    have hsecond := rank_reexported_reached hfar (fuel+more)
    rw [← Nat.add_assoc] at hfirst hsecond
    rw [Nat.add_comm fuel'] at hsecond
    simp only [Bool.false_eq_true, if_false, if_true] at hfirst hsecond
    simp only [dylibRanks, hfirst, hsecond, Option.bind_eq_bind, Option.bind_some]
    rfl

theorem rank_rest_ranked {ranks : ℕ → ℕ} {i : ℕ} (h : ranks i ≠ rankMax) :
    rankRest dylibs ranks i = ranks i := by
  rw [rankRest]
  split
  · rw [if_neg fun hmax => h hmax.1]
  · rfl

theorem rank_searched (dylibs : List DylibFile) (near far : ℕ → Option Key) (i : ℕ) :
    rankReached dylibs 3 far (rankReached dylibs 1 near (namedRank dylibs)) i =
      if i ∈ reached dylibs far then phaseBits 3 ||| place dylibs far i
      else if i ∈ reached dylibs near then phaseBits 1 ||| place dylibs near i
      else namedRank dylibs i := by
  simp only [rankReached, overlay, decide_eq_true_eq]

section Phases
variable (hnarrow : Narrow dylibs) (hs : Searches dylibs near far)
include hnarrow

theorem naming_lt (i : ℕ) : naming dylibs i < 2^32 := by
  rw [naming]
  cases hd : dylibs[i]? with
  | none => decide
  | some d =>
    have hmem := List.mem_of_getElem? hd
    cases hat : d.namedAt with
    | none => simpa [hat] using hnarrow.priority d hmem
    | some place => simpa [hat] using hnarrow.namedAt d hmem place hat

theorem minor_lt (phase i : ℕ) : minor dylibs near far phase i < 2^32 := by
  unfold minor
  split
  · exact place_lt hnarrow near i
  · exact place_lt hnarrow far i
  · exact priority_lt hnarrow i
  · exact naming_lt hnarrow i

omit hnarrow in
theorem named_rank_of {autolinked : Bool} {i : ℕ} (h : Named dylibs autolinked i) :
    namedRank dylibs i = phaseBits (if autolinked then 2 else 0) ||| naming dylibs i := by
  obtain ⟨d,hd,himplicit,rfl⟩ := h
  simp [namedRank, naming, hd, himplicit]

include hs

/-- The rank of a library of each phase. -/
theorem layered_phase {phase i : ℕ} (h : Phase dylibs phase i) :
    layered dylibs near far i = (512+phase)*2^32 + minor dylibs near far phase i := by
  have hbits (p m : ℕ) (hp : p < 256) (hm : m < 2^32) : phaseBits p ||| m ≠ rankMax := by
    rw [phase_bits_or hp hm, rankMax]
    omega
  -- a rank that one of the first three rankings gives stays
  have hkeep (p m : ℕ) (hp : p < 256) (hm : m < 2^32)
      (heq : rankReached dylibs 3 far (rankReached dylibs 1 near (namedRank dylibs)) i =
        phaseBits p ||| m) : layered dylibs near far i = (512+p)*2^32 + m := by
    rw [layered, rank_rest_ranked (heq ▸ hbits p m hp hm), heq, phase_bits_or hp hm]
  have hranked := rank_searched dylibs near far i
  have hfar := hs.farReached i
  have hnear := hs.nearReached i
  have hnamed (autolinked : Bool) (h : Named dylibs autolinked i) :
      layered dylibs near far i =
        (512 + if autolinked then 2 else 0)*2^32 + naming dylibs i := by
    have hnot (a : Bool) : ¬ Reached dylibs a i := fun hr => named_not_implicit h hr.implicit
    rw [if_neg fun h => hnot true (hfar.mp h).1, if_neg fun h => hnot false (hnear.mp h),
      named_rank_of h] at hranked
    exact hkeep _ _ (by split <;> decide) (naming_lt hnarrow i) hranked
  rcases phase with _ | _ | _ | _ | _ | _
  · exact hnamed false h
  · have hreached : Reached dylibs false i := h
    rw [if_neg fun h => (hfar.mp h).2 hreached, if_pos (hnear.mpr hreached)] at hranked
    exact hkeep 1 _ (by decide) (minor_lt hnarrow 1 i) hranked
  · exact hnamed true h
  · have hreached : Reached dylibs true i ∧ ¬ Reached dylibs false i := h
    rw [if_pos (hfar.mpr hreached)] at hranked
    exact hkeep 3 _ (by decide) (minor_lt hnarrow 3 i) hranked
  · obtain ⟨⟨d,hd,himplicit,hsource⟩,hnotFar,hnotNear⟩ := h
    rw [if_neg fun h => hnotFar (hfar.mp h).1, if_neg fun h => hnotNear (hnear.mp h),
      named_rank_implicit ⟨d,hd,himplicit⟩] at hranked
    have hpriority := priority_lt hnarrow i
    simp only [hd, Option.map_some, Option.getD_some] at hpriority
    rw [layered, rankRest, hd]
    dsimp only
    rw [if_pos ⟨hranked,hsource⟩, phase_bits_or (by decide) hpriority]
    simp [minor, hd]
  · exact h.elim

omit hnarrow hs in
theorem phase_lt {phase i : ℕ} (h : Phase dylibs phase i) : phase < 5 := by
  match phase, h with
  | 0, _ => decide
  | 1, _ => decide
  | 2, _ => decide
  | 3, _ => decide
  | 4, _ => decide

omit hnarrow hs in
theorem phase_or_moved {i : ℕ} {d : DylibFile} (hd : dylibs[i]? = some d) :
    (∃ phase, Phase dylibs phase i) ∨ d.nameSource = .moved ∧ d.isImplicit = true ∧
      ¬ Reached dylibs true i ∧ ¬ Reached dylibs false i := by
  by_cases hnear : Reached dylibs false i
  · exact .inl ⟨1,hnear⟩
  by_cases hfar : Reached dylibs true i
  · exact .inl ⟨3,hfar,hnear⟩
  cases himplicit : d.isImplicit with
  | false =>
    cases hauto : d.isAutolinked with
    | false => exact .inl ⟨0,d,hd,himplicit,hauto⟩
    | true => exact .inl ⟨2,d,hd,himplicit,hauto⟩
  | true =>
    by_cases hsource : d.nameSource = .moved
    · exact .inr ⟨hsource,rfl,hfar,hnear⟩
    · exact .inl ⟨4,⟨d,hd,himplicit,hsource⟩,hfar,hnear⟩

omit hnarrow in
theorem layered_moved {i : ℕ} {d : DylibFile} (hd : dylibs[i]? = some d)
    (hsource : d.nameSource = .moved) (himplicit : d.isImplicit = true)
    (hfar : ¬ Reached dylibs true i) (hnear : ¬ Reached dylibs false i) :
    layered dylibs near far i = rankMax := by
  have hranked := rank_searched dylibs near far i
  rw [if_neg fun h => hfar ((hs.farReached i).mp h).1, if_neg fun h => hnear ((hs.nearReached i).mp h),
    named_rank_implicit ⟨d,hd,himplicit⟩] at hranked
  rw [layered, rankRest, hd]
  dsimp only
  rw [if_neg fun h => h.2 hsource, hranked]

/-- The keys that libraries reached are placed by are those of their least ways. -/
theorem layered_nearest {autolinked : Bool} {b c : ℕ} {kb kc : Key}
    (hb : Phase dylibs (if autolinked then 3 else 1) b)
    (hc : Phase dylibs (if autolinked then 3 else 1) c)
    (hkb : Least keyOrder (Named dylibs autolinked) (Way dylibs) b (some kb))
    (hkc : Least keyOrder (Named dylibs autolinked) (Way dylibs) c (some kc)) :
    layered dylibs near far b < layered dylibs near far c ↔
      nearKey dylibs kb b < nearKey dylibs kc c ∨
        nearKey dylibs kb b = nearKey dylibs kc c ∧ b < c := by
  have hkey {key : ℕ → Option Key} {lib : ℕ} {k : Key} (h : key lib = some k) :
      reachedKey dylibs key lib = nearKey dylibs k lib := by
    rw [reachedKey, nearKey, h, Option.getD_some]
  have hplace {key : ℕ → Option Key} (hmb : b ∈ reached dylibs key) (hmc : c ∈ reached dylibs key)
      (hb : key b = some kb) (hc : key c = some kc) :
      place dylibs key b < place dylibs key c ↔ nearKey dylibs kb b < nearKey dylibs kc c ∨
        nearKey dylibs kb b = nearKey dylibs kc c ∧ b < c := by
    rw [place, place, reached_place hmb hmc, NearerThan, hkey hb, hkey hc]
  rw [layered_phase hnarrow hs hb, layered_phase hnarrow hs hc, Nat.add_lt_add_iff_left]
  cases autolinked with
  | false =>
    exact hplace ((hs.nearReached b).mpr hb) ((hs.nearReached c).mpr hc)
      (least_unique (hs.nearLeast b) hkb) (least_unique (hs.nearLeast c) hkc)
  | true =>
    exact hplace ((hs.farReached b).mpr hb) ((hs.farReached c).mpr hc)
      (least_unique (hs.farLeast b hb.2) hkb) (least_unique (hs.farLeast c hc.2) hkc)

theorem layered_ranked : Ranked dylibs (layered dylibs near far) where
  phases p q i j hp hq hlt := by
    have hi : minor dylibs near far p i < 2^32 := minor_lt hnarrow p i
    rw [layered_phase hnarrow hs hp, layered_phase hnarrow hs hq]
    calc (512+p)*2^32 + minor dylibs near far p i
        < (512+p)*2^32 + 2^32 := Nat.add_lt_add_left hi _
      _ = (512+p+1)*2^32 := (Nat.succ_mul _ _).symm
      _ ≤ (512+q)*2^32 := Nat.mul_le_mul_right _ (by omega)
      _ ≤ _ := Nat.le_add_right _ _
  named autolinked i j hi hj := by
    cases autolinked with
    | false =>
      have hi' : Phase dylibs 0 i := hi
      have hj' : Phase dylibs 0 j := hj
      rw [layered_phase hnarrow hs hi', layered_phase hnarrow hs hj', Nat.add_lt_add_iff_left]
      rfl
    | true =>
      have hi' : Phase dylibs 2 i := hi
      have hj' : Phase dylibs 2 j := hj
      rw [layered_phase hnarrow hs hi', layered_phase hnarrow hs hj', Nat.add_lt_add_iff_left]
      rfl
  least autolinked b hb := by
    have hsome {edge : ℕ → ℕ → ℕ → Name → Prop} {root : ℕ → Prop} {k : Option Key}
        (h : Least keyOrder root edge b k) (hlab : ∃ k, Labelled root edge b k) :
        ∃ k, Least keyOrder root edge b (some k) := by
      cases k with
      | none =>
        obtain ⟨k,hk⟩ := hlab
        exact absurd hk (h k)
      | some k => exact ⟨k,h⟩
    cases autolinked with
    | false => exact hsome (hs.nearLeast b) hb
    | true => exact hsome (hs.farLeast b hb.2) hb.1
  nearest _ _ _ _ _ hb hc hkb hkc := layered_nearest hnarrow hs hb hc hkb hkc
  unranked i d hd := by
    constructor
    · intro hmax
      rcases phase_or_moved hd with ⟨phase,hphase⟩ | hmoved
      · exfalso
        have hi : minor dylibs near far phase i < 2^32 := minor_lt hnarrow phase i
        have hlt := phase_lt hphase
        rw [layered_phase hnarrow hs hphase, rankMax] at hmax
        omega
      · exact hmoved
    · rintro ⟨hsource,himplicit,hfar,hnear⟩
      exact layered_moved hs hd hsource himplicit hfar hnear

end Phases

end Ranks

/-! ## The ranking -/

/-- The ranking of every graph of dylibs ends, and orders them so. -/
theorem dylib_ranks_order {dylibs : List DylibFile} (hnarrow : Narrow dylibs) :
    ∃ fuel ranks, (∀ more, dylibRanks dylibs (fuel+more) = some ranks) ∧ Ranked dylibs ranks := by
  obtain ⟨fuel,near,far,hs,hranks⟩ := dylib_ranks_layered hnarrow
  exact ⟨fuel,layered dylibs near far,hranks,layered_ranked hnarrow hs⟩

/-- A library that the command line names, one that an auto-link option names,
and one that no one names, each but the last with the next as a re-export. -/
def chainedDylibs : List DylibFile :=
  [{ path := [97], installName := [97], reexported := [⟨1,1,[97]⟩] },
    { path := [98], installName := [98], isAutolinked := true, priority := 1,
      reexported := [⟨2,1,[98]⟩] },
    { path := [99], installName := [99], isImplicit := true, priority := 2 }]

theorem dylib_ranks_order_chained :
    ∃ fuel ranks, (∀ more, dylibRanks chainedDylibs (fuel+more) = some ranks) ∧
      Ranked chainedDylibs ranks :=
  dylib_ranks_order
    { priority := by decide, namedAt := by decide, count := by decide }

/-- The re-export that leads on from the command line's library through the
auto-linked one does not count: it is ranked after that one. -/
theorem autolinked_between :
    (∀ d ∈ chainedDylibs, ∀ edge ∈ d.reexported, 1 ≤ edge.hops) ∧
      Named chainedDylibs false 0 ∧ Named chainedDylibs true 1 ∧ Implicit chainedDylibs 2 ∧
      Labelled (Named chainedDylibs false) (Reexports chainedDylibs) 2 (2,[98]) ∧
      ∃ ranks, dylibRanks chainedDylibs 9 = some ranks ∧ ranks 1 < ranks 2 := by
  refine ⟨by decide,⟨_,rfl,rfl,rfl⟩,⟨_,rfl,rfl,rfl⟩,⟨_,rfl,rfl⟩,?_,?_⟩
  · have hroot : Named chainedDylibs false 0 := ⟨_,rfl,rfl,rfl⟩
    have hfirst : Reexports chainedDylibs 0 1 1 [97] := ⟨_,rfl,List.mem_singleton.mpr rfl⟩
    have hlast : Reexports chainedDylibs 1 2 1 [98] := ⟨_,rfl,List.mem_singleton.mpr rfl⟩
    exact ⟨1,0+1,1,(Walk.root hroot).step hfirst,hlast,rfl⟩
  · have hranks : (dylibRanks chainedDylibs 9).any fun ranks => decide (ranks 1 < ranks 2) := by
      decide +kernel
    cases hsome : dylibRanks chainedDylibs 9 with
    | none =>
      rw [hsome] at hranks
      cases hranks
    | some ranks =>
      rw [hsome, Option.any_some, decide_eq_true_eq] at hranks
      exact ⟨ranks,rfl,hranks⟩

end MoldMacho.DylibRanks
