import MoldMacho.Icf.DigestMap
import Mathlib.Tactic.Common

/-!
# Rounds of the digest map

What a round's insertions leave in the table, whatever earlier rounds left
there: their slots read as vacant, as long as the round fits the bits a slot
has for it.
-/

set_option autoImplicit false

namespace MoldMacho.Icf
open MoldMacho.LinearProbing

/-- The insertions of a round with different digests differ in what a slot
holds of them. -/
def Separated (insertions : List (Digest × ℕ)) : Prop :=
  ∀ a ∈ insertions, ∀ b ∈ insertions, tag a.1 = tag b.1 → a.1.lo = b.1.lo → a.1 = b.1

/-- Whether each insertion is the first of its digest, after those seen. -/
def firsts : List Digest → List (Digest × ℕ) → List Bool
  | _, [] => []
  | seen, (digest,_)::insertions =>
    decide (digest ∉ seen)::firsts (seen ++ [digest]) insertions

/-- The lowest candidate of a digest. -/
def IsLowest (insertions : List (Digest × ℕ)) (digest : Digest) (cand : ℕ) : Prop :=
  (digest,cand) ∈ insertions ∧ ∀ other, (digest,other) ∈ insertions → cand ≤ other

theorem lowest_append_self {insertions : List (Digest × ℕ)} {digest : Digest} {leader : ℕ}
    (h : IsLowest insertions digest leader) (cand : ℕ) :
    IsLowest (insertions ++ [(digest,cand)]) digest (min leader cand) := by
  constructor
  · rcases min_choice leader cand with hm | hm
    · rw [hm]
      exact List.mem_append_left _ h.1
    · rw [hm]
      simp
  · intro other hother
    rcases List.mem_append.1 hother with hother | hother
    · exact (min_le_left _ _).trans (h.2 other hother)
    · obtain ⟨_,rfl⟩ := Prod.mk.inj (List.mem_singleton.1 hother)
      exact min_le_right _ _

theorem lowest_append_new {insertions : List (Digest × ℕ)} {digest : Digest}
    (h : digest ∉ insertions.map Prod.fst) (cand : ℕ) :
    IsLowest (insertions ++ [(digest,cand)]) digest cand := by
  refine ⟨by simp,fun other hother => ?_⟩
  rcases List.mem_append.1 hother with hother | hother
  · exact absurd (List.mem_map_of_mem hother) h
  · obtain ⟨_,rfl⟩ := Prod.mk.inj (List.mem_singleton.1 hother)
    exact le_refl _

theorem lowest_append_other {insertions : List (Digest × ℕ)} {digest other : Digest}
    (hne : other ≠ digest) {leader : ℕ} (h : IsLowest insertions other leader) (cand : ℕ) :
    IsLowest (insertions ++ [(digest,cand)]) other leader := by
  refine ⟨List.mem_append_left _ h.1,fun c hc => ?_⟩
  rcases List.mem_append.1 hc with hc | hc
  · exact h.2 c hc
  · exact absurd (Prod.mk.inj (List.mem_singleton.1 hc)).1 hne

/-- The number of first insertions is that of the digests not seen before. -/
theorem firsts_count (seen : List Digest) (insertions : List (Digest × ℕ)) :
    (firsts seen insertions).count true =
      ((insertions.map Prod.fst).toFinset \ seen.toFinset).card := by
  induction insertions generalizing seen with
  | nil => simp [firsts]
  | cons a insertions ih =>
    obtain ⟨digest,cand⟩ := a
    rw [firsts, List.map_cons, List.toFinset_cons]
    by_cases h : digest ∈ seen
    · rw [List.count_cons_of_ne (by simp [h]), ih]
      congr 1
      ext d
      simp only [Finset.mem_sdiff, List.mem_toFinset, Finset.mem_insert, List.mem_append,
        List.mem_singleton]
      constructor
      · rintro ⟨hd,hs⟩
        exact ⟨Or.inr hd,fun hin => hs (Or.inl hin)⟩
      · rintro ⟨hd,hs⟩
        have hne : d ≠ digest := fun he => hs (he ▸ h)
        exact ⟨hd.resolve_left hne,fun hin => hin.elim hs hne⟩
    · rw [show decide (digest ∉ seen) = true by simpa using h, List.count_cons_self, ih]
      have hset : insert digest (insertions.map Prod.fst).toFinset \ seen.toFinset =
          insert digest ((insertions.map Prod.fst).toFinset \ (seen ++ [digest]).toFinset) := by
        ext d
        simp only [Finset.mem_sdiff, List.mem_toFinset, Finset.mem_insert, List.mem_append,
          List.mem_singleton]
        by_cases hd : d = digest
        · subst hd
          simp [h]
        · simp [hd]
      rw [hset, Finset.card_insert_of_notMem]
      simp

/-! ## A round that fits -/

section Round
variable {n : ℕ}

/-- The keys of a round in a table: each in a slot of its own, with its lowest
candidate. -/
structure Holds (n : ℕ) (map : DigestMap) (done : List (Digest × ℕ)) (table : ℕ → Option Digest) :
    Prop where
  probed : Probed (tableSize n) (start map.mask) table
  vacant : ∀ i < tableSize n, table i = none → (map.slot i).hi >>> 49 ≠ map.round
  held : ∀ i < tableSize n, ∀ digest, table i = some digest →
    (map.slot i).hi = value map.round digest ∧ (map.slot i).lo = digest.lo ∧
      IsLowest done digest (map.slot i).leader
  all : ∀ a ∈ done, ∃ i < tableSize n, table i = some a.1

theorem holds_stops {map : DigestMap} (hr : map.round < 2^15) {done : List (Digest × ℕ)}
    {table : ℕ → Option Digest} (h : Holds n map done table) {digest : Digest}
    (hsep : ∀ a ∈ done, tag a.1 = tag digest → a.1.lo = digest.lo → a.1 = digest) {i : ℕ}
    (hi : i < tableSize n) :
    insertStops map digest i = stops table digest i ∧
      findStops map digest i = decide (table i = some digest) := by
  cases ht : table i with
  | none =>
    have hstamp := h.vacant i hi ht
    have hother : (map.slot i).hi ≠ value map.round digest :=
      fun he => hstamp (he ▸ (value_parts hr digest).1)
    constructor
    · rw [insertStops, stops, ht]
      simp [hstamp]
    · rw [findStops]
      simp [hother]
  | some d =>
    obtain ⟨hhi,hlo,hmem,_⟩ := h.held i hi d ht
    obtain ⟨hstamp,htag⟩ := value_parts hr d
    have hsame : tag d = tag digest ∧ d.lo = digest.lo ↔ d = digest := by
      constructor
      · exact fun he => hsep _ hmem he.1 he.2
      · rintro rfl
        exact ⟨rfl,rfl⟩
    constructor
    · rw [insertStops, stops, ht, hhi, hstamp, htag, hlo]
      simp [hsame]
    · rw [findStops, hhi, hlo]
      rw [decide_eq_decide, Option.some.injEq, ← hsame]
      constructor
      · rintro ⟨hv,hl⟩
        have hparts := (value_parts hr digest).2
        rw [← hv, htag] at hparts
        exact ⟨hparts,hl⟩
      · intro he
        rw [hsame.1 he]
        exact ⟨rfl,rfl⟩

theorem holds_insert {map : DigestMap} (hs : Sized n map) (hr : map.round < 2^15)
    {done : List (Digest × ℕ)} {table : ℕ → Option Digest} (h : Holds n map done table)
    (hlen : done.length < tableSize n) {digest : Digest} (cand : ℕ)
    (hsep : ∀ a ∈ done, tag a.1 = tag digest → a.1.lo = digest.lo → a.1 = digest) :
    ∃ i < tableSize n, ∃ slot table', map.insert digest cand =
        some (decide (digest ∉ done.map Prod.fst),map.setSlot i slot) ∧
      slot.hi = value map.round digest ∧
      Holds n (map.setSlot i slot) (done ++ [(digest,cand)]) table' := by
  have hstart := start_lt hs digest
  have hscan : map.insert digest cand =
      (scan (stops table digest) (tableSize n) (tableSize n) (start map.mask digest)).map
        (insertStopped map digest cand) := by
    rw [DigestMap.insert, insert_at_scan hs, hs.length,
      scan_congr (fun i hi => (holds_stops hr h hsep hi).1) hstart]
  by_cases hin : digest ∈ done.map Prod.fst
  · obtain ⟨a,ha,rfl⟩ := List.mem_map.1 hin
    obtain ⟨i,hi,hti⟩ := h.all a ha
    obtain ⟨hhi,hlo,hleader⟩ := h.held i hi a.1 hti
    have hstamp : ¬ (map.slot i).hi >>> 49 ≠ map.round := by
      rw [hhi, (value_parts hr a.1).1]
      exact fun hne => hne rfl
    refine ⟨i,hi,{ map.slot i with leader := min (map.slot i).leader cand },table,?_,hhi,
      h.probed,?_,?_,?_⟩
    · rw [hscan, scan_found h.probed hstart hi hti, Option.map_some, insertStopped, if_neg hstamp]
      simp only [hin, not_true_eq_false, decide_false]
    · intro j hj htj
      rw [slot_set hs hi]
      split
      · exact absurd htj (by simp_all)
      · exact h.vacant j hj htj
    · intro j hj d htj
      rw [slot_set hs hi]
      split
      case isTrue hji =>
        subst hji
        obtain rfl : a.1 = d := by rw [hti] at htj; exact Option.some.inj htj
        exact ⟨hhi,hlo,lowest_append_self hleader cand⟩
      case isFalse hji =>
        obtain ⟨hhi',hlo',hleader'⟩ := h.held j hj d htj
        refine ⟨hhi',hlo',lowest_append_other ?_ hleader' cand⟩
        rintro rfl
        exact hji (h.probed.once j hj i hi _ htj hti)
    · intro b hb
      rcases List.mem_append.1 hb with hb | hb
      · exact h.all b hb
      · rw [List.mem_singleton.1 hb]
        exact ⟨i,hi,hti⟩
  · have hout : ∀ i < tableSize n, table i ≠ some digest := by
      intro i hi hti
      exact hin (List.mem_map_of_mem (h.held i hi digest hti).2.2.1)
    obtain ⟨i,hi,hfound,hfree,hprobed⟩ := scan_vacant h.probed hstart hout
      (exists_vacant h.probed
        (fun j hj d htj => List.mem_map_of_mem (h.held j hj d htj).2.2.1 :
          ∀ j < tableSize n, ∀ d, table j = some d → d ∈ done.map Prod.fst) (by simpa using hlen))
    refine ⟨i,hi,{ hi := value map.round digest, lo := digest.lo, leader := cand },
      Function.update table i (some digest),?_,rfl,hprobed,?_,?_,?_⟩
    · rw [hscan, hfound, Option.map_some, insertStopped, if_pos (h.vacant i hi hfree)]
      simp only [hin, not_false_eq_true, decide_true]
    · intro j hj htj
      rw [slot_set hs hi]
      split
      case isTrue hji => rw [hji, Function.update_self] at htj; cases htj
      case isFalse hji =>
        rw [Function.update_of_ne hji] at htj
        exact h.vacant j hj htj
    · intro j hj d htj
      rw [slot_set hs hi]
      split
      case isTrue hji =>
        rw [hji, Function.update_self] at htj
        obtain rfl := Option.some.inj htj
        exact ⟨rfl,rfl,lowest_append_new hin cand⟩
      case isFalse hji =>
        rw [Function.update_of_ne hji] at htj
        obtain ⟨hhi',hlo',hleader'⟩ := h.held j hj d htj
        refine ⟨hhi',hlo',lowest_append_other ?_ hleader' cand⟩
        rintro rfl
        exact hout j hj htj
    · intro b hb
      rcases List.mem_append.1 hb with hb | hb
      · obtain ⟨j,hj,htj⟩ := h.all b hb
        have hji : j ≠ i := by
          rintro rfl
          rw [hfree] at htj
          cases htj
        exact ⟨j,hj,by rw [Function.update_of_ne hji, htj]⟩
      · rw [List.mem_singleton.1 hb]
        exact ⟨i,hi,Function.update_self ..⟩

/-! ## Any round -/

/-- A round whose number fits the slots' bits, or whose insertions all start at
different slots. -/
def Fits (n number : ℕ) (insertions : List (Digest × ℕ)) : Prop :=
  number < 2^15 ∨
    insertions.Pairwise fun a b => start (tableSize n-1) a.1 ≠ start (tableSize n-1) b.1

/-- A map during a round. Past the last round that fits, every slot reads as
vacant, so an insertion writes the slot it starts at. -/
structure InRound (n : ℕ) (map : DigestMap) (done : List (Digest × ℕ)) : Prop where
  sized : Sized n map
  small : ∀ i, (map.slot i).hi < 2^64
  stamps : map.round < 2^15 → ∀ i, (map.slot i).hi >>> 49 ≤ map.round
  fitting : map.round < 2^15 → ∃ table, Holds n map done table
  past : 2^15 ≤ map.round → ∀ a ∈ done, map.slot (start map.mask a.1) =
    { hi := value map.round a.1, lo := a.1.lo, leader := a.2 }

/-- A map as a round begins. -/
structure Fresh (n : ℕ) (map : DigestMap) : Prop where
  sized : Sized n map
  small : ∀ i, (map.slot i).hi < 2^64
  stamps : map.round < 2^15 → ∀ i, (map.slot i).hi >>> 49 < map.round

theorem fresh_new (n : ℕ) : Fresh n (new n) := by
  have hslot : ∀ i, (new n).slot i = {} := by
    intro i
    rw [DigestMap.slot, new, List.getD_eq_getElem?_getD, List.getElem?_replicate]
    split <;> rfl
  refine ⟨sized_new n,fun i => ?_,fun _ i => ?_⟩
  · rw [hslot]
    decide
  · rw [hslot]
    exact Nat.one_pos

theorem fresh_in_round {map : DigestMap} (h : Fresh n map) : InRound n map [] where
  sized := h.sized
  small := h.small
  stamps hr i := (h.stamps hr i).le
  fitting hr := ⟨fun _ => none,probed_empty,fun i _ _ => (h.stamps hr i).ne,by simp,by simp⟩
  past := by simp

theorem next_fresh {map : DigestMap} {done : List (Digest × ℕ)} (h : InRound n map done) :
    Fresh n map.nextRound where
  sized := ⟨h.sized.mask,h.sized.length⟩
  small := h.small
  stamps hr i := by
    have hr' : map.round+1 < 2^15 := hr
    have hle := h.stamps (by omega) i
    exact Nat.lt_succ_of_le hle

theorem insert_in_round {map : DigestMap} {done : List (Digest × ℕ)} (h : InRound n map done)
    {digest : Digest} (cand : ℕ) (hlen : done.length < tableSize n)
    (hsep : ∀ a ∈ done, tag a.1 = tag digest → a.1.lo = digest.lo → a.1 = digest)
    (hstart : 2^15 ≤ map.round → ∀ a ∈ done, start map.mask a.1 ≠ start map.mask digest) :
    ∃ map', map.insert digest cand = some (decide (digest ∉ done.map Prod.fst),map') ∧
      map'.round = map.round ∧ InRound n map' (done ++ [(digest,cand)]) := by
  have hs := h.sized
  rcases Nat.lt_or_ge map.round (2^15) with hr | hr
  · obtain ⟨table,htable⟩ := h.fitting hr
    obtain ⟨i,hi,slot,table',hinsert,hhi,hholds⟩ := holds_insert hs hr htable hlen cand hsep
    refine ⟨map.setSlot i slot,hinsert,rfl,sized_set hs i slot,fun j => ?_,fun _ j => ?_,
      fun _ => ⟨table',hholds⟩,fun hr' => absurd hr (Nat.not_lt.2 hr')⟩
    · rw [slot_set hs hi]
      split
      · rw [hhi]
        exact value_lt _ _
      · exact h.small j
    · rw [slot_set hs hi]
      split
      · rw [hhi, (value_parts hr digest).1]
        exact le_refl _
      · exact h.stamps hr j
  · have hi := start_lt hs digest
    have hvacant : (map.slot (start map.mask digest)).hi >>> 49 ≠ map.round :=
      ((stamp_lt (h.small _)).trans_le hr).ne
    have hout : digest ∉ done.map Prod.fst := by
      intro hin
      obtain ⟨a,ha,rfl⟩ := List.mem_map.1 hin
      exact hstart hr a ha rfl
    have hinsert : map.insert digest cand = some (true,map.setSlot (start map.mask digest)
        { hi := value map.round digest, lo := digest.lo, leader := cand }) := by
      obtain ⟨m,hm⟩ := Nat.exists_eq_succ_of_ne_zero (table_size_pos n).ne'
      rw [DigestMap.insert, hs.length, hm, DigestMap.insertAt, if_pos hvacant]
    refine ⟨map.setSlot (start map.mask digest)
        { hi := value map.round digest, lo := digest.lo, leader := cand },
      by rw [hinsert]; simp only [hout, not_false_eq_true, decide_true],rfl,sized_set hs _ _,
      fun j => ?_,fun hr' => absurd hr' (Nat.not_lt.2 hr),
      fun hr' => absurd hr' (Nat.not_lt.2 hr),fun _ a ha => ?_⟩
    · rw [slot_set hs hi]
      split
      · exact value_lt _ _
      · exact h.small j
    · rcases List.mem_append.1 ha with ha | ha
      · rw [slot_set hs hi]
        exact (if_neg (hstart hr a ha)).trans (h.past hr a ha)
      · rw [List.mem_singleton.1 ha, slot_set hs hi]
        exact if_pos rfl

theorem insert_all_in_round {map : DigestMap} {done insertions : List (Digest × ℕ)}
    (h : InRound n map done) (hlen : (done ++ insertions).length ≤ n)
    (hsep : Separated (done ++ insertions)) (hfits : Fits n map.round (done ++ insertions)) :
    ∃ map', insertAll map insertions = some (firsts (done.map Prod.fst) insertions,map') ∧
      map'.round = map.round ∧ InRound n map' (done ++ insertions) := by
  induction insertions generalizing map done with
  | nil => exact ⟨map,rfl,rfl,by rwa [List.append_nil]⟩
  | cons a insertions ih =>
    obtain ⟨digest,cand⟩ := a
    have hsize := lt_table_size n
    rw [List.length_append, List.length_cons] at hlen
    obtain ⟨map₁,hinsert,hround,hin⟩ := insert_in_round h cand (by omega)
      (fun b hb => hsep b (List.mem_append_left _ hb) (digest,cand)
        (List.mem_append_right _ List.mem_cons_self))
      (fun hr b hb => by
        rcases hfits with hfits | hfits
        · exact absurd hfits (Nat.not_lt.2 hr)
        · rw [h.sized.mask]
          exact (List.pairwise_append.1 hfits).2.2 b hb _ List.mem_cons_self)
    rw [List.append_cons] at hsep hfits
    obtain ⟨map₂,hall,hround',hin'⟩ := ih hin (by
      rw [List.length_append, List.length_append, List.length_singleton]
      omega) hsep (hround ▸ hfits)
    refine ⟨map₂,?_,hround'.trans hround,by rwa [List.append_cons]⟩
    rw [insertAll, hinsert]
    simp only [bind, Option.bind_some]
    rw [hall, firsts]
    simp

/-- A lookup of a digest inserted in the round. -/
theorem find_in_round {map : DigestMap} {done : List (Digest × ℕ)} (h : InRound n map done)
    (hsep : Separated done) {digest : Digest}
    (hd : digest ∈ done.map Prod.fst) : ∃ cand, map.find digest = some cand ∧
      IsLowest done digest cand := by
  obtain ⟨⟨digest,cand⟩,ha,rfl⟩ := List.mem_map.1 hd
  have hs := h.sized
  rcases Nat.lt_or_ge map.round (2^15) with hr | hr
  · obtain ⟨table,htable⟩ := h.fitting hr
    obtain ⟨i,hi,hti⟩ := htable.all _ ha
    refine ⟨(map.slot i).leader,?_,(htable.held i hi digest hti).2.2⟩
    rw [DigestMap.find, find_at_scan hs, hs.length, scan_congr
      (fun j hj => (holds_stops hr htable (fun b hb => hsep b hb _ ha) hj).2) (start_lt hs digest),
      scan_key htable.probed (start_lt hs digest) hi hti]
    rfl
  · have hslot := h.past hr _ ha
    refine ⟨cand,?_,ha,fun other hother => ?_⟩
    · obtain ⟨m,hm⟩ := Nat.exists_eq_succ_of_ne_zero (table_size_pos n).ne'
      rw [DigestMap.find, hs.length, hm, DigestMap.findAt, hslot]
      exact if_pos ⟨rfl,rfl⟩
    · have hslot' := h.past hr _ hother
      rw [hslot] at hslot'
      exact (DigestSlot.mk.inj hslot').2.2.le

theorem rounds_fresh {map : DigestMap} (h : Fresh n map) {history : List (List (Digest × ℕ))}
    (hsize : ∀ round ∈ history, round.length ≤ n) (hsep : ∀ round ∈ history, Separated round)
    (hfits : ∀ k round, history[k]? = some round → Fits n (map.round+k) round) :
    ∃ map', rounds map history = some map' ∧ map'.round = map.round+history.length ∧
      Fresh n map' := by
  induction history generalizing map with
  | nil => exact ⟨map,rfl,rfl,h⟩
  | cons round history ih =>
    obtain ⟨map₁,hall,hround,hin⟩ := insert_all_in_round (fresh_in_round h)
      (hsize round List.mem_cons_self) (hsep round List.mem_cons_self) (hfits 0 round rfl)
    have hnext : map₁.nextRound.round = map.round+1 := by rw [← hround]; rfl
    obtain ⟨map₂,hrounds,hround',hfresh⟩ := ih (next_fresh hin)
      (fun r hr => hsize r (List.mem_cons_of_mem _ hr))
      (fun r hr => hsep r (List.mem_cons_of_mem _ hr)) (fun k r hk => by
        have hfit := hfits (k+1) r hk
        rwa [show map.round+(k+1) = map₁.nextRound.round+k by omega] at hfit)
    refine ⟨map₂,?_,?_,hfresh⟩
    · rw [rounds, hall]
      exact hrounds
    · rw [hround', hnext, List.length_cons]
      omega

/-- Whatever earlier rounds left in the slots: an insertion returns true just
when it is the first of its digest in the round, and a lookup finds the lowest
candidate, in a round whose number fits or whose insertions start apart. -/
theorem digest_map_rounds (n : ℕ) (history : List (List (Digest × ℕ)))
    (current : List (Digest × ℕ)) (hsize : ∀ round ∈ history ++ [current], round.length ≤ n)
    (hsep : ∀ round ∈ history ++ [current], Separated round)
    (hfits : ∀ k round, (history ++ [current])[k]? = some round → Fits n (k+1) round) :
    ∃ map areNew map', rounds (new n) history = some map ∧
      insertAll map current = some (areNew,map') ∧ areNew = firsts [] current ∧
      (∀ before, before.nextRound = map → (countNumClasses before current).map Prod.fst =
        some (current.map Prod.fst).toFinset.card) ∧
      ∀ digest ∈ current.map Prod.fst, ∃ cand, map'.find digest = some cand ∧
        IsLowest current digest cand := by
  have hlast : ∀ k round, history[k]? = some round → Fits n ((new n).round+k) round := by
    intro k round hk
    rw [show (new n).round+k = k+1 from Nat.add_comm 1 k]
    apply hfits
    rw [List.getElem?_append_left (List.getElem?_eq_some_iff.1 hk).1, hk]
  obtain ⟨map,hrounds,hround,hfresh⟩ := rounds_fresh (fresh_new n)
    (fun r hr => hsize r (List.mem_append_left _ hr))
    (fun r hr => hsep r (List.mem_append_left _ hr)) hlast
  have hmem : current ∈ history ++ [current] := by simp
  have hfit : Fits n map.round current := by
    rw [hround, show (new n).round+history.length = history.length+1 from Nat.add_comm _ _]
    exact hfits history.length current (by simp)
  obtain ⟨map',hall,_,hin⟩ := insert_all_in_round (fresh_in_round hfresh) (hsize current hmem)
    (hsep current hmem) hfit
  refine ⟨map,_,map',hrounds,hall,rfl,?_,fun digest hd => find_in_round hin (hsep current hmem) hd⟩
  intro before hbefore
  rw [countNumClasses, hbefore, hall]
  have hcount := firsts_count [] current
  rw [List.toFinset_nil, Finset.sdiff_empty] at hcount
  simpa using hcount

end Round

def someDigest (k : ℕ) : Digest := { hi := UInt64.ofNat (k*2^16), lo := 0 }

theorem digest_map_two_rounds :
    ∃ map areNew map', rounds (new 2) [[(someDigest 1,5),(someDigest 2,3)]] = some map ∧
      insertAll map [(someDigest 1,7),(someDigest 1,4)] = some (areNew,map') ∧
      areNew = firsts [] [(someDigest 1,7),(someDigest 1,4)] ∧
      (∀ before, before.nextRound = map →
        (countNumClasses before [(someDigest 1,7),(someDigest 1,4)]).map Prod.fst =
          some ([(someDigest 1,7),(someDigest 1,4)].map Prod.fst).toFinset.card) ∧
      ∀ digest ∈ [(someDigest 1,7),(someDigest 1,4)].map Prod.fst, ∃ cand,
        map'.find digest = some cand ∧ IsLowest [(someDigest 1,7),(someDigest 1,4)] digest cand := by
  refine digest_map_rounds 2 [[(someDigest 1,5),(someDigest 2,3)]]
    [(someDigest 1,7),(someDigest 1,4)] (by decide) ?_ ?_
  · unfold Separated
    decide
  · intro k round hk
    left
    have hlt := (List.getElem?_eq_some_iff.1 hk).1
    simp at hlt
    omega

/-! ## Past the rounds that fit -/

theorem rounds_idle (map : DigestMap) (k : ℕ) :
    rounds map (List.replicate k []) = some { map with round := map.round+k } := by
  induction k generalizing map with
  | zero => rfl
  | succ k ih =>
    rw [List.replicate_succ, rounds, insertAll]
    simp only [bind, Option.bind_some]
    rw [ih, DigestMap.nextRound, Nat.add_right_comm, ← Nat.add_assoc]

/-- After 32767 calls of `next_round` a digest inserted twice is new twice. -/
theorem round_overflow : ¬ ∀ (n : ℕ) (history : List (List (Digest × ℕ)))
    (current : List (Digest × ℕ)), (∀ round ∈ history ++ [current], round.length ≤ n) →
    (∀ round ∈ history ++ [current], Separated round) →
    ∃ map areNew map', rounds (new n) history = some map ∧
      insertAll map current = some (areNew,map') ∧ areNew = firsts [] current := by
  intro h
  have hempty : ∀ round ∈ List.replicate (2^15-1) ([] : List (Digest × ℕ)) ++
      [[(someDigest 1,0),(someDigest 1,1)]],
      round = [] ∨ round = [(someDigest 1,0),(someDigest 1,1)] := by
    intro round hround
    rcases List.mem_append.1 hround with hround | hround
    · exact Or.inl (List.eq_of_mem_replicate hround)
    · exact Or.inr (List.mem_singleton.1 hround)
  obtain ⟨map,areNew,map',hrounds,hall,hnew⟩ := h 2 (List.replicate (2^15-1) [])
    [(someDigest 1,0),(someDigest 1,1)]
    (by
      intro round hround
      rcases hempty round hround with rfl | rfl <;> decide)
    (by
      intro round hround
      rcases hempty round hround with rfl | rfl
      · simp [Separated]
      · unfold Separated
        decide)
  rw [rounds_idle] at hrounds
  obtain rfl := Option.some.inj hrounds
  have hboth : (insertAll { new 2 with round := (new 2).round+(2^15-1) }
      [(someDigest 1,0),(someDigest 1,1)]).map Prod.fst = some [true,true] := by decide +kernel
  rw [hall, hnew] at hboth
  have hbits : firsts [] [(someDigest 1,0),(someDigest 1,1)] = [true,true] :=
    Option.some.inj hboth
  exact absurd hbits (by decide)

end MoldMacho.Icf
