import MoldMacho.SymbolTable.Sharded

/-!
# Interning a batch

What each shard makes of its part of a batch, and that the batch as a whole
is interned as its names would be one by one.
-/

set_option autoImplicit false

namespace MoldMacho.ShardedTable
open Symbols MoldMacho.Lists

namespace SymbolTable

/-! ## A shard -/

section Shard
variable {shard : ShardMap}

/-- A name's resolution, given the shard's new names. -/
def Right (shard : ShardMap) (news : List (Name × ℕ)) (p : Name × ℕ) : Resolved → Prop
  | .old id => shard ⟨p.2,p.1⟩ = some id
  | .new k => shard ⟨p.2,p.1⟩ = none ∧ news[k]? = some p

/-- What a shard has made of the entries it has seen. -/
structure Seen (shard : ShardMap) (done : List ((Name × ℕ) × ℕ)) (result : ShardResult) : Prop where
  nodup : result.news.Nodup
  news : ∀ p, p ∈ result.news ↔ p ∈ done.map Prod.fst ∧ shard ⟨p.2,p.1⟩ = none
  newmap : ∀ p k, result.newmap ⟨p.2,p.1⟩ = some k ↔ result.news[k]? = some p
  places : result.out.map Prod.fst = done.map Prod.snd
  out : ∀ w ∈ result.out, ∃ p, (p,w.1) ∈ done ∧ Right shard result.news p w.2

theorem seen_start (shard : ShardMap) : Seen shard [] {} :=
  ⟨List.nodup_nil,by simp,by simp,rfl,by simp⟩

theorem Right.append {news : List (Name × ℕ)} {p : Name × ℕ} {r : Resolved} (h : Right shard news p r)
    (more : List (Name × ℕ)) : Right shard (news ++ more) p r := by
  cases r with
  | old id => exact h
  | new k =>
    obtain ⟨hnone,hk⟩ := h
    exact ⟨hnone,by rw [List.getElem?_append_left (List.getElem?_eq_some_iff.1 hk).1, hk]⟩

theorem Seen.out_step {done : List ((Name × ℕ) × ℕ)} {result : ShardResult} (h : Seen shard done result)
    (more : List (Name × ℕ)) {entry : (Name × ℕ) × ℕ} {r : Resolved}
    (hr : Right shard (result.news ++ more) entry.1 r) :
    ∀ w ∈ result.out ++ [(entry.2,r)], ∃ p, (p,w.1) ∈ done ++ [entry] ∧
      Right shard (result.news ++ more) p w.2 := by
  intro w hw
  rcases List.mem_append.mp hw with hw | hw
  · obtain ⟨p,hp,hright⟩ := h.out w hw
    exact ⟨p,List.mem_append_left _ hp,hright.append more⟩
  · obtain rfl := List.mem_singleton.mp hw
    exact ⟨entry.1,by simp,hr⟩

theorem Seen.places_step {done : List ((Name × ℕ) × ℕ)} {result : ShardResult}
    (h : Seen shard done result) (entry : (Name × ℕ) × ℕ) (r : Resolved) :
    (result.out ++ [(entry.2,r)]).map Prod.fst = (done ++ [entry]).map Prod.snd := by
  simp [h.places]

/-- An entry whose name is in the table or was seen before. -/
theorem Seen.known {done : List ((Name × ℕ) × ℕ)} {result : ShardResult} (h : Seen shard done result)
    {entry : (Name × ℕ) × ℕ} {r : Resolved}
    (hknown : shard ⟨entry.1.2,entry.1.1⟩ = none → entry.1 ∈ done.map Prod.fst)
    (hr : Right shard result.news entry.1 r) :
    Seen shard (done ++ [entry]) { result with out := result.out ++ [(entry.2,r)] } := by
  refine ⟨h.nodup,fun p => ?_,h.newmap,h.places_step entry r,?_⟩
  · rw [h.news p]
    constructor
    · rintro ⟨hp,hnone⟩
      exact ⟨by simp [hp],hnone⟩
    · rintro ⟨hp,hnone⟩
      rw [List.map_append, List.mem_append] at hp
      rcases hp with hp | hp
      · exact ⟨hp,hnone⟩
      · obtain rfl : p = entry.1 := by simpa using hp
        exact ⟨hknown hnone,hnone⟩
  · have hr' : Right shard (result.news ++ []) entry.1 r := by rwa [List.append_nil]
    have hout := h.out_step [] hr'
    rwa [List.append_nil] at hout

theorem newmap_fresh {news : List (Name × ℕ)} {newmap : ShardMap}
    (h : ∀ p k, newmap ⟨p.2,p.1⟩ = some k ↔ news[k]? = some p) {q : Name × ℕ} (hq : q ∉ news)
    (p : Name × ℕ) (k : ℕ) :
    Function.update newmap ⟨q.2,q.1⟩ (some news.length) ⟨p.2,p.1⟩ = some k ↔
      (news ++ [q])[k]? = some p := by
  rw [List.getElem?_append]
  by_cases hp : p = q
  · subst hp
    rw [Function.update_self, Option.some.injEq]
    split
    case isTrue hlt =>
      constructor
      · intro he
        omega
      · intro hk
        exact absurd (List.mem_of_getElem? hk) hq
    case isFalse hge =>
      rw [List.getElem?_singleton]
      constructor
      · intro he
        rw [if_pos (by omega)]
      · intro hk
        split at hk
        case isTrue hzero => omega
        case isFalse => cases hk
  · have hne : (⟨p.2,p.1⟩ : Key) ≠ ⟨q.2,q.1⟩ := by
      intro he
      obtain ⟨h2,h1⟩ := Key.mk.inj he
      exact hp (Prod.ext h1 h2)
    rw [Function.update_of_ne hne, h p k]
    split
    case isTrue => rfl
    case isFalse hge =>
      rw [List.getElem?_eq_none (by omega), List.getElem?_singleton]
      split
      · simp [Ne.symm hp]
      · rfl

/-- An entry whose name is new to the shard. -/
theorem Seen.fresh {done : List ((Name × ℕ) × ℕ)} {result : ShardResult} (h : Seen shard done result)
    {entry : (Name × ℕ) × ℕ} (hold : shard ⟨entry.1.2,entry.1.1⟩ = none)
    (hfresh : entry.1 ∉ result.news) :
    Seen shard (done ++ [entry])
      { news := result.news ++ [entry.1]
        newmap := Function.update result.newmap ⟨entry.1.2,entry.1.1⟩ (some result.news.length)
        out := result.out ++ [(entry.2,.new result.news.length)] } := by
  refine ⟨?_,fun p => ?_,newmap_fresh h.newmap hfresh,h.places_step entry _,?_⟩
  · exact List.nodup_append'.mpr ⟨h.nodup,by simp,by simpa using hfresh⟩
  · rw [List.mem_append, h.news p, List.map_append, List.mem_append, List.map_singleton,
      List.mem_singleton]
    constructor
    · rintro (⟨hp,hnone⟩ | rfl)
      · exact ⟨.inl hp,hnone⟩
      · exact ⟨.inr rfl,hold⟩
    · rintro ⟨hp | rfl,hnone⟩
      · exact .inl ⟨hp,hnone⟩
      · exact .inr rfl
  · exact h.out_step [entry.1] ⟨hold,by simp⟩

theorem seen_step {done : List ((Name × ℕ) × ℕ)} {result : ShardResult} (h : Seen shard done result)
    (entry : (Name × ℕ) × ℕ) : Seen shard (done ++ [entry]) (resolve shard result entry) := by
  unfold resolve
  dsimp only
  split
  · next id hold => exact h.known (fun hnone => by rw [hold] at hnone; cases hnone) hold
  · next hold =>
    split
    · next k hmap =>
      have hk := (h.newmap entry.1 k).mp hmap
      exact h.known (fun _ => ((h.news entry.1).mp (List.mem_of_getElem? hk)).1) ⟨hold,hk⟩
    · next hmap =>
      apply h.fresh hold
      intro hmem
      obtain ⟨k,hk⟩ := List.mem_iff_getElem?.mp hmem
      rw [(h.newmap entry.1 k).mpr hk] at hmap
      cases hmap

/-- A shard sees all of its bin. -/
theorem seen_run (shard : ShardMap) (entries : List ((Name × ℕ) × ℕ)) :
    Seen shard entries (entries.foldl (resolve shard) {}) := by
  have hrun : ∀ (done : List ((Name × ℕ) × ℕ)) (result : ShardResult), Seen shard done result →
      Seen shard (done ++ entries) (entries.foldl (resolve shard) result) := by
    induction entries with
    | nil =>
      intro done result h
      rwa [List.append_nil]
    | cons entry entries ih =>
      intro done result h
      have hnext := ih _ _ (seen_step h entry)
      rwa [List.append_assoc, List.singleton_append] at hnext
  exact hrun [] {} (seen_start shard)

/-- The new names of a shard are in its map, and nothing else changes. -/
theorem insert_news (base : ℕ) (shard : ShardMap) {news : List (Name × ℕ)} (hnews : news.Nodup) :
    (∀ k p, news[k]? = some p → insertNews base shard news ⟨p.2,p.1⟩ = some (base+k)) ∧
      ∀ key : Key, (key.key,key.hash) ∉ news → insertNews base shard news key = shard key := by
  have hrun : ∀ (n : ℕ) (shard : ShardMap),
      let insert := (news.zipIdx n).foldl (fun (shard : ShardMap) entry =>
        Function.update shard ⟨entry.1.2,entry.1.1⟩ (some (base+entry.2))) shard
      (∀ k p, news[k]? = some p → insert ⟨p.2,p.1⟩ = some (base+(n+k))) ∧
        ∀ key : Key, (key.key,key.hash) ∉ news → insert key = shard key := by
    induction news with
    | nil => simp
    | cons q news ih =>
      obtain ⟨hq,hnews⟩ := List.nodup_cons.mp hnews
      intro n shard
      obtain ⟨hin,hout⟩ :=
        ih hnews (n+1) (Function.update shard ⟨q.2,q.1⟩ (some (base+n)))
      rw [List.zipIdx_cons, List.foldl_cons]
      constructor
      · intro k p hk
        cases k with
        | zero =>
          obtain rfl : q = p := by simpa using hk
          rw [hout ⟨q.2,q.1⟩ hq, Function.update_self, Nat.add_zero]
        | succ k =>
          rw [hin k p (by simpa using hk)]
          congr 1
          omega
      · intro key hkey
        rw [List.mem_cons, not_or] at hkey
        rw [hout key hkey.2, Function.update_of_ne]
        rintro rfl
        exact hkey.1 rfl
  have h := hrun 0 shard
  simpa [insertNews] using h

end Shard

/-! ## The batch -/

section Batch
variable {hashKey : Name → ℕ} {t : SymbolTable} {names : List Name}

theorem mem_bin {s : Fin numShards} {p : Name × ℕ} {i : ℕ} :
    (p,i) ∈ bin (keyed hashKey names) s ↔
      names[i]? = some p.1 ∧ p.2 = hashKey p.1 ∧ shardOf (hashKey p.1) = s := by
  rw [bin, List.mem_filter, List.mem_zipIdx_iff_getElem?, keyed, List.getElem?_map,
    Option.map_eq_some_iff]
  constructor
  · rintro ⟨⟨n,hn,rfl⟩,hs⟩
    exact ⟨hn,rfl,by simpa using hs⟩
  · rintro ⟨hn,hh,hs⟩
    refine ⟨⟨p.1,hn,by rw [← hh]⟩,?_⟩
    simpa [hh] using hs

theorem mem_bin_names {s : Fin numShards} {p : Name × ℕ} :
    p ∈ (bin (keyed hashKey names) s).map Prod.fst ↔
      p.1 ∈ names ∧ p.2 = hashKey p.1 ∧ shardOf (hashKey p.1) = s := by
  rw [List.mem_map]
  constructor
  · rintro ⟨⟨q,i⟩,hq,rfl⟩
    obtain ⟨hi,hh,hs⟩ := mem_bin.mp hq
    exact ⟨List.mem_of_getElem? hi,hh,hs⟩
  · rintro ⟨hn,hh,hs⟩
    obtain ⟨i,hi⟩ := List.mem_iff_getElem?.mp hn
    exact ⟨(p,i),mem_bin.mpr ⟨hi,hh,hs⟩,rfl⟩

theorem results_seen (t : SymbolTable) (batch : List (Name × ℕ)) (s : Fin numShards) :
    Seen (t.shards s) (bin batch s) (t.results batch s) := seen_run _ _

theorem mem_news {s : Fin numShards} {p : Name × ℕ} :
    p ∈ (t.results (keyed hashKey names) s).news ↔
      p.1 ∈ names ∧ p.2 = hashKey p.1 ∧ shardOf (hashKey p.1) = s ∧ t.lookup hashKey p.1 = none := by
  rw [(results_seen t _ s).news p, mem_bin_names]
  constructor
  · rintro ⟨⟨hn,hh,rfl⟩,hnone⟩
    rw [hh] at hnone
    exact ⟨hn,hh,rfl,hnone⟩
  · rintro ⟨hn,hh,rfl,hnone⟩
    rw [hh]
    exact ⟨⟨hn,rfl,rfl⟩,hnone⟩

/-- A name the batch does not bring, or that was there before, keeps its
symbol. -/
theorem lookup_gather_same {name : Name} (h : name ∈ names → t.lookup hashKey name ≠ none) :
    (t.gather (keyed hashKey names)).1.lookup hashKey name = t.lookup hashKey name := by
  have hseen := results_seen t (keyed hashKey names) (shardOf (hashKey name))
  apply (insert_news _ _ hseen.nodup).2
  intro hmem
  obtain ⟨hn,-,-,hnone⟩ := mem_news.mp hmem
  exact h hn hnone

theorem lookup_gather_new {s : Fin numShards} {p : Name × ℕ} {k : ℕ}
    (hk : (t.results (keyed hashKey names) s).news[k]? = some p) :
    (t.gather (keyed hashKey names)).1.lookup hashKey p.1 =
      some (t.base (t.results (keyed hashKey names)) s+k) := by
  obtain ⟨-,hh,rfl,-⟩ := mem_news.mp (List.mem_of_getElem? hk)
  have hseen := results_seen t (keyed hashKey names) (shardOf (hashKey p.1))
  have hin := (insert_news (t.base (t.results (keyed hashKey names)) (shardOf (hashKey p.1)))
    (t.shards (shardOf (hashKey p.1))) hseen.nodup).1 k p hk
  rwa [hh] at hin

/-- The new names, shard by shard. -/
def newNames (t : SymbolTable) (batch : List (Name × ℕ)) : List Name :=
  (List.finRange numShards).flatMap fun s => (t.results batch s).news.map Prod.fst

theorem mem_new_names {name : Name} :
    name ∈ newNames t (keyed hashKey names) ↔ name ∈ names ∧ t.lookup hashKey name = none := by
  rw [newNames, List.mem_flatMap]
  constructor
  · rintro ⟨s,-,hmem⟩
    obtain ⟨p,hp,rfl⟩ := List.mem_map.mp hmem
    obtain ⟨hn,-,-,hnone⟩ := mem_news.mp hp
    exact ⟨hn,hnone⟩
  · rintro ⟨hn,hnone⟩
    exact ⟨shardOf (hashKey name),List.mem_finRange _,
      List.mem_map.mpr ⟨(name,hashKey name),mem_news.mpr ⟨hn,rfl,rfl,hnone⟩,rfl⟩⟩

theorem new_names_nodup (t : SymbolTable) (hashKey : Name → ℕ) (names : List Name) :
    (newNames t (keyed hashKey names)).Nodup := by
  rw [newNames, List.nodup_flatMap]
  constructor
  · intro s _
    refine List.Nodup.map_on ?_ (results_seen t _ s).nodup
    intro p hp q hq he
    obtain ⟨-,hh,-⟩ := mem_news.mp hp
    obtain ⟨-,hh',-⟩ := mem_news.mp hq
    exact Prod.ext he (by rw [hh, hh', he])
  · refine (List.nodup_finRange numShards).imp fun {a b} hne => ?_
    intro name ha hb
    obtain ⟨p,hp,rfl⟩ := List.mem_map.mp ha
    obtain ⟨q,hq,he⟩ := List.mem_map.mp hb
    obtain ⟨-,-,rfl,-⟩ := mem_news.mp hp
    obtain ⟨-,-,rfl,-⟩ := mem_news.mp hq
    exact hne (by rw [he])

/-- A shard's new names take the slots from its base on. -/
theorem new_names_get {batch : List (Name × ℕ)} {s : Fin numShards} {k : ℕ} {p : Name × ℕ}
    (hk : (t.results batch s).news[k]? = some p) :
    (newNames t batch)[t.base (t.results batch) s-t.syms.length+k]? = some p.1 := by
  have hs : (List.finRange numShards)[s.val]? = some s := by
    rw [List.getElem?_eq_getElem (by simp)]
    simp
  have hget := flatMap_get (f := fun s => (t.results batch s).news.map Prod.fst) hs (j := k)
    (b := p.1) (by simp [hk])
  simp only [List.length_map] at hget
  rw [newNames, base, Nat.add_sub_cancel_left]
  exact hget

theorem gather_syms (t : SymbolTable) (batch : List (Name × ℕ)) :
    (t.gather batch).1.syms = t.syms ++ newNames t batch := rfl

/-- A new name's symbol is in the slot that holds it. -/
theorem lookup_new {name : Name} (hn : name ∈ names) (hnone : t.lookup hashKey name = none) :
    ∃ k, (newNames t (keyed hashKey names))[k]? = some name ∧
      (t.gather (keyed hashKey names)).1.lookup hashKey name = some (t.syms.length+k) := by
  have hmem : (name,hashKey name) ∈
      (t.results (keyed hashKey names) (shardOf (hashKey name))).news :=
    mem_news.mpr ⟨hn,rfl,rfl,hnone⟩
  obtain ⟨k,hk⟩ := List.mem_iff_getElem?.mp hmem
  refine ⟨_,new_names_get hk,?_⟩
  rw [lookup_gather_new hk, base]
  congr 1
  omega

theorem lookup_known (hashKey : Name → ℕ) (t : SymbolTable) {name : Name} (hn : name ∈ names) :
    ∃ id, (t.gather (keyed hashKey names)).1.lookup hashKey name = some id := by
  by_cases hnone : t.lookup hashKey name = none
  · obtain ⟨k,-,hk⟩ := lookup_new hn hnone
    exact ⟨_,hk⟩
  · rw [lookup_gather_same fun _ => hnone]
    exact Option.ne_none_iff_exists'.mp hnone

/-- What the shards write for the entries of the batch. -/
def gatherWrites (t : SymbolTable) (batch : List (Name × ℕ)) : List (ℕ × SymbolId) :=
  (List.finRange numShards).flatMap fun s =>
    (t.results batch s).out.map fun w => (w.1,w.2.id (t.base (t.results batch) s))

theorem gather_write {w : ℕ × SymbolId} (hw : w ∈ gatherWrites t (keyed hashKey names)) :
    ∃ name, names[w.1]? = some name ∧
      (t.gather (keyed hashKey names)).1.lookup hashKey name = some w.2 := by
  obtain ⟨s,-,hw⟩ := List.mem_flatMap.mp hw
  obtain ⟨⟨i,r⟩,hr,rfl⟩ := List.mem_map.mp hw
  obtain ⟨p,hp,hright⟩ := (results_seen t _ s).out _ hr
  obtain ⟨hi,hh,rfl⟩ := mem_bin.mp hp
  refine ⟨p.1,hi,?_⟩
  cases r with
  | old id =>
    have hold : t.lookup hashKey p.1 = some id := by
      have h : t.shards (shardOf (hashKey p.1)) ⟨p.2,p.1⟩ = some id := hright
      rwa [hh] at h
    rw [lookup_gather_same (by rw [hold]; simp), hold]
    rfl
  | new k => exact lookup_gather_new hright.2

/-- Every entry of the batch gets the symbol its name has afterwards. -/
theorem gather_ids {i : ℕ} {name : Name} (hi : names[i]? = some name) :
    (t.gather (keyed hashKey names)).2[i]? =
      (t.gather (keyed hashKey names)).1.lookup hashKey name := by
  obtain ⟨id,hid⟩ := lookup_known hashKey t (List.mem_of_getElem? hi)
  have hwrites : (t.gather (keyed hashKey names)).2 =
      (gatherWrites t (keyed hashKey names)).foldl (fun ids w => ids.set w.1 w.2)
        (List.replicate (keyed hashKey names).length 0) := rfl
  have hlen : i < (List.replicate (keyed hashKey names).length 0).length := by
    have := (List.getElem?_eq_some_iff.1 hi).1
    simpa [keyed] using this
  have hagree : ∀ w ∈ gatherWrites t (keyed hashKey names), w.2 =
      (((names[w.1]?).bind ((t.gather (keyed hashKey names)).1.lookup hashKey)).getD 0) := by
    intro w hw
    obtain ⟨n,hn,hlook⟩ := gather_write hw
    rw [hn, Option.bind_some, hlook, Option.getD_some]
  have hmem : i ∈ (gatherWrites t (keyed hashKey names)).map Prod.fst := by
    have hbin : i ∈ (bin (keyed hashKey names) (shardOf (hashKey name))).map Prod.snd :=
      List.mem_map.mpr ⟨((name,hashKey name),i),mem_bin.mpr ⟨hi,rfl,rfl⟩,rfl⟩
    rw [← (results_seen t _ (shardOf (hashKey name))).places] at hbin
    obtain ⟨w,hw,rfl⟩ := List.mem_map.mp hbin
    have hwrite : (w.1,w.2.id (t.base (t.results (keyed hashKey names)) (shardOf (hashKey name)))) ∈
        gatherWrites t (keyed hashKey names) :=
      List.mem_flatMap.mpr ⟨_,List.mem_finRange _,List.mem_map.mpr ⟨w,hw,rfl⟩⟩
    exact List.mem_map.mpr ⟨_,hwrite,rfl⟩
  rw [hwrites, foldl_set (g := fun i =>
    ((names[i]?).bind ((t.gather (keyed hashKey names)).1.lookup hashKey)).getD 0) hagree _ hlen,
    if_pos hmem, hi, Option.bind_some, hid, Option.getD_some]

end Batch

/-! ## Runs -/

section Runs
variable {hashKey : Name → ℕ} {t : SymbolTable}

/-- Every name's symbol is in a slot that holds the name. -/
def Sound (hashKey : Name → ℕ) (t : SymbolTable) : Prop :=
  ∀ name id, t.lookup hashKey name = some id → t.syms[id]? = some name

/-- What one step leaves: old slots, old symbols. -/
structure Kept (hashKey : Name → ℕ) (t t' : SymbolTable) : Prop where
  slots : ∀ (id : ℕ) name, t.syms[id]? = some name → t'.syms[id]? = some name
  lookups : ∀ name id, t.lookup hashKey name = some id → t'.lookup hashKey name = some id

theorem get_append {l m : List Name} {i : ℕ} {name : Name} (h : l[i]? = some name) :
    (l ++ m)[i]? = some name := by
  rw [List.getElem?_append_left (List.getElem?_eq_some_iff.1 h).1, h]

theorem intern_some {name : Name} {id : SymbolId} (h : t.lookup hashKey name = some id) :
    t.intern hashKey name = (t,id) := by
  unfold lookup at h
  simp [intern, h]

theorem intern_none {name : Name} (h : t.lookup hashKey name = none) :
    (t.intern hashKey name).2 = t.syms.length ∧
      (t.intern hashKey name).1.syms = t.syms ++ [name] ∧
      ∀ other, (t.intern hashKey name).1.lookup hashKey other =
        if other = name then some t.syms.length else t.lookup hashKey other := by
  have hintern : t.intern hashKey name =
      ({ shards := Function.update t.shards (shardOf (hashKey name))
          (Function.update (t.shards (shardOf (hashKey name))) ⟨hashKey name,name⟩
            (some t.syms.length))
         syms := t.syms ++ [name] },t.syms.length) := by
    unfold lookup at h
    simp [intern, h]
  rw [hintern]
  refine ⟨rfl,rfl,fun other => ?_⟩
  by_cases he : other = name
  · subst he
    simp [lookup]
  · rw [if_neg he]
    unfold lookup
    dsimp only
    by_cases hs : shardOf (hashKey other) = shardOf (hashKey name)
    · rw [hs, Function.update_self, Function.update_of_ne]
      intro hk
      exact he (Key.mk.inj hk).2
    · rw [Function.update_of_ne hs]

theorem step_sound (ht : Sound hashKey t) (op : Op) :
    Sound hashKey (step hashKey t op) ∧ Kept hashKey t (step hashKey t op) := by
  cases op with
  | intern name =>
    rw [step]
    cases h : t.lookup hashKey name with
    | some id =>
      rw [intern_some h]
      exact ⟨ht,fun _ _ h => h,fun _ _ h => h⟩
    | none =>
      obtain ⟨-,hsyms,hlook⟩ := intern_none h
      refine ⟨fun other id hother => ?_,fun i n hi => ?_,fun other id hother => ?_⟩
      · rw [hlook] at hother
        rw [hsyms]
        split at hother
        case isTrue he =>
          obtain rfl := Option.some.inj hother
          rw [he]
          simp
        case isFalse => exact get_append (ht other id hother)
      · rw [hsyms]
        exact get_append hi
      · rw [hlook, if_neg, hother]
        rintro rfl
        rw [h] at hother
        cases hother
  | addLocal name =>
    exact ⟨fun other id hother => get_append (ht other id hother),
      fun _ _ hi => get_append hi,fun _ _ h => h⟩
  | gather names =>
    refine ⟨fun other id hother => ?_,fun _ _ hi => get_append hi,fun other id hother => ?_⟩
    · rw [step, gather_syms]
      by_cases hnew : other ∈ names ∧ t.lookup hashKey other = none
      · obtain ⟨k,hk,hlook⟩ := lookup_new hnew.1 hnew.2
        have hother' : some id = some (t.syms.length+k) := hother.symm.trans hlook
        obtain rfl := Option.some.inj hother'
        rw [List.getElem?_append_right (Nat.le_add_right _ _), Nat.add_sub_cancel_left, hk]
      · have hsame := lookup_gather_same (t := t) fun hn hnone => hnew ⟨hn,hnone⟩
        exact get_append (ht other id (hsame.symm.trans hother))
    · rw [step, lookup_gather_same (by rw [hother]; simp), hother]

theorem run_sound (ht : Sound hashKey t) (ops : List Op) :
    Sound hashKey (run hashKey t ops) ∧ Kept hashKey t (run hashKey t ops) := by
  induction ops generalizing t with
  | nil => exact ⟨ht,fun _ _ h => h,fun _ _ h => h⟩
  | cons op ops ih =>
    obtain ⟨hstep,hkept⟩ := step_sound ht op
    obtain ⟨hrun,hkept'⟩ := ih hstep
    exact ⟨hrun,fun i n h => hkept'.slots i n (hkept.slots i n h),
      fun n id h => hkept'.lookups n id (hkept.lookups n id h)⟩

theorem empty_sound (hashKey : Name → ℕ) : Sound hashKey empty := by
  intro name id h
  cases h

end Runs

/-! ## The batch as a whole -/

section Interned
variable {hashKey : Name → ℕ} {t : SymbolTable} {names : List Name}

/-- Interns names one by one. -/
def internAll (hashKey : Name → ℕ) (t : SymbolTable) (names : List Name) : SymbolTable :=
  names.foldl (fun t name => (t.intern hashKey name).1) t

/-- Interning one by one appends each new name once. -/
theorem intern_all (hashKey : Name → ℕ) (t : SymbolTable) (names : List Name) :
    ∃ news, (internAll hashKey t names).syms = t.syms ++ news ∧ news.Nodup ∧
      ∀ name, name ∈ news ↔ name ∈ names ∧ t.lookup hashKey name = none := by
  induction names generalizing t with
  | nil => exact ⟨[],(List.append_nil _).symm,List.nodup_nil,by simp⟩
  | cons first names ih =>
    rw [internAll, List.foldl_cons]
    cases h : t.lookup hashKey first with
    | some id =>
      rw [intern_some h]
      obtain ⟨news,hsyms,hnodup,hmem⟩ := ih t
      refine ⟨news,hsyms,hnodup,fun name => ?_⟩
      rw [hmem, List.mem_cons]
      constructor
      · rintro ⟨hn,hnone⟩
        exact ⟨.inr hn,hnone⟩
      · rintro ⟨rfl | hn,hnone⟩
        · rw [h] at hnone
          cases hnone
        · exact ⟨hn,hnone⟩
    | none =>
      obtain ⟨-,hfirst,hlook⟩ := intern_none h
      obtain ⟨news,hsyms,hnodup,hmem⟩ := ih (t.intern hashKey first).1
      have hnew (name : Name) : name ∈ news ↔
          name ∈ names ∧ name ≠ first ∧ t.lookup hashKey name = none := by
        rw [hmem, hlook]
        by_cases he : name = first <;> simp [he]
      refine ⟨first::news,?_,?_,fun name => ?_⟩
      · rw [← List.singleton_append, ← List.append_assoc, ← hfirst]
        exact hsyms
      · exact List.nodup_cons.mpr ⟨fun hin => ((hnew first).mp hin).2.1 rfl,hnodup⟩
      · rw [List.mem_cons, List.mem_cons, hnew]
        by_cases he : name = first
        · simp [he, h]
        · simp [he]

/-- What interning a batch of names makes of a table. -/
structure Gathered (hashKey : Name → ℕ) (t : SymbolTable) (names : List Name) (t' : SymbolTable)
    (ids : List SymbolId) : Prop where
  aligned : ids.length = names.length
  /-- One symbol a name. -/
  one_id : ∀ (i j : ℕ) n m, names[i]? = some n → names[j]? = some m → (ids[i]? = ids[j]? ↔ n = m)
  kept : ∀ (i : ℕ) n id, names[i]? = some n → t.lookup hashKey n = some id → ids[i]? = some id
  /-- The new names take the symbols after the old ones, and they are those that
  interning one by one makes, in some order. -/
  news : ∃ news : List Name, t'.syms = t.syms ++ news ∧ news.Nodup ∧
    (∃ news', (internAll hashKey t names).syms = t.syms ++ news' ∧ news.Perm news') ∧
    (∀ n, n ∈ news ↔ n ∈ names ∧ t.lookup hashKey n = none) ∧
    ∀ (i : ℕ) n (k : ℕ), names[i]? = some n → news[k]? = some n → ids[i]? = some (t.syms.length+k)
  slots : ∀ (i : ℕ) n, names[i]? = some n → ∃ id, ids[i]? = some id ∧ t'.syms[id]? = some n
  others : ∀ n, n ∉ names → t'.lookup hashKey n = t.lookup hashKey n

theorem gather_length (t : SymbolTable) (batch : List (Name × ℕ)) :
    (t.gather batch).2.length = batch.length := by
  have hset : ∀ (writes : List (ℕ × SymbolId)) (ids : List SymbolId),
      (writes.foldl (fun ids w => ids.set w.1 w.2) ids).length = ids.length := by
    intro writes
    induction writes with
    | nil => exact fun _ => rfl
    | cons w writes ih =>
      intro ids
      rw [List.foldl_cons, ih, List.length_set]
  exact (hset _ _).trans List.length_replicate

theorem gathered (ht : Sound hashKey t) :
    Gathered hashKey t names (t.gather (keyed hashKey names)).1
      (t.gather (keyed hashKey names)).2 := by
  have hsound : Sound hashKey (t.gather (keyed hashKey names)).1 := (step_sound ht (.gather names)).1
  have hslots : ∀ (i : ℕ) n, names[i]? = some n → ∃ id,
      (t.gather (keyed hashKey names)).2[i]? = some id ∧
        (t.gather (keyed hashKey names)).1.syms[id]? = some n := by
    intro i n hi
    obtain ⟨id,hid⟩ := lookup_known hashKey t (List.mem_of_getElem? hi)
    exact ⟨id,(gather_ids hi).trans hid,hsound n id hid⟩
  refine ⟨?_,fun i j n m hi hj => ?_,fun i n id hi hid => ?_,?_,hslots,fun n hn => ?_⟩
  · rw [gather_length, keyed, List.length_map]
  · constructor
    · intro he
      obtain ⟨id,hid,hslot⟩ := hslots i n hi
      obtain ⟨id',hid',hslot'⟩ := hslots j m hj
      rw [hid, hid'] at he
      rw [Option.some.inj he, hslot'] at hslot
      exact (Option.some.inj hslot).symm
    · rintro rfl
      rw [gather_ids hi, gather_ids hj]
  · rw [gather_ids hi, lookup_gather_same (by rw [hid]; simp), hid]
  · obtain ⟨news,hsyms,hnodup,hmem⟩ := intern_all hashKey t names
    refine ⟨newNames t (keyed hashKey names),rfl,new_names_nodup t hashKey names,
      ⟨news,hsyms,?_⟩,fun n => mem_new_names,fun i n k hi hk => ?_⟩
    · rw [List.perm_ext_iff_of_nodup (new_names_nodup t hashKey names) hnodup]
      exact fun n => mem_new_names.trans (hmem n).symm
    · obtain ⟨hn,hnone⟩ := mem_new_names.mp (List.mem_of_getElem? hk)
      obtain ⟨k',hk',hlook⟩ := lookup_new hn hnone
      have he : k = k' := (List.getElem?_inj (List.getElem?_eq_some_iff.1 hk).1
        (new_names_nodup t hashKey names)).mp (hk.trans hk'.symm)
      rw [gather_ids hi, hlook, he]
  · exact lookup_gather_same fun h => absurd h hn

/-- Interning a batch at once in any table the linker can have does to it what
interning the names one by one does, and the names keep the symbols it gives
whatever is done to the table later. -/
theorem gather_interns (hashKey : Name → ℕ) (ops : List Op) (names : List Name) :
    let t := run hashKey empty ops
    let result := t.gather (keyed hashKey names)
    Gathered hashKey t names result.1 result.2 ∧
      ∀ (later : List Op) (i : ℕ) (n : Name), names[i]? = some n →
        ∃ id, result.2[i]? = some id ∧ (run hashKey result.1 later).lookup hashKey n = some id ∧
          (run hashKey result.1 later).intern hashKey n = (run hashKey result.1 later,id) := by
  intro t result
  have ht : Sound hashKey t := (run_sound (empty_sound hashKey) ops).1
  refine ⟨gathered ht,fun later i n hi => ?_⟩
  obtain ⟨id,hid⟩ := lookup_known hashKey t (List.mem_of_getElem? hi)
  have hsound : Sound hashKey result.1 := (step_sound ht (.gather names)).1
  have hlater := (run_sound hsound later).2.lookups n id hid
  exact ⟨id,(gather_ids hi).trans hid,hlater,intern_some hlater⟩

end Interned

end SymbolTable

end MoldMacho.ShardedTable
