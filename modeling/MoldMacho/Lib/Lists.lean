import Mathlib.Algebra.GroupWithZero.Nat
import Mathlib.Data.List.TakeWhile
import Mathlib.Data.List.Nodup

/-!
# Lists cut by a predicate

Runs that a loop takes off the front of a list, loops over a list that do not
fail, and changes at places of a list.
-/

set_option autoImplicit false

namespace MoldMacho.Lists

variable {α β : Type}

theorem mapM_some {g : α → Option β} {h : α → β} {l : List α}
    (hg : ∀ a ∈ l, g a = some (h a)) : l.mapM g = some (l.map h) := by
  induction l with
  | nil => rfl
  | cons a l ih =>
    rw [List.mapM_cons, hg a (by simp), ih fun b hb => hg b (by simp [hb])]
    rfl

theorem mapM_range_some {g : ℕ → Option β} {h : α → β} {l : List α}
    (hg : ∀ k a, l[k]? = some a → g k = some (h a)) :
    (List.range l.length).mapM g = some (l.map h) := by
  induction l generalizing g with
  | nil => rfl
  | cons a l ih =>
    have hrest := ih (g := g ∘ Nat.succ) fun k b hb => hg (k+1) b hb
    rw [List.length_cons, List.range_succ_eq_map, List.mapM_cons, List.mapM_map, hrest,
      hg 0 a rfl]
    rfl

theorem mapM_mem {g : α → Option β} {l : List α} {bs : List β} (h : l.mapM g = some bs) :
    ∀ b ∈ bs, ∃ a ∈ l, g a = some b := by
  induction l generalizing bs with
  | nil =>
    cases h
    simp
  | cons a l ih =>
    rw [List.mapM_cons] at h
    obtain ⟨b,hb,h⟩ := Option.bind_eq_some_iff.1 h
    obtain ⟨rest,hrest,h⟩ := Option.bind_eq_some_iff.1 h
    cases h
    intro b' hb'
    rcases List.mem_cons.1 hb' with rfl | hb'
    · exact ⟨a,List.mem_cons_self,hb⟩
    · obtain ⟨a',ha',hg⟩ := ih hrest b' hb'
      exact ⟨a',List.mem_cons_of_mem _ ha',hg⟩

theorem forall₂_mem {R : α → β → Prop} {l : List α} {bs : List β} (h : List.Forall₂ R l bs) {a : α}
    (ha : a ∈ l) : ∃ b ∈ bs, R a b := by
  induction h with
  | nil => cases ha
  | cons hab _ ih =>
    rcases List.mem_cons.1 ha with rfl | ha
    · exact ⟨_,List.mem_cons_self,hab⟩
    · obtain ⟨b,hb,hr⟩ := ih ha
      exact ⟨b,List.mem_cons_of_mem _ hb,hr⟩

/-- What every step keeps, a fold keeps. -/
theorem foldlM_keeps {σ : Type} {f : σ → α → Option σ} {I : σ → Prop}
    (hf : ∀ s a s', f s a = some s' → I s → I s') {l : List α} {s s' : σ}
    (h : l.foldlM f s = some s') (hs : I s) : I s' := by
  induction l generalizing s with
  | nil =>
    cases h
    exact hs
  | cons a l ih =>
    rw [List.foldlM_cons] at h
    obtain ⟨next,hnext,h⟩ := Option.bind_eq_some_iff.1 h
    exact ih h (hf s a next hnext hs)

theorem foldlM_congr {σ : Type} {f g : σ → α → Option σ} {l : List α}
    (h : ∀ a ∈ l, ∀ s, f s a = g s a) (s : σ) : l.foldlM f s = l.foldlM g s := by
  induction l generalizing s with
  | nil => rfl
  | cons a l ih =>
    rw [List.foldlM_cons, List.foldlM_cons, h a List.mem_cons_self]
    congr 1
    funext s
    exact ih (fun b hb => h b (List.mem_cons_of_mem _ hb)) s

/-- An item of the lists put one after another. -/
theorem flatMap_get {f : α → List β} {l : List α} {k : ℕ} {a : α} (ha : l[k]? = some a) {j : ℕ} {b : β}
    (hb : (f a)[j]? = some b) :
    (l.flatMap f)[((l.take k).map fun x => (f x).length).sum+j]? = some b := by
  induction l generalizing k with
  | nil => simp at ha
  | cons x l ih =>
    cases k with
    | zero =>
      obtain rfl := Option.some.inj ha
      have hj : j < (f x).length := (List.getElem?_eq_some_iff.1 hb).1
      rw [List.take_zero, List.map_nil, List.sum_nil, Nat.zero_add, List.flatMap_cons,
        List.getElem?_append_left hj, hb]
    | succ k =>
      rw [List.take_succ_cons, List.map_cons, List.sum_cons, List.flatMap_cons, Nat.add_assoc,
        List.getElem?_append_right (Nat.le_add_right _ _), Nat.add_sub_cancel_left]
      exact ih ha

/-- Writes that agree on what each place gets. -/
theorem foldl_set {writes : List (ℕ × α)} {g : ℕ → α} (hg : ∀ w ∈ writes, w.2 = g w.1) (init : List α)
    {i : ℕ} (hi : i < init.length) :
    (writes.foldl (fun l w => l.set w.1 w.2) init)[i]? =
      if i ∈ writes.map Prod.fst then some (g i) else init[i]? := by
  induction writes generalizing init with
  | nil => simp
  | cons w writes ih =>
    have hw : w.2 = g w.1 := hg w (by simp)
    rw [List.foldl_cons, ih (fun v hv => hg v (by simp [hv])) _ (by simpa using hi), List.map_cons]
    by_cases hmem : i ∈ writes.map Prod.fst
    · rw [if_pos hmem, if_pos (List.mem_cons_of_mem _ hmem)]
    · rw [if_neg hmem, List.getElem?_set, hw]
      by_cases he : w.1 = i
      · rw [if_pos he, if_pos (he ▸ hi), if_pos (by simp [he]), he]
      · rw [if_neg he, if_neg (by simpa [Ne.symm he] using hmem)]

section MapAccum
variable {σ : Type}

/-- Maps a list with a state that each step leaves to the next. -/
def mapAccum (f : σ → α → σ × β) : σ → List α → σ × List β
  | s, [] => (s,[])
  | s, a::l =>
    let (s,b) := f s a
    let (s,bs) := mapAccum f s l
    (s,b::bs)

theorem map_accum_cons (f : σ → α → σ × β) (s : σ) (a : α) (l : List α) :
    mapAccum f s (a::l) =
      ((mapAccum f (f s a).1 l).1,(f s a).2::(mapAccum f (f s a).1 l).2) := rfl

theorem map_accum_map {γ : Type} {f : σ → α → σ × β} {g : β → γ} {h : α → γ}
    (hf : ∀ s a, g (f s a).2 = h a) (s : σ) (l : List α) :
    (mapAccum f s l).2.map g = l.map h := by
  induction l generalizing s with
  | nil => rfl
  | cons a l ih => rw [map_accum_cons, List.map_cons, List.map_cons, hf, ih]

/-- If each step puts what it makes between a measure of the state before it
and after, what the steps make lies in order. -/
theorem map_accum_ranges {f : σ → α → σ × β} {I : σ → Prop} {p : β → Prop} {m : σ → ℕ}
    {u v : β → ℕ}
    {l : List α} (hf : ∀ s, ∀ a ∈ l, I s → I (f s a).1 ∧ m s ≤ m (f s a).1 ∧
      (p (f s a).2 → m s ≤ u (f s a).2 ∧ v (f s a).2 ≤ m (f s a).1))
    {s : σ} (hs : I s) :
    m s ≤ m (mapAccum f s l).1 ∧
    (∀ b ∈ (mapAccum f s l).2, p b → m s ≤ u b ∧ v b ≤ m (mapAccum f s l).1) ∧
    (mapAccum f s l).2.Pairwise fun a b => p a → p b → v a ≤ u b := by
  induction l generalizing s with
  | nil => simp [mapAccum]
  | cons a l ih =>
    obtain ⟨hs',hstep,hmade⟩ := hf s a List.mem_cons_self hs
    obtain ⟨hle,hall,hpair⟩ := ih (fun s b hb => hf s b (List.mem_cons_of_mem _ hb)) hs'
    rw [map_accum_cons]
    refine ⟨hstep.trans hle,?_,List.pairwise_cons.2 ⟨?_,hpair⟩⟩
    · rw [List.forall_mem_cons]
      constructor
      · exact fun h => ⟨(hmade h).1,(hmade h).2.trans hle⟩
      · exact fun b hb h => ⟨hstep.trans (hall b hb h).1,(hall b hb h).2⟩
    · exact fun b hb ha h => (hmade ha).2.trans (hall b hb h).1

theorem map_accum_forall {f : σ → α → σ × β} {I : σ → Prop} {p : β → Prop}
    {l : List α} (hf : ∀ s, ∀ a ∈ l, I s → I (f s a).1 ∧ p (f s a).2) {s : σ} (hs : I s) :
    ∀ b ∈ (mapAccum f s l).2, p b := by
  induction l generalizing s with
  | nil => simp [mapAccum]
  | cons a l ih =>
    rw [map_accum_cons, List.forall_mem_cons]
    have hstep := hf s a List.mem_cons_self hs
    exact ⟨hstep.2,ih (fun s b hb => hf s b (List.mem_cons_of_mem _ hb)) hstep.1⟩

/-- Elements that the steps leave alone stay where they are among the rest. -/
theorem map_accum_kept {f : σ → α → σ × α} {p : α → Prop} (hf : ∀ s a, p (f s a).2 → (f s a).2 = a)
    (s : σ) (l : List α) :
    (∀ b ∈ (mapAccum f s l).2, p b → b ∈ l) ∧
    ∀ r : α → α → Prop, (l.Pairwise fun a b => p a → p b → r a b) →
      (mapAccum f s l).2.Pairwise fun a b => p a → p b → r a b := by
  induction l generalizing s with
  | nil => simp [mapAccum]
  | cons a l ih =>
    obtain ⟨hmem,hpair⟩ := ih (f s a).1
    rw [map_accum_cons]
    constructor
    · rw [List.forall_mem_cons]
      constructor
      · intro h
        rw [hf s a h]
        exact List.mem_cons_self
      · exact fun b hb h => List.mem_cons_of_mem _ (hmem b hb h)
    · intro r hr
      rw [List.pairwise_cons] at hr ⊢
      refine ⟨?_,hpair r hr.2⟩
      intro b hb ha h
      have hself := hf s a ha
      rw [hself] at ha ⊢
      exact hr.1 b (hmem b hb h) ha h

end MapAccum

/-- A change at an element's place in a list without repeats is a change of
what is made of that element. -/
theorem map_modify_idxOf [BEq α] [LawfulBEq α] {l : List α} (hl : l.Nodup) {a : α} {f g : α → β}
    {u : β → β} (hne : ∀ b, b ≠ a → g b = f b) (ha : g a = u (f a)) :
    (l.map f).modify (l.idxOf a) u = l.map g := by
  induction l with
  | nil => simp
  | cons b l ih =>
    obtain ⟨hb,hl⟩ := List.nodup_cons.1 hl
    by_cases hab : b = a
    · subst hab
      have hrest : l.map f = l.map g := by
        apply List.map_congr_left
        intro c hc
        exact (hne c fun h => hb (h ▸ hc)).symm
      rw [List.idxOf_cons_self, List.map_cons, List.modify_zero_cons, List.map_cons, ha, hrest]
    · rw [List.idxOf_cons_ne _ hab, List.map_cons, List.modify_succ_cons, List.map_cons, ih hl,
        hne b hab]

/-- What changes made one after another at places of a list leave at one of
them. -/
theorem foldl_modify {ι : Type} (l : List ι) (place : ι → ℕ) (change : ι → α → α) (init : List α)
    (k : ℕ) : (l.foldl (fun acc i => acc.modify (place i) (change i)) init)[k]? =
      init[k]?.map fun a => l.foldl (fun a i => if place i = k then change i a else a) a := by
  induction l generalizing init with
  | nil => simp
  | cons i l ih =>
    rw [List.foldl_cons, ih, List.getElem?_modify]
    cases init[k]? with
    | none => rfl
    | some a =>
      by_cases h : place i = k <;> simp [h]

theorem foldl_change_none {ι : Type} {l : List ι} {place : ι → ℕ} (change : ι → α → α) {k : ℕ}
    (h : ∀ i ∈ l, place i ≠ k) (a : α) :
    l.foldl (fun a i => if place i = k then change i a else a) a = a := by
  induction l with
  | nil => rfl
  | cons i l ih =>
    rw [List.foldl_cons, if_neg (h i List.mem_cons_self),
      ih fun j hj => h j (List.mem_cons_of_mem _ hj)]

/-- Changes at one place that all make the same of what is there. -/
theorem foldl_change_some {ι : Type} {l : List ι} {place : ι → ℕ} {change : ι → α → α} {k : ℕ}
    {u : α → α} (hu : ∀ a, u (u a) = u a) (hc : ∀ i ∈ l, place i = k → change i = u)
    (hk : ∃ i ∈ l, place i = k) (a : α) :
    l.foldl (fun a i => if place i = k then change i a else a) a = u a := by
  have hrest : ∀ l' : List ι, (∀ i ∈ l', place i = k → change i = u) → ∀ a,
      l'.foldl (fun a i => if place i = k then change i a else a) (u a) = u a := by
    intro l'
    induction l' with
    | nil => exact fun _ _ => rfl
    | cons i l' ih =>
      intro hc a
      rw [List.foldl_cons]
      by_cases h : place i = k
      · rw [if_pos h, hc i List.mem_cons_self h, hu]
        exact ih (fun j hj => hc j (List.mem_cons_of_mem _ hj)) a
      · rw [if_neg h]
        exact ih (fun j hj => hc j (List.mem_cons_of_mem _ hj)) a
  induction l with
  | nil => simp at hk
  | cons i l ih =>
    rw [List.foldl_cons]
    by_cases h : place i = k
    · rw [if_pos h, hc i List.mem_cons_self h]
      exact hrest l (fun j hj => hc j (List.mem_cons_of_mem _ hj)) a
    · rw [if_neg h]
      refine ih (fun j hj => hc j (List.mem_cons_of_mem _ hj)) ?_
      obtain ⟨j,hj,hjk⟩ := hk
      rcases List.mem_cons.1 hj with rfl | hj
      · exact absurd hjk h
      · exact ⟨j,hj,hjk⟩

/-- One change at a place. -/
theorem foldl_change_once {ι : Type} {l : List ι} (hl : l.Nodup) {place : ι → ℕ}
    (change : ι → α → α) {i : ι} (hi : i ∈ l) (hinj : ∀ j ∈ l, place j = place i → j = i) (a : α) :
    l.foldl (fun a j => if place j = place i then change j a else a) a = change i a := by
  induction l generalizing a with
  | nil => cases hi
  | cons j l ih =>
    obtain ⟨hj,hl⟩ := List.nodup_cons.1 hl
    rw [List.foldl_cons]
    rcases List.mem_cons.1 hi with rfl | hi
    · rw [if_pos rfl]
      apply foldl_change_none
      intro k hk he
      exact hj (hinj k (List.mem_cons_of_mem _ hk) he ▸ hk)
    · have hne : place j ≠ place i := fun he => hj (hinj j List.mem_cons_self he ▸ hi)
      rw [if_neg hne]
      exact ih hl hi (fun k hk => hinj k (List.mem_cons_of_mem _ hk)) a

theorem filter_key {κ : Type} [BEq κ] [LawfulBEq κ] {l : List (κ × α)}
    (hl : (l.map Prod.fst).Nodup) {k : κ} {a : α} (h : (k,a) ∈ l) :
    (l.filter fun e => e.1 == k) = [(k,a)] := by
  induction l with
  | nil => cases h
  | cons e l ih =>
    rw [List.map_cons, List.nodup_cons] at hl
    rcases List.mem_cons.1 h with rfl | h
    · rw [List.filter_cons, if_pos (beq_self_eq_true k), List.filter_eq_nil_iff.2]
      intro e he hek
      exact hl.1 (List.mem_map.2 ⟨e,he,eq_of_beq hek⟩)
    · rw [List.filter_cons, if_neg, ih hl.2 h]
      intro hek
      exact hl.1 (List.mem_map.2 ⟨(k,a),h,(eq_of_beq hek).symm⟩)

/-- Where an element goes once only those of a kind stay. -/
theorem filter_countP {l : List α} {p : α → Bool} {i : ℕ} {a : α} (ha : l[i]? = some a)
    (hp : p a = true) : (l.filter p)[(l.take i).countP p]? = some a := by
  obtain ⟨hi,rfl⟩ := List.getElem?_eq_some_iff.1 ha
  have hsplit : l.filter p = (l.take i).filter p ++ l[i] :: (l.drop (i+1)).filter p := by
    conv_lhs => rw [← List.take_append_drop i l, List.drop_eq_getElem_cons hi]
    rw [List.filter_append, List.filter_cons_of_pos hp]
  rw [hsplit, List.countP_eq_length_filter, List.getElem?_append_right le_rfl, Nat.sub_self]
  rfl

/-- A list cut into pieces of a size is the list again. -/
theorem flatMap_pieces (l : List α) {n : ℕ} (hn : 0 < n) :
    (List.range ((l.length+n-1)/n)).flatMap (fun b => (l.drop (b*n)).take n) = l := by
  have htake : ∀ m, (List.range m).flatMap (fun b => (l.drop (b*n)).take n) = l.take (m*n) := by
    intro m
    induction m with
    | zero => simp
    | succ m ih =>
      rw [List.range_succ, List.flatMap_append, ih, List.flatMap_singleton, Nat.succ_mul,
        List.take_add]
  rw [htake, List.take_of_length_le]
  have h := Nat.div_add_mod (l.length+n-1) n
  have hlt := Nat.mod_lt (l.length+n-1) hn
  rw [Nat.mul_comm] at h
  omega

theorem le_foldl_max {l : List ℕ} {a : ℕ} (m : ℕ) (h : a ≤ m ∨ a ∈ l) : a ≤ l.foldl max m := by
  induction l generalizing m with
  | nil =>
    rcases h with h | h
    · exact h
    · cases h
  | cons b l ih =>
    apply ih
    rcases h with h | h
    · exact Or.inl (h.trans (le_max_left m b))
    · rcases List.mem_cons.1 h with rfl | h
      · exact Or.inl (le_max_right m a)
      · exact Or.inr h

theorem take_takeWhile (p : α → Bool) (l : List α) :
    l.take (l.takeWhile p).length = l.takeWhile p :=
  (List.prefix_iff_eq_take.1 (List.takeWhile_prefix p)).symm

theorem takeWhile_congr {p q : α → Bool} {l : List α} (h : ∀ a ∈ l, p a = q a) :
    l.takeWhile p = l.takeWhile q := by
  induction l with
  | nil => rfl
  | cons a l ih =>
    rw [List.takeWhile_cons, List.takeWhile_cons, h a (by simp), ih fun b hb => h b (by simp [hb])]

/-- A run, and the run after it by a weaker predicate. -/
theorem takeWhile_split {p q : α → Bool} (hpq : ∀ a, p a → q a) (l : List α) :
    l.takeWhile p ++ (l.dropWhile p).takeWhile q = l.takeWhile q := by
  induction l with
  | nil => rfl
  | cons a l ih =>
    by_cases h : p a
    · simp [h, hpq a h, ih]
    · simp [h]

theorem dropWhile_dropWhile {p q : α → Bool} (hpq : ∀ a, p a → q a) (l : List α) :
    (l.dropWhile p).dropWhile q = l.dropWhile q := by
  induction l with
  | nil => rfl
  | cons a l ih =>
    by_cases h : p a
    · simp [h, hpq a h, ih]
    · simp [h]

end MoldMacho.Lists
