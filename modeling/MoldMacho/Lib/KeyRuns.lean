import MoldMacho.Lib.Counted
import MoldMacho.Lib.StableSort

/-!
# Items of one key that stand together

Lists in which the items of a key form one run, and the place of each run.
Sorting by a rank of the keys makes such a list and keeps every key's items in
their order.
-/

set_option autoImplicit false

namespace MoldMacho.KeyRuns

open Counted StableSort

variable {α β κ ι : Type} {key : α → κ}

/-- No item of another key stands between two of one key. -/
def Together (key : α → κ) (l : List α) : Prop :=
  ∀ a b c, [a,b,c].Sublist l → key a = key c → key b = key a

theorem Together.sublist {l l' : List α} (h : Together key l) (hs : l'.Sublist l) :
    Together key l' :=
  fun a b c hsub => h a b c (hsub.trans hs)

theorem Together.append {l l' : List α} (h : Together key l) (h' : Together key l')
    (hne : ∀ a ∈ l, ∀ b ∈ l', key a ≠ key b) : Together key (l ++ l') := by
  intro a b c hsub hac
  obtain ⟨s,s',hs,hsl,hsl'⟩ := List.sublist_append_iff.1 hsub
  match s with
  | [] =>
    rw [List.nil_append] at hs
    rw [← hs] at hsl'
    exact h' a b c hsl' hac
  | [_] =>
    obtain ⟨rfl,rfl⟩ : a = _ ∧ [b,c] = s' := by simpa using hs
    exact absurd hac (hne a (hsl.subset (by simp)) c (hsl'.subset (by simp)))
  | [_,_] =>
    obtain ⟨rfl,rfl,rfl⟩ : a = _ ∧ b = _ ∧ [c] = s' := by simpa using hs
    exact absurd hac (hne a (hsl.subset (by simp)) c (hsl'.subset (by simp)))
  | _::_::_::s =>
    obtain ⟨rfl,rfl,rfl,rfl,-⟩ : a = _ ∧ b = _ ∧ c = _ ∧ s = [] ∧ s' = [] := by
      simpa using hs
    exact h a b c hsl hac

theorem Together.map {l : List α} (h : Together key l) {f : α → β} {key' : β → ι}
    (hkey : ∀ a ∈ l, ∀ b ∈ l, key' (f a) = key' (f b) ↔ key a = key b) :
    Together key' (l.map f) := by
  intro a b c hsub hac
  obtain ⟨s,hsl,hs⟩ := List.sublist_map_iff.1 hsub
  match s with
  | [x,y,z] =>
    obtain ⟨rfl,rfl,rfl⟩ : a = f x ∧ b = f y ∧ c = f z := by simpa using hs
    have hx := hsl.subset (show x ∈ [x,y,z] by simp)
    have hy := hsl.subset (show y ∈ [x,y,z] by simp)
    have hz := hsl.subset (show z ∈ [x,y,z] by simp)
    exact (hkey y hy x hx).2 (h x y z hsl ((hkey x hx z hz).1 hac))
  | [] | [_] | [_,_] | _::_::_::_::_ => simp at hs

/-! ## Sorting -/

section Sorted
variable [LinearOrder κ]

/-- Sorting keeps items of one key in their order. -/
theorem sort_filter (l : List α) {p : α → Bool}
    (hp : ∀ a ∈ l, ∀ b ∈ l, p a = true → p b = true → key a = key b) :
    (sortBy key l).filter p = l.filter p := by
  obtain ⟨htrans,htotal⟩ := le_trans_total key
  have hpair : (l.filter p).Pairwise fun a b => decide (key a ≤ key b) = true := by
    rw [List.pairwise_iff_forall_sublist]
    intro a b hsub
    have ha := List.mem_filter.1 (hsub.subset (show a ∈ [a,b] by simp))
    have hb := List.mem_filter.1 (hsub.subset (show b ∈ [a,b] by simp))
    exact decide_eq_true (hp a ha.1 b hb.1 ha.2 hb.2).le
  have hsub : (l.filter p).Sublist (sortBy key l) :=
    List.sublist_mergeSort htrans htotal hpair List.filter_sublist
  have hfilter := hsub.filter p
  simp only [List.filter_filter, Bool.and_self] at hfilter
  exact (hfilter.eq_of_length ((sort_perm key l).filter p).length_eq.symm).symm

theorem sort_together (l : List α) : Together key (sortBy key l) := by
  intro a b c hsub hac
  have hpair := (sort_sorted key l).sublist hsub
  simp only [List.pairwise_cons, List.mem_cons, List.not_mem_nil, or_false] at hpair
  have hab : key a ≤ key b := hpair.1 b (Or.inl rfl)
  have hbc : key b ≤ key c := hpair.2.1 c rfl
  exact le_antisymm (hac ▸ hbc) hab

end Sorted

/-! ## The place of each run -/

section Ranges

/-- The key, the start and the length of each run. -/
def runRanges (key : α → κ) : ℕ → List (List α) → List (κ × ℕ × ℕ)
  | _, [] => []
  | start, []::runs => runRanges key start runs
  | start, (a::run)::runs =>
    (key a,start,run.length+1) :: runRanges key (start+(run.length+1)) runs

/-- Runs of one key each, and no key twice. -/
structure Apart (key : α → κ) (runs : List (List α)) : Prop where
  ne_nil : ∀ run ∈ runs, run ≠ []
  same : ∀ run ∈ runs, ∀ a ∈ run, ∀ b ∈ run, key a = key b
  distinct : runs.Pairwise fun g h => ∀ a ∈ g, ∀ b ∈ h, key a ≠ key b

theorem Apart.tail {run : List α} {runs : List (List α)} (h : Apart key (run::runs)) :
    Apart key runs where
  ne_nil g hg := h.ne_nil g (List.mem_cons_of_mem _ hg)
  same g hg := h.same g (List.mem_cons_of_mem _ hg)
  distinct := (List.pairwise_cons.1 h.distinct).2

theorem range_key {start : ℕ} {runs : List (List α)} {e : κ × ℕ × ℕ}
    (he : e ∈ runRanges key start runs) : ∃ a ∈ runs.flatten, key a = e.1 := by
  fun_induction runRanges key start runs with
  | case1 => cases he
  | case2 start runs ih => exact ih he
  | case3 start a run runs ih =>
    rcases List.mem_cons.1 he with rfl | he
    · exact ⟨a,by simp,rfl⟩
    · obtain ⟨b,hb,hkey⟩ := ih he
      exact ⟨b,by simp [hb],hkey⟩

theorem ranges_nodup {runs : List (List α)} (h : Apart key runs) (start : ℕ) :
    ((runRanges key start runs).map Prod.fst).Nodup := by
  fun_induction runRanges key start runs with
  | case1 => exact List.nodup_nil
  | case2 start runs ih => exact ih h.tail
  | case3 start a run runs ih =>
    rw [List.map_cons, List.nodup_cons]
    refine ⟨?_,ih h.tail⟩
    intro hmem
    obtain ⟨e,he,hkey⟩ := List.mem_map.1 hmem
    obtain ⟨b,hb,hbkey⟩ := range_key he
    obtain ⟨g,hg,hbg⟩ := List.mem_flatten.1 hb
    have hne := (List.pairwise_cons.1 h.distinct).1 g hg a List.mem_cons_self b hbg
    exact hne (hkey.symm.trans hbkey.symm)

theorem range_exists {runs : List (List α)} (h : Apart key runs) (start : ℕ) {a : α}
    (ha : a ∈ runs.flatten) : ∃ e ∈ runRanges key start runs, e.1 = key a := by
  fun_induction runRanges key start runs with
  | case1 => cases ha
  | case2 start runs ih => exact ih h.tail ha
  | case3 start b run runs ih =>
    rw [List.flatten_cons] at ha
    rcases List.mem_append.1 ha with ha | ha
    · exact ⟨_,List.mem_cons_self,h.same (b::run) List.mem_cons_self b List.mem_cons_self a ha⟩
    · obtain ⟨e,he,hkey⟩ := ih h.tail ha
      exact ⟨e,List.mem_cons_of_mem _ he,hkey⟩

variable [DecidableEq κ]

/-- The range of a key holds exactly its items. -/
theorem range_items {runs : List (List α)} (h : Apart key runs) {start : ℕ} {e : κ × ℕ × ℕ}
    (he : e ∈ runRanges key start runs) :
    start ≤ e.2.1 ∧ e.2.2 = (runs.flatten.filter fun a => key a = e.1).length ∧
    (runs.flatten.drop (e.2.1-start)).take e.2.2 = runs.flatten.filter fun a => key a = e.1 := by
  fun_induction runRanges key start runs with
  | case1 => cases he
  | case2 start runs ih => exact ih h.tail he
  | case3 start a run runs ih =>
    rw [List.flatten_cons, List.filter_append]
    rcases List.mem_cons.1 he with rfl | he
    · have hrun : ((a::run).filter fun b => key b = key a) = a::run := by
        rw [List.filter_eq_self]
        exact fun b hb => decide_eq_true
          (h.same (a::run) List.mem_cons_self b hb a List.mem_cons_self)
      have hrest : (runs.flatten.filter fun b => key b = key a) = [] := by
        rw [List.filter_eq_nil_iff]
        intro b hb
        obtain ⟨g,hg,hbg⟩ := List.mem_flatten.1 hb
        have hne := (List.pairwise_cons.1 h.distinct).1 g hg a List.mem_cons_self b hbg
        simpa using Ne.symm hne
      dsimp only
      rw [hrun, hrest, List.append_nil]
      refine ⟨le_rfl,rfl,?_⟩
      rw [Nat.sub_self, List.drop_zero, List.take_left' List.length_cons]
    · obtain ⟨hle,hlen,hrange⟩ := ih h.tail he
      have hrun : ((a::run).filter fun b => key b = e.1) = [] := by
        rw [List.filter_eq_nil_iff]
        intro b hb
        obtain ⟨c,hc,hkey⟩ := range_key he
        obtain ⟨g,hg,hcg⟩ := List.mem_flatten.1 hc
        have hne := (List.pairwise_cons.1 h.distinct).1 g hg b hb c hcg
        rw [hkey] at hne
        simpa using hne
      rw [hrun, List.nil_append]
      refine ⟨(Nat.le_add_right _ _).trans hle,hlen,?_⟩
      have hsplit : e.2.1 - start = (a::run).length + (e.2.1 - (start+(run.length+1))) := by
        rw [List.length_cons]
        omega
      rw [hsplit, ← List.drop_drop, List.drop_left' rfl]
      exact hrange

/-- The runs of a list whose items of one key stand together. -/
theorem groups_apart {l : List α} (h : Together key l) : Apart key (groups key l) := by
  have hadjacent : (groups key l).IsChain fun g h => ∀ a ∈ g, ∀ b ∈ h, key a ≠ key b := by
    have hchain := List.isChain_getLast_head_splitBy (fun a b => key a == key b) l
    rw [List.isChain_iff_getElem] at hchain ⊢
    intro i hi a ha b hb
    obtain ⟨hl,hh,hne⟩ := hchain i hi
    have hg := groups_same (List.getElem_mem (Nat.lt_of_succ_lt hi)) a ha _ (List.getLast_mem hl)
    have hh := groups_same (List.getElem_mem hi) b hb _ (List.head_mem hh)
    intro hab
    rw [hg, hh] at hab
    simp [hab] at hne
  have hnil : ∀ run ∈ groups key l, run ≠ [] := fun run hrun => group_ne_nil hrun
  refine ⟨hnil,fun run hrun => groups_same hrun,?_⟩
  rw [← groups_flatten key l] at h
  generalize groups key l = runs at h hadjacent hnil
  induction runs with
  | nil => exact List.Pairwise.nil
  | cons g runs ih =>
    have hrest := ih (h.sublist (List.sublist_append_right _ _)) hadjacent.tail
      fun run hrun => hnil run (List.mem_cons_of_mem _ hrun)
    refine List.pairwise_cons.2 ⟨?_,hrest⟩
    intro r hr a ha b hb hab
    cases runs with
    | nil => cases hr
    | cons g' runs =>
      have hne := (List.isChain_cons_cons.1 hadjacent).1
      rcases List.mem_cons.1 hr with rfl | hr
      · exact hne a ha b hb hab
      · obtain ⟨c,hc⟩ := List.exists_mem_of_ne_nil g' (hnil g' (by simp))
        apply hne a ha c hc
        have hsub : [a,c,b].Sublist (g ++ (g' ++ runs.flatten)) := by
          refine (List.singleton_sublist.2 ha).append ((List.singleton_sublist.2 hc).append ?_)
          exact List.singleton_sublist.2 (List.mem_flatten.2 ⟨r,hr,hb⟩)
        exact (h a c b (by simpa using hsub) hab).symm

end Ranges

end MoldMacho.KeyRuns
