import Mathlib.Data.List.Basic
import Mathlib.Data.Set.Finite.Basic
import Mathlib.Data.Set.Finite.Lattice
import Mathlib.Logic.Relation
import Mathlib.Order.WellFounded

/-!
# A walk with a stack and no visited set

Items are popped, expanded into outputs and further items, and these are
pushed. The walk ends exactly when what it can reach is expanded without
failure and has no cycle.
-/

set_option autoImplicit false

namespace MoldMacho.Walk

variable {ι ο ν : Type}

/-! The walk. -/

/-- The walk from a stack with its top first. The result is `none` when the
fuel runs out and `some none` when an item fails to expand. -/
def walk (expand : ι → Option (List ο × List ι)) : ℕ → List ι → List ο → Option (Option (List ο))
  | 0, _, _ => none
  | _+1, [], outs => some (some outs)
  | fuel+1, item::stack, outs =>
    match expand item with
    | none => some none
    | some (new,kids) => walk expand fuel (kids.reverse ++ stack) (outs ++ new)

def Ends (expand : ι → Option (List ο × List ι)) (stack : List ι) : Prop :=
  ∃ fuel outs, walk expand fuel stack [] = some (some outs)

/-- What is explored from an item is expanded, all the way down. -/
inductive Explored (next : ι → Option (List ι)) : ι → Prop
  | node {item : ι} {kids : List ι} : next item = some kids →
      (∀ kid ∈ kids, Explored next kid) → Explored next item

/-- Walking an item adds outputs that are those listed in some order, and
goes on with the stack below. -/
def Yields (expand : ι → Option (List ο × List ι)) (item : ι) (outs : List ο) : Prop :=
  ∃ steps new, new.Perm outs ∧ ∀ fuel stack old,
    walk expand (steps+fuel) (item::stack) old = walk expand fuel stack (old ++ new)

section Run
variable {expand : ι → Option (List ο × List ι)}

theorem walk_stack {items : List ι} {outs : List (List ο)}
    (h : List.Forall₂ (Yields expand) items outs) :
    ∃ steps new, new.Perm outs.flatten ∧ ∀ fuel stack old,
      walk expand (steps+fuel) (items ++ stack) old = walk expand fuel stack (old ++ new) := by
  induction h with
  | nil => exact ⟨0,[],List.Perm.refl _,fun fuel stack old => by simp⟩
  | @cons item out items outs hitem _ ih =>
    obtain ⟨k,new,hp,hk⟩ := hitem
    obtain ⟨m,rest,hq,hm⟩ := ih
    refine ⟨k+m,new ++ rest,?_,?_⟩
    · rw [List.flatten_cons]
      exact hp.append hq
    · intro fuel stack old
      rw [List.cons_append, Nat.add_assoc, hk, hm, List.append_assoc]

theorem yields_node {item : ι} {new : List ο} {kids : List ι} {outs : List (List ο)}
    (h : expand item = some (new,kids)) (hk : List.Forall₂ (Yields expand) kids outs) :
    Yields expand item (new ++ outs.flatten) := by
  obtain ⟨m,rest,hp,hm⟩ := walk_stack (List.rel_reverse hk)
  refine ⟨m+1,new ++ rest,?_,?_⟩
  · apply List.Perm.append_left
    exact hp.trans (List.reverse_perm outs).flatten
  · intro fuel stack old
    rw [Nat.add_right_comm, walk, h]
    simp only
    rw [hm, List.append_assoc]

theorem yields_ends {item : ι} {outs : List ο} (h : Yields expand item outs) :
    ∃ fuel result, walk expand fuel [item] [] = some (some result) ∧ result.Perm outs := by
  obtain ⟨k,new,hp,hk⟩ := h
  refine ⟨k+1,new,?_,hp⟩
  rw [hk, walk]
  rfl

theorem yields_all {items : List ι} (h : ∀ item ∈ items, ∃ outs, Yields expand item outs) :
    ∃ outs, List.Forall₂ (Yields expand) items outs := by
  induction items with
  | nil => exact ⟨[],List.Forall₂.nil⟩
  | cons item items ih =>
    obtain ⟨out,ho⟩ := h item (by simp)
    obtain ⟨outs,hos⟩ := ih fun i hi => h i (by simp [hi])
    exact ⟨out::outs,List.Forall₂.cons ho hos⟩

theorem explored_yields {item : ι} (h : Explored (fun i => (expand i).map Prod.snd) item) :
    ∃ outs, Yields expand item outs := by
  induction h with
  | @node item kids hk _ ih =>
    obtain ⟨⟨new,kids'⟩,he,rfl⟩ := Option.map_eq_some_iff.1 hk
    obtain ⟨outs,ho⟩ := yields_all ih
    exact ⟨_,yields_node he ho⟩

theorem walk_explored {fuel : ℕ} {stack : List ι} {old result : List ο}
    (h : walk expand fuel stack old = some (some result)) :
    ∀ item ∈ stack, Explored (fun i => (expand i).map Prod.snd) item := by
  induction fuel generalizing stack old with
  | zero => simp [walk] at h
  | succ fuel ih =>
    cases stack with
    | nil => simp
    | cons item stack =>
      rw [walk] at h
      cases he : expand item with
      | none => simp [he] at h
      | some out =>
        rw [he] at h
        have hall := ih h
        intro i hi
        rcases List.mem_cons.1 hi with rfl | hi
        · have hnext : (expand i).map Prod.snd = some out.2 := by rw [he, Option.map_some]
          apply Explored.node hnext
          intro kid hkid
          exact hall kid (by simp [hkid])
        · exact hall i (by simp [hi])

/-- A walk of one item ends exactly when the item is explored. -/
theorem ends_explored (item : ι) :
    Ends expand [item] ↔ Explored (fun i => (expand i).map Prod.snd) item := by
  constructor
  · intro h
    obtain ⟨fuel,outs,hw⟩ := h
    exact walk_explored hw item (by simp)
  · intro h
    obtain ⟨outs,ho⟩ := explored_yields h
    obtain ⟨fuel,result,hw,_⟩ := yields_ends ho
    exact ⟨fuel,result,hw⟩

end Run

/-! Exploring depends on an item's node alone. -/

theorem explored_map {next : ι → Option (List ι)} {next' : ν → Option (List ν)} {node : ι → ν}
    (h : ∀ i, (next i).map (List.map node) = next' (node i)) (item : ι) :
    Explored next item ↔ Explored next' (node item) := by
  constructor
  · intro he
    induction he with
    | @node item kids hk _ ih =>
      have hn : next' (node item) = some (kids.map node) := by rw [← h, hk, Option.map_some]
      apply Explored.node hn
      intro kid hkid
      obtain ⟨k,hk,rfl⟩ := List.mem_map.1 hkid
      exact ih k hk
  · intro he
    generalize hn : node item = n at he
    induction he generalizing item with
    | @node n kids hk _ ih =>
      rw [← hn, ← h, Option.map_eq_some_iff] at hk
      obtain ⟨kids',hk',rfl⟩ := hk
      apply Explored.node hk'
      intro kid hkid
      exact ih (node kid) (List.mem_map_of_mem hkid) kid rfl

/-! Cycles. -/

section Graph
variable (next : ν → Option (List ν))

def Edge (a b : ν) : Prop := ∃ kids, next a = some kids ∧ b ∈ kids

def Reach : ν → ν → Prop := Relation.ReflTransGen (Edge next)

variable {next}

theorem explored_reach {a b : ν} (h : Explored next a) (hr : Reach next a b) :
    Explored next b := by
  induction hr with
  | refl => exact h
  | tail _ he ih =>
    obtain ⟨kids,hk,hm⟩ := he
    cases ih with
    | node hk' hall =>
      rw [hk', Option.some.injEq] at hk
      exact hall _ (hk ▸ hm)

theorem explored_acc {a : ν} (h : Explored next a) : Acc (fun x y => Edge next y x) a := by
  induction h with
  | node hk _ ih =>
    constructor
    intro b hb
    obtain ⟨kids,hk',hm⟩ := hb
    rw [hk, Option.some.injEq] at hk'
    exact ih b (hk' ▸ hm)

theorem acc_irrefl {r : ν → ν → Prop} {a : ν} (h : Acc r a) : ¬ r a a := by
  induction h with
  | intro a _ ih =>
    intro hr
    exact ih a hr hr

/-- Where only finitely many nodes are reached, a node is explored exactly
when none of them fails and none is on a cycle. -/
theorem explored_iff (a : ν) (hfin : {b | Reach next a b}.Finite) :
    Explored next a ↔
      (∀ b, Reach next a b → next b ≠ none) ∧
      ∀ b, Reach next a b → ¬ Relation.TransGen (Edge next) b b := by
  constructor
  · intro h
    constructor
    · intro b hr
      cases explored_reach h hr with
      | node hk _ => simp [hk]
    · intro b hr hcycle
      have hacc := (explored_acc (explored_reach h hr)).transGen
      apply acc_irrefl hacc
      rw [← Relation.transGen_swap] at hcycle
      exact hcycle
  · intro h
    obtain ⟨hnext,hcycle⟩ := h
    have : Finite {b // Reach next a b} := hfin.to_subtype
    let below : {b // Reach next a b} → {b // Reach next a b} → Prop :=
      fun x y => Relation.TransGen (Edge next) y.1 x.1
    have : IsTrans _ below := ⟨fun x y z hxy hyz => hyz.trans hxy⟩
    have : Std.Irrefl below := ⟨fun x => hcycle x.1 x.2⟩
    have hwf : WellFounded below := Finite.wellFounded_of_trans_of_irrefl below
    have hall : ∀ x : {b // Reach next a b}, Explored next x.1 := by
      intro x
      induction x using hwf.induction with
      | _ x ih =>
        obtain ⟨kids,hk⟩ := Option.ne_none_iff_exists'.1 (hnext x.1 x.2)
        apply Explored.node hk
        intro kid hkid
        have he : Edge next x.1 kid := ⟨kids,hk,hkid⟩
        exact ih ⟨kid,x.2.tail he⟩ (Relation.TransGen.single he)
    exact hall ⟨a,Relation.ReflTransGen.refl⟩

/-- Only finitely many nodes with an edge leave finitely many to reach. -/
theorem reach_finite (a : ν) {s : Set ν} (hs : s.Finite) (h : ∀ b c, Edge next b c → b ∈ s) :
    {b | Reach next a b}.Finite := by
  have htargets : (⋃ b ∈ s, {c | Edge next b c}).Finite := by
    apply hs.biUnion
    intro b _
    apply Set.Finite.subset (List.finite_toSet ((next b).getD []))
    intro c hc
    obtain ⟨kids,hk,hm⟩ := hc
    simpa [hk] using hm
  apply Set.Finite.subset ((Set.finite_singleton a).union htargets)
  intro b hb
  cases Relation.ReflTransGen.cases_tail hb with
  | inl he => exact .inl he
  | inr ht =>
    obtain ⟨c,_,he⟩ := ht
    right
    rw [Set.mem_iUnion₂]
    exact ⟨c,h c b he,he⟩

end Graph

end MoldMacho.Walk
