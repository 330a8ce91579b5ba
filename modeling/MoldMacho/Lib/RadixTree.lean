import Mathlib.Data.List.Lookmap

/-!
# Radix trees

A node's edges carry labels that share no first letter. A search strips
the one label the key starts with and goes on below it. The tree stands
for the list of its entries, and searching the tree is searching the list.
-/

set_option autoImplicit false

namespace MoldMacho.RadixTree

variable {α β : Type*}

/-- The edges of a node in order: the first one's label, the value at its
child, the edges below the child, and the other edges. -/
inductive Forest (α β : Type*) where
  | nil
  | edge (label : List α) (value : Option β) (below rest : Forest α β)

/-- What follows `label` in the key. -/
def strip [DecidableEq α] : List α → List α → Option (List α)
  | [], key => some key
  | _::_, [] => none
  | a::label, b::key => if a = b then strip label key else none

/-- Searching the edges of a node for a key. -/
def Forest.scan [DecidableEq α] : Forest α β → List α → Option β
  | .nil, _ => none
  | .edge label value below rest, key =>
    match strip label key with
    | some [] => value
    | some key => below.scan key
    | none => rest.scan key

def Forest.entries : Forest α β → List (List α × β)
  | .nil => []
  | .edge label value below rest =>
    value.toList.map (fun v => (label, v)) ++
      below.entries.map (fun e => (label ++ e.1, e.2)) ++ rest.entries

/-- The first letters of the labels. -/
def Forest.heads : Forest α β → List α
  | .nil => []
  | .edge label _ _ rest => label.head?.toList ++ rest.heads

/-- Labels are not empty, and no two of a node start alike. -/
def Forest.Radix : Forest α β → Prop
  | .nil => True
  | .edge label _ below rest =>
    (∃ a, label.head? = some a ∧ a ∉ rest.heads) ∧ below.Radix ∧ rest.Radix

theorem strip_some_iff [DecidableEq α] (label key suffix : List α) :
    strip label key = some suffix ↔ key = label ++ suffix := by
  induction label generalizing key with
  | nil => simp [strip]
  | cons a label ih =>
    cases key with
    | nil => simp [strip]
    | cons b key =>
      by_cases h : a = b
      · subst h
        simp [strip, ih]
      · simp [strip, h, Ne.symm h]

theorem entries_heads {f : Forest α β} (hf : f.Radix) {key : List α} {v : β}
    (h : (key, v) ∈ f.entries) : ∃ a ∈ f.heads, key.head? = some a := by
  induction f generalizing key v with
  | nil => simp [Forest.entries] at h
  | edge label value below rest _ ihr =>
    obtain ⟨a,ha,_⟩ := hf.1
    simp only [Forest.entries, List.mem_append, List.mem_map] at h
    rcases h with (h | h) | h
    · obtain ⟨_,_,he⟩ := h
      exact ⟨a,by simp [Forest.heads, ha],by simp_all⟩
    · obtain ⟨e,_,he⟩ := h
      have hk : key = label ++ e.1 := by simp_all
      exact ⟨a,by simp [Forest.heads, ha],by simp [hk, List.head?_append, ha]⟩
    · obtain ⟨b,hb,hk⟩ := ihr hf.2.2 h
      exact ⟨b,by simp [Forest.heads, hb],hk⟩

theorem entries_ne_nil {f : Forest α β} (hf : f.Radix) {key : List α} {v : β}
    (h : (key, v) ∈ f.entries) : key ≠ [] := by
  obtain ⟨a,_,ha⟩ := entries_heads hf h
  intro hk
  simp [hk] at ha

theorem lookup_none [DecidableEq α] {es : List (List α × β)} {key : List α}
    (h : ∀ v, (key, v) ∉ es) : es.lookup key = none := by
  rw [List.lookup_eq_none_iff]
  intro e he
  simp only [bne_iff_ne, ne_eq]
  intro hk
  exact h e.2 (by rw [hk]; exact he)

theorem lookup_map_append [DecidableEq α] (label key : List α) (es : List (List α × β)) :
    (es.map fun e => (label ++ e.1, e.2)).lookup (label ++ key) = es.lookup key := by
  induction es with
  | nil => rfl
  | cons e es ih =>
    cases e with
    | mk k v =>
      by_cases h : key = k
      · simp [h]
      · have hl : label ++ key ≠ label ++ k := by simpa using h
        simp [List.lookup_cons, beq_false_of_ne h, beq_false_of_ne hl, ih]

/-- Searching a radix tree is searching the list of its entries. -/
theorem scan_entries [DecidableEq α] {f : Forest α β} (hf : f.Radix) (key : List α) :
    f.scan key = f.entries.lookup key := by
  induction f generalizing key with
  | nil => rfl
  | edge label value below rest ihb ihr =>
    obtain ⟨a,ha,hrest⟩ := hf.1
    rw [Forest.scan, Forest.entries, List.lookup_append, List.lookup_append]
    cases hs : strip label key with
    | none =>
      -- the key does not start with the label, so nothing below has it
      have hkey : ∀ suffix, key ≠ label ++ suffix := by
        intro suffix hk
        rw [(strip_some_iff label key suffix).2 hk] at hs
        contradiction
      have hv : (value.toList.map fun v => (label, v)).lookup key = none := by
        apply lookup_none
        intro v hmem
        obtain ⟨_,_,he⟩ := List.mem_map.1 hmem
        exact hkey [] (by simp_all)
      have hb : (below.entries.map fun e => (label ++ e.1, e.2)).lookup key = none := by
        apply lookup_none
        intro v hmem
        obtain ⟨e,_,he⟩ := List.mem_map.1 hmem
        exact hkey e.1 (by simp_all)
      rw [hv, hb, ihr hf.2.2]
      rfl
    | some suffix =>
      have hkey := (strip_some_iff label key suffix).1 hs
      have hr : rest.entries.lookup key = none := by
        apply lookup_none
        intro v hmem
        obtain ⟨b,hb,hk⟩ := entries_heads hf.2.2 hmem
        rw [hkey, List.head?_append, ha] at hk
        simp only [Option.some_or, Option.some.injEq] at hk
        exact hrest (hk ▸ hb)
      rw [hr, hkey, lookup_map_append]
      cases suffix with
      | nil =>
        have hb : below.entries.lookup [] = none := by
          apply lookup_none
          intro v hmem
          exact entries_ne_nil hf.2.1 hmem rfl
        cases value with
        | none => simp [hb]
        | some v => simp
      | cons b suffix =>
        have hv : (value.toList.map fun v => (label, v)).lookup (label ++ b::suffix) = none := by
          apply lookup_none
          intro v hmem
          obtain ⟨_,_,he⟩ := List.mem_map.1 hmem
          have := congrArg (List.length ∘ Prod.fst) he
          simp at this
        rw [hv, ← ihb hf.2.1]
        simp

/-- Every label of the tree. -/
def Forest.Labels (p : List α → Prop) : Forest α β → Prop
  | .nil => True
  | .edge label _ below rest => p label ∧ below.Labels p ∧ rest.Labels p

/-! Sorted keys. -/

section Sorted
variable [LT α] [Std.Asymm fun a b : α => a < b]

omit [Std.Asymm fun a b : α => a < b] in
/-- A key between two that start with `label` starts with it. -/
theorem label_between [Std.Trichotomous fun a b : α => a < b] {label a x b : List α}
    (hax : ¬ x < label ++ a) (hxb : ¬ label ++ b < x) :
    ∃ y, x = label ++ y := by
  induction label generalizing x with
  | nil => exact ⟨x,rfl⟩
  | cons c label ih =>
    cases x with
    | nil => simp at hax
    | cons d x =>
      rw [List.cons_append, List.cons_lt_cons_iff] at hax hxb
      have hcd : c = d :=
        Std.Trichotomous.trichotomous (r := fun a b : α => a < b) c d
          (fun h => hxb (.inl h)) (fun h => hax (.inl h))
      subst hcd
      obtain ⟨y,hy⟩ := ih (fun h => hax (.inr ⟨rfl,h⟩)) (fun h => hxb (.inr ⟨rfl,h⟩))
      exact ⟨y,by rw [hy, List.cons_append]⟩

theorem append_lt_append (label : List α) {a b : List α} :
    label ++ a < label ++ b ↔ a < b := by
  induction label with
  | nil => rfl
  | cons c label ih => simp [ih]

/-- The edges of each node ascend in their first letters. -/
def Forest.Ordered : Forest α β → Prop
  | .nil => True
  | .edge label _ below rest =>
    (∃ a, label.head? = some a ∧ ∀ b ∈ rest.heads, a < b) ∧ below.Ordered ∧ rest.Ordered

theorem ordered_radix {f : Forest α β} (h : f.Ordered) : f.Radix := by
  induction f with
  | nil => trivial
  | edge label value below rest ihb ihr =>
    obtain ⟨a,ha,hlt⟩ := h.1
    exact ⟨⟨a,ha,fun hm => Std.Irrefl.irrefl (r := fun a b : α => a < b) a (hlt a hm)⟩,ihb h.2.1,ihr h.2.2⟩

theorem ordered_heads_nodup {f : Forest α β} (h : f.Ordered) : f.heads.Nodup := by
  induction f with
  | nil => exact .nil
  | edge label value below rest _ ihr =>
    obtain ⟨a,ha,hlt⟩ := h.1
    simp only [Forest.heads, ha, Option.toList_some, List.singleton_append, List.nodup_cons]
    exact ⟨fun hm => Std.Irrefl.irrefl (r := fun a b : α => a < b) a (hlt a hm),ihr h.2.2⟩

end Sorted

end MoldMacho.RadixTree
