import Mathlib.Data.List.Basic
import Mathlib.Order.Lattice

/-!
# Runs of equal names

The names of a list of items, with runs of one name taken together. In a
list sorted by a key that tells names apart every name has one run.
-/

set_option autoImplicit false

namespace MoldMacho.Runs

variable {κ σ : Type} [DecidableEq κ]

/-- One more item: a new run, unless its name is that of the last one. -/
def pushRun : List κ → κ → List κ
  | [], name => [name]
  | [last], name => if last = name then [last] else [last,name]
  | first::next::runs, name => first::pushRun (next::runs) name

def runs (names : List κ) (start : List κ) : List κ := names.foldl pushRun start

theorem push_run_ne_nil (start : List κ) (name : κ) : pushRun start name ≠ [] := by
  fun_cases pushRun start name <;> simp

theorem push_run_cons (first : κ) {start : List κ} (hs : start ≠ []) (name : κ) :
    pushRun (first::start) name = first::pushRun start name := by
  cases start with
  | nil => exact absurd rfl hs
  | cons next rest => rfl

theorem mem_push_run {start : List κ} {name x : κ} :
    x ∈ pushRun start name ↔ x ∈ start ∨ x = name := by
  fun_induction pushRun start name with
  | case1 => simp
  | case2 last => simp
  | case3 last name h => simp
  | case4 first next runs name ih => simp [ih, or_assoc]

/-- What comes before the last run stays. -/
theorem runs_cons (first : κ) {start : List κ} (hs : start ≠ []) (names : List κ) :
    runs names (first::start) = first::runs names start := by
  induction names generalizing start with
  | nil => rfl
  | cons name names ih =>
    rw [runs, List.foldl_cons, push_run_cons first hs]
    exact ih (push_run_ne_nil start name)

theorem mem_runs {names start : List κ} {x : κ} : x ∈ runs names start ↔ x ∈ start ∨ x ∈ names := by
  induction names generalizing start with
  | nil => simp [runs]
  | cons name names ih =>
    rw [runs, List.foldl_cons, ← runs, ih, mem_push_run, List.mem_cons, or_assoc]

/-- A first name that differs from the one before it starts a run. -/
theorem runs_start {first name : κ} (names : List κ) (h : first ≠ name) :
    runs (name::names) [first] = first::runs (name::names) [] := by
  have hp : pushRun [first] name = [first,name] := by simp [pushRun, h]
  rw [runs, List.foldl_cons, hp]
  exact runs_cons first (List.cons_ne_nil name []) names

theorem runs_join (name : κ) (names : List κ) :
    runs (name::names) [name] = runs (name::names) [] := by
  simp [runs, pushRun]

section Sorted
variable [LinearOrder σ] {key : κ → σ}

theorem push_run_sorted {start : List κ} {name : κ} (hinj : ∀ x ∈ start, key x = key name → x = name)
    (hs : start.Pairwise (key · < key ·)) (hle : ∀ x ∈ start, key x ≤ key name) :
    (pushRun start name).Pairwise (key · < key ·) := by
  fun_induction pushRun start name with
  | case1 => simp
  | case2 => exact hs
  | case3 last name hne =>
    have hlt : key last < key name := by
      apply lt_of_le_of_ne (hle last (by simp))
      intro he
      exact hne (hinj last (by simp) he)
    simpa using hlt
  | case4 first next runs name ih =>
    obtain ⟨hfirst,hrest⟩ := List.pairwise_cons.1 hs
    rw [List.pairwise_cons]
    constructor
    · intro x hx
      cases mem_push_run.1 hx with
      | inl hm => exact hfirst x hm
      | inr he => exact he ▸ lt_of_lt_of_le (hfirst next (by simp)) (hle next (by simp))
    · exact ih (fun x hx => hinj x (by simp [hx])) hrest fun x hx => hle x (by simp [hx])

theorem runs_sorted {names start : List κ}
    (hinj : ∀ x ∈ start ++ names, ∀ y ∈ names, key x = key y → x = y)
    (hs : start.Pairwise (key · < key ·)) (hle : ∀ x ∈ start, ∀ y ∈ names, key x ≤ key y)
    (hn : names.Pairwise (key · ≤ key ·)) : (runs names start).Pairwise (key · < key ·) := by
  induction names generalizing start with
  | nil => exact hs
  | cons name names ih =>
    obtain ⟨hname,hnames⟩ := List.pairwise_cons.1 hn
    rw [runs, List.foldl_cons]
    apply ih
    · intro x hx y hy he
      apply hinj x _ y (by simp [hy]) he
      simpa [mem_push_run, or_assoc] using hx
    · exact push_run_sorted (fun x hx => hinj x (by simp [hx]) name (by simp)) hs
        fun x hx => hle x hx name (by simp)
    · intro x hx y hy
      cases mem_push_run.1 hx with
      | inl hm => exact hle x hm y (by simp [hy])
      | inr he => exact he ▸ hname y hy
    · exact hnames

/-- One run for each name. -/
theorem runs_nodup {names : List κ} (hinj : ∀ x ∈ names, ∀ y ∈ names, key x = key y → x = y)
    (hn : names.Pairwise (key · ≤ key ·)) : (runs names []).Nodup := by
  have hs : (runs names []).Pairwise (key · < key ·) :=
    runs_sorted (by simpa using hinj) (by simp) (by simp) hn
  apply List.Pairwise.imp _ hs
  intro x y hlt he
  exact lt_irrefl (key x) (he ▸ hlt)

end Sorted

end MoldMacho.Runs
