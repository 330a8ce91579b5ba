import MoldMacho.Passes.DeadStripDylibs

/-!
# The imports that dropping dylibs keeps

A dylib a symbol binds to is left, or its twin is, which has no twin itself, so
no import is lost, nor bound to a library of another name. The ordinals of the
dylibs left follow the order of their naming, and one loads weakly for the sake
of its imports if it has some and all of them are weak.
-/

set_option autoImplicit false

namespace MoldMacho.DeadStripDylibs
open MoldMacho.Dylibs (DylibFile)
open MoldMacho.Symbols MoldMacho.StableSort
open MoldMacho.DylibOrdinals (Dylib assignDylibOrdinals namedOrder)

/-! ## Counting -/

section Count

def boundTo (i : ℕ) (sym : Symbol) : Bool := dylibOf sym == some i && sym.isUsed

/-- What counting some symbols adds. -/
structure Counted (ss : List Symbol) (start uses : Uses) : Prop where
  used : ∀ i, isUsed uses.used i = true ↔ isUsed start.used i = true ∨
    i < start.used.length ∧ ∃ s ∈ ss, dylibOf s = some i
  length : uses.used.length = start.used.length
  bound : ∀ i < start.bound.length, uses.bound.getD i 0 = start.bound.getD i 0 + ss.countP (boundTo i)
  weak : ∀ i < start.weak.length, uses.weak.getD i 0 = start.weak.getD i 0 +
    ss.countP fun s => boundTo i s && s.isWeakRef
  lengths : uses.bound.length = start.bound.length ∧ uses.weak.length = start.weak.length

theorem getD_modify_add (l : List ℕ) (k n i : ℕ) (hi : i < l.length) :
    (l.modify k (· + n)).getD i 0 = l.getD i 0 + if k = i then n else 0 := by
  simp only [List.getD_eq_getElem?_getD, List.getElem?_modify, List.getElem?_eq_getElem hi,
    Option.getD_some]
  split <;> rfl

theorem is_used_set (l : List Bool) (k i : ℕ) (b : Bool) :
    isUsed (l.set k b) i = if k = i ∧ i < l.length then b else isUsed l i := by
  simp only [isUsed, List.getD_eq_getElem?_getD, List.getElem?_set]
  by_cases hk : k = i
  · subst hk
    by_cases hlt : k < l.length
    · simp [hlt]
    · simp [hlt]
  · simp [hk]

theorem count_symbol (uses : Uses) (sym : Symbol) : Counted [sym] uses (countSymbol uses sym) := by
  cases hdylib : dylibOf sym with
  | none =>
    have hbound (i : ℕ) : boundTo i sym = false := by simp [boundTo, hdylib]
    rw [show countSymbol uses sym = uses by rw [countSymbol, hdylib]]
    exact ⟨by simp [hdylib],rfl,by simp [hbound],by simp [hbound],rfl,rfl⟩
  | some idx =>
    have hused (i : ℕ) : isUsed (uses.used.set idx true) i = true ↔ isUsed uses.used i = true ∨
        i < uses.used.length ∧ ∃ s ∈ [sym], dylibOf s = some i := by
      rw [is_used_set]
      simp only [List.mem_singleton, exists_eq_left, hdylib, Option.some.injEq]
      split
      · next h => simp [h.1, h.2]
      · next h =>
        constructor
        · exact .inl
        · rintro (h' | ⟨hlt,rfl⟩)
          · exact h'
          · exact absurd ⟨rfl,hlt⟩ h
    cases hsym : sym.isUsed with
    | true =>
      have hbound (i : ℕ) : boundTo i sym = (idx == i) := by
        simp [boundTo, hdylib, hsym]
      have hcount : countSymbol uses sym =
          { used := uses.used.set idx true
            bound := uses.bound.modify idx (· + 1)
            weak := uses.weak.modify idx (· + sym.isWeakRef.toNat) } := by
        rw [countSymbol, hdylib]
        simp [hsym]
      rw [hcount]
      refine ⟨hused,List.length_set,fun i hi => ?_,fun i hi => ?_,List.length_modify ..,
        List.length_modify ..⟩
      · dsimp only
        rw [getD_modify_add _ _ _ _ hi, List.countP_singleton, hbound]
        simp
      · dsimp only
        rw [getD_modify_add _ _ _ _ hi, List.countP_singleton, hbound]
        cases sym.isWeakRef <;> by_cases hidx : idx = i <;> simp [hidx]
    | false =>
      have hbound (i : ℕ) : boundTo i sym = false := by simp [boundTo, hsym]
      have hcount : countSymbol uses sym = { uses with used := uses.used.set idx true } := by
        rw [countSymbol, hdylib]
        simp [hsym]
      rw [hcount]
      exact ⟨hused,List.length_set,by simp [hbound],by simp [hbound],rfl,rfl⟩

theorem count_symbols (ss : List Symbol) (uses : Uses) :
    Counted ss uses (ss.foldl countSymbol uses) := by
  induction ss generalizing uses with
  | nil => exact ⟨by simp,rfl,by simp,by simp,rfl,rfl⟩
  | cons s ss ih =>
    have hone := count_symbol uses s
    have hrest := ih (countSymbol uses s)
    rw [List.foldl_cons]
    refine ⟨fun i => ?_,hrest.length.trans hone.length,fun i hi => ?_,fun i hi => ?_,
      hrest.lengths.1.trans hone.lengths.1,hrest.lengths.2.trans hone.lengths.2⟩
    · rw [hrest.used, hone.used, hone.length]
      simp only [List.mem_cons, exists_eq_or_imp, List.not_mem_nil, or_false, exists_eq_left, and_or_left,
        or_assoc]
    · rw [hrest.bound i (hone.lengths.1 ▸ hi), hone.bound i hi, Nat.add_assoc, ← List.countP_append,
        List.singleton_append]
    · rw [hrest.weak i (hone.lengths.2 ▸ hi), hone.weak i hi, Nat.add_assoc, ← List.countP_append,
        List.singleton_append]

end Count

/-! ## Twins -/

section Twins
variable {dylibs : List DylibFile} {used : List Bool} {i t : ℕ}

structure IsTwin (dylibs : List DylibFile) (used : List Bool) (i t : ℕ) (movedToo : Bool) : Prop where
  lt : t < dylibs.length
  used : isUsed used t = true
  moved : isMoved dylibs t = movedToo
  name : dylibs[t]?.map DylibFile.installName = dylibs[i]?.map DylibFile.installName

theorem twin_some {movedToo : Bool} (h : twin dylibs used i movedToo = some t) :
    IsTwin dylibs used i t movedToo := by
  have hmem := List.mem_range.mp (List.mem_of_find?_eq_some h)
  have hp := List.find?_some h
  simp only [Bool.and_eq_true, beq_iff_eq] at hp
  exact ⟨hmem,hp.1.1,hp.1.2,hp.2⟩

/-- Dylibs of one install name have the same first one. -/
theorem twin_congr {j : ℕ} {movedToo : Bool}
    (h : dylibs[j]?.map DylibFile.installName = dylibs[i]?.map DylibFile.installName) :
    twin dylibs used j movedToo = twin dylibs used i movedToo := by
  rw [twin, twin, h]

/-- A twin has none itself. -/
theorem twin_of_some (h : twinOf dylibs used i = some t) :
    isUsed used i = true ∧ t ≠ i ∧ (∃ movedToo, IsTwin dylibs used i t movedToo) ∧
      twinOf dylibs used t = none := by
  rw [twinOf] at h
  split at h
  · next hif =>
    rw [Bool.and_eq_true] at hif
    obtain ⟨hused,hmoved⟩ := hif
    rcases Option.or_eq_some_iff.mp h with hown | ⟨hnone,hfirst⟩
    · have htwin := twin_some hown
      refine ⟨hused,fun heq => ?_,⟨_,htwin⟩,?_⟩
      · have := htwin.moved
        rw [heq, hmoved] at this
        cases this
      · rw [twinOf, htwin.moved]
        simp
    · obtain ⟨hfirst,hne⟩ := Option.filter_eq_some_iff.mp hfirst
      have htwin := twin_some hfirst
      refine ⟨hused,by simpa using hne,⟨_,htwin⟩,?_⟩
      rw [twinOf, htwin.used, htwin.moved, twin_congr htwin.name, twin_congr htwin.name, hnone, hfirst]
      simp
  · cases h

theorem twins_get (i : ℕ) :
    (movedDylibTwins dylibs used)[i]? = if i < dylibs.length then some (twinOf dylibs used i) else none := by
  rw [movedDylibTwins, List.getElem?_map]
  split
  · next h => rw [List.getElem?_range h, Option.map_some]
  · next h => rw [List.getElem?_eq_none (by simpa using h), Option.map_none]

theorem mem_twins {e : Option ℕ × ℕ} :
    e ∈ (movedDylibTwins dylibs used).zipIdx ↔ e.2 < dylibs.length ∧ twinOf dylibs used e.2 = e.1 := by
  rw [List.mem_zipIdx_iff_getElem?, twins_get]
  split
  · next h => simp [h]
  · next h => simp [h]

/-- What the twins of some entries hand over to a dylib. -/
def handedTo (counts : List ℕ) (o : ℕ) (entries : List (Option ℕ × ℕ)) : ℕ :=
  ((entries.filter fun e => e.1 == some o).map fun e => counts.getD e.2 0).sum

/-- Handing bindings over, where none that hands over is handed any. -/
theorem merge_counts (entries : List (Option ℕ × ℕ)) (uses : Uses)
    (hapart : ∀ e ∈ entries, ∀ e' ∈ entries, ∀ t, e.1 = some t → e'.1.isSome = true → e'.2 ≠ t)
    {o : ℕ} (ho : o < uses.bound.length) (ho' : o < uses.weak.length) :
    (entries.foldl mergeTwin uses).bound.getD o 0 =
        uses.bound.getD o 0 + handedTo uses.bound o entries ∧
      (entries.foldl mergeTwin uses).weak.getD o 0 =
        uses.weak.getD o 0 + handedTo uses.weak o entries := by
  induction entries generalizing uses with
  | nil => simp [handedTo]
  | cons e entries ih =>
    have hrest : ∀ e ∈ entries, ∀ e' ∈ entries, ∀ t, e.1 = some t → e'.1.isSome = true → e'.2 ≠ t :=
      fun e he e' he' => hapart e (List.mem_cons_of_mem _ he) e' (List.mem_cons_of_mem _ he')
    rw [List.foldl_cons]
    cases htwin : e.1 with
    | none =>
      have hsame : mergeTwin uses e = uses := by rw [mergeTwin, htwin]
      have hhanded (counts : List ℕ) : handedTo counts o (e::entries) = handedTo counts o entries := by
        simp [handedTo, htwin]
      rw [hsame, hhanded, hhanded]
      exact ih uses hrest ho ho'
    | some t =>
      have hmerge : mergeTwin uses e =
          { used := uses.used.set e.2 false
            bound := uses.bound.modify t (· + uses.bound.getD e.2 0)
            weak := uses.weak.modify t (· + uses.weak.getD e.2 0) } := by rw [mergeTwin, htwin]
      -- what the rest hand over is as it was
      have hother (counts : List ℕ) (n : ℕ) :
          handedTo (counts.modify t (· + n)) o entries = handedTo counts o entries := by
        refine congrArg List.sum (List.map_congr_left fun e' he' => ?_)
        obtain ⟨hmem,hto⟩ := List.mem_filter.mp he'
        have hsome : e'.1.isSome = true := by
          rw [beq_iff_eq] at hto
          rw [hto]
          rfl
        have hne := hapart e List.mem_cons_self e' (List.mem_cons_of_mem _ hmem) t htwin hsome
        rw [List.getD_eq_getElem?_getD, List.getD_eq_getElem?_getD, List.getElem?_modify]
        simp [Ne.symm hne]
      have hhanded (counts : List ℕ) : handedTo counts o (e::entries) =
          (if t = o then counts.getD e.2 0 else 0) + handedTo counts o entries := by
        simp only [handedTo, List.filter_cons, htwin, beq_iff_eq, Option.some.injEq]
        split
        · rw [List.map_cons, List.sum_cons]
        · rw [Nat.zero_add]
      have hnext := ih (mergeTwin uses e) hrest (by rw [hmerge]; simpa using ho)
        (by rw [hmerge]; simpa using ho')
      rw [hmerge] at hnext ⊢
      dsimp only at hnext ⊢
      rw [hother, hother, getD_modify_add _ _ _ _ ho, getD_modify_add _ _ _ _ ho'] at hnext
      rw [hnext.1, hnext.2, hhanded, hhanded]
      exact ⟨Nat.add_assoc _ _ _,Nat.add_assoc _ _ _⟩

theorem merge_used (entries : List (Option ℕ × ℕ)) (uses : Uses) (i : ℕ) :
    isUsed (entries.foldl mergeTwin uses).used i = true ↔ isUsed uses.used i = true ∧
      ∀ e ∈ entries, e.2 = i → e.1 = none := by
  induction entries generalizing uses with
  | nil => simp
  | cons e entries ih =>
    rw [List.foldl_cons, ih]
    cases htwin : e.1 with
    | none =>
      have hsame : mergeTwin uses e = uses := by rw [mergeTwin, htwin]
      rw [hsame]
      simp [htwin]
    | some t =>
      have hused : (mergeTwin uses e).used = uses.used.set e.2 false := by rw [mergeTwin, htwin]
      rw [hused, is_used_set]
      by_cases he : e.2 = i
      · have hlen : i < uses.used.length ∨ isUsed uses.used i = false := by
          by_cases hlt : i < uses.used.length
          · exact .inl hlt
          · right
            rw [isUsed, List.getD_eq_getElem?_getD, List.getElem?_eq_none (Nat.le_of_not_lt hlt)]
            rfl
        rcases hlen with hlt | hnot
        · simp [he, hlt, htwin]
        · simp [he, hnot, htwin]
      · simp [he]

theorem merge_length (entries : List (Option ℕ × ℕ)) (uses : Uses) :
    (entries.foldl mergeTwin uses).used.length = uses.used.length := by
  induction entries generalizing uses with
  | nil => rfl
  | cons e entries ih =>
    rw [List.foldl_cons, ih, mergeTwin]
    split
    · exact List.length_set
    · rfl

end Twins

/-! ## Removal -/

section Removal
variable {l : List (DylibFile × Bool)}

theorem keep_some (count : ℕ) {i : ℕ} {d : DylibFile} (h : l[i]? = some (d,true)) :
    ∃ k : ℕ, (keepUsed l count).2[i]? = some (count+k) ∧ (keepUsed l count).1[k]? = some d := by
  induction l generalizing count i with
  | nil => cases h
  | cons e l ih =>
    obtain ⟨d',b⟩ := e
    cases i with
    | zero =>
      cases h
      exact ⟨0,rfl,rfl⟩
    | succ i =>
      rw [List.getElem?_cons_succ] at h
      cases b with
      | true =>
        obtain ⟨k,hk,hd⟩ := ih (count+1) h
        exact ⟨k+1,by rw [keepUsed, List.getElem?_cons_succ, hk, Nat.add_right_comm, Nat.add_assoc],hd⟩
      | false => exact ih count h

theorem kept_some (count : ℕ) {k : ℕ} {d : DylibFile} (h : (keepUsed l count).1[k]? = some d) :
    ∃ i : ℕ, l[i]? = some (d,true) ∧ (keepUsed l count).2[i]? = some (count+k) := by
  induction l generalizing count k with
  | nil => cases h
  | cons e l ih =>
    obtain ⟨d',b⟩ := e
    cases b with
    | true =>
      cases k with
      | zero =>
        cases h
        exact ⟨0,rfl,rfl⟩
      | succ k =>
        obtain ⟨i,hi,hk⟩ := ih (count+1) h
        exact ⟨i+1,hi,by rw [keepUsed, List.getElem?_cons_succ, hk, Nat.add_right_comm, Nat.add_assoc]⟩
    | false =>
      obtain ⟨i,hi,hk⟩ := ih count h
      exact ⟨i+1,hi,hk⟩

theorem kept_length (l : List (DylibFile × Bool)) (count : ℕ) :
    (keepUsed l count).1.length ≤ l.length := by
  induction l generalizing count with
  | nil => exact Nat.le_refl _
  | cons e l ih =>
    obtain ⟨d,b⟩ := e
    cases b with
    | true => exact Nat.succ_le_succ (ih (count+1))
    | false => exact Nat.le_succ_of_le (ih count)

theorem remap_length (l : List (DylibFile × Bool)) (count : ℕ) :
    (keepUsed l count).2.length = l.length := by
  induction l generalizing count with
  | nil => rfl
  | cons e l ih =>
    obtain ⟨d,b⟩ := e
    cases b with
    | true => exact congrArg Nat.succ (ih (count+1))
    | false => exact congrArg Nat.succ (ih count)

variable {entries : List (Option ℕ × ℕ)} {remap : List ℕ} {i t : ℕ}

theorem remap_frame (h : ∀ e ∈ entries, e.2 = i → e.1 = none) :
    (entries.foldl remapTwin remap)[i]? = remap[i]? := by
  induction entries generalizing remap with
  | nil => rfl
  | cons e entries ih =>
    rw [List.foldl_cons, ih fun e' he' => h e' (List.mem_cons_of_mem _ he'), remapTwin]
    cases htwin : e.1 with
    | none => rfl
    | some t =>
      refine List.getElem?_set_ne fun hi => ?_
      rw [h e List.mem_cons_self hi] at htwin
      cases htwin

theorem remap_twin (hlt : i < remap.length) (hne : t ≠ i) (hmem : (some t,i) ∈ entries)
    (hsame : ∀ e ∈ entries, e.2 = i → e.1 = some t) (hkept : ∀ e ∈ entries, e.2 = t → e.1 = none) :
    (entries.foldl remapTwin remap)[i]? = some (remap.getD t removed) := by
  induction entries generalizing remap with
  | nil => cases hmem
  | cons e entries ih =>
    have hsame' : ∀ e ∈ entries, e.2 = i → e.1 = some t :=
      fun e' he' => hsame e' (List.mem_cons_of_mem _ he')
    have hkept' : ∀ e ∈ entries, e.2 = t → e.1 = none :=
      fun e' he' => hkept e' (List.mem_cons_of_mem _ he')
    rw [List.foldl_cons]
    have hstep : (remapTwin remap e).length = remap.length ∧
        (remapTwin remap e).getD t removed = remap.getD t removed := by
      rw [remapTwin]
      cases htwin : e.1 with
      | none => exact ⟨rfl,rfl⟩
      | some t' =>
        refine ⟨List.length_set,?_⟩
        have he : e.2 ≠ t := by
          intro he
          rw [hkept e List.mem_cons_self he] at htwin
          cases htwin
        rw [List.getD_eq_getElem?_getD, List.getElem?_set_ne he, ← List.getD_eq_getElem?_getD]
    by_cases hin : (some t,i) ∈ entries
    · rw [ih (hstep.1 ▸ hlt) hin hsame' hkept', hstep.2]
    · have he : e = (some t,i) := ((List.mem_cons.mp hmem).resolve_right hin).symm
      have hnone : ∀ e' ∈ entries, e'.2 = i → e'.1 = none := by
        rintro ⟨t',i'⟩ he' rfl
        have hto : t' = some t := hsame' _ he' rfl
        rw [hto] at he'
        exact absurd he' hin
      rw [remap_frame hnone, he, remapTwin]
      exact List.getElem?_set_self hlt

end Removal

/-! ## Ordinals -/

section Ordinals

theorem number_get {dylibs : List DylibFile} {k : ℕ} {d : DylibFile} (h : dylibs[k]? = some d) :
    ∃ ordinal, (numberDylibs dylibs)[k]? = some { d with dylibIdx := ordinal } ∧
      ∀ p : ℕ, (namedOrder (ordinalRecords dylibs))[p]? = some k → ordinal = p+1 := by
  have hrecord : (ordinalRecords dylibs)[k]? = some (ordinalRecord d) := by
    rw [ordinalRecords, List.getElem?_map, h, Option.map_some]
  have hget (r : Dylib) (hr : (assignDylibOrdinals (ordinalRecords dylibs))[k]? = some r) :
      (numberDylibs dylibs)[k]? = some { d with dylibIdx := r.dylibIdx } := by
    rw [numberDylibs, List.getElem?_zipWith, h, hr]
  by_cases hloaded : k ∈ DylibOrdinals.loaded (ordinalRecords dylibs)
  · obtain ⟨p,hp⟩ := List.mem_iff_getElem?.mp (DylibOrdinals.mem_named_order.mpr hloaded)
    refine ⟨_,hget _ (DylibOrdinals.assigned_at hrecord hp),fun q hq => ?_⟩
    have hplt := (List.getElem?_eq_some_iff.1 hp).1
    have hpq : p = q := (List.getElem?_inj hplt (DylibOrdinals.named_order_nodup _)).mp
      (hp.trans hq.symm)
    rw [hpq]
  · have hother := DylibOrdinals.assigned_other hloaded
    rw [hrecord, Option.map_some] at hother
    refine ⟨_,hget _ hother,fun p hp => ?_⟩
    exact absurd (DylibOrdinals.mem_named_order.mp (List.mem_of_getElem? hp)) hloaded

theorem number_length (dylibs : List DylibFile) : (numberDylibs dylibs).length ≤ dylibs.length := by
  rw [numberDylibs, List.length_zipWith]
  exact Nat.min_le_left _ _

theorem drop_upward_get (ctx : Context) (order : List ℕ) (k : ℕ) :
    ∃ upward : DylibFile → Bool, (dropUpward ctx order).dylibs[k]? =
      ctx.dylibs[k]?.map fun d => { d with isUpward := upward d } := by
  rw [dropUpward]
  split
  · exact ⟨fun d => d.isUpward,by simp⟩
  · dsimp only
    rw [List.getElem?_mapIdx]
    split
    · exact ⟨fun _ => false,rfl⟩
    · exact ⟨fun d => d.isUpward,by simp⟩

end Ordinals

/-! ## The pass -/

section Pass
variable (ctx : Context)

/-- The bindings of the dylibs once the twins have theirs. -/
def mergedUses : Uses :=
  mergeTwins (countSymbols ctx) (movedDylibTwins ctx.dylibs (countSymbols ctx).used)

/-- The dylib that has a dylib's imports after the pass: its twin or itself. -/
def standIn (i : ℕ) : ℕ := (twinOf ctx.dylibs (countSymbols ctx).used i).getD i

/-- A dylib that is left, by its index before the pass and after. -/
def Left (o new : ℕ) : Prop :=
  isUsed (mergedUses ctx).used o = true ∧
    (keepUsed ((markWeak (mergedUses ctx) ctx.dylibs).zip (mergedUses ctx).used) 0).2[o]? = some new

/-- Whether a symbol is a used import that a dylib has after the pass. -/
def ImportOf (o id : ℕ) : Prop :=
  id < ctx.symbols.names.length ∧ (ctx.syms id).isUsed = true ∧
    ∃ idx, dylibOf (ctx.syms id) = some idx ∧ standIn ctx idx = o

/-- Whether a dylib has imports, all of them weak. -/
def WeaklyBound (o : ℕ) : Prop :=
  (∃ id, ImportOf ctx o id) ∧ ∀ id, ImportOf ctx o id → (ctx.syms id).isWeakRef = true

/-- The dylibs with a load command, in the order of their naming, have the
ordinals from one on. -/
structure Ordered (dylibs : List DylibFile) (order : List ℕ) : Prop where
  listed : ∀ i : ℕ, i ∈ order ↔
    ∃ d, dylibs[i]? = some d ∧ d.isBundleLoader = false ∧ d.isLazy = false
  sorted : order.Pairwise fun i j =>
    DylibOrdinals.namedKey (ordinalRecords dylibs) i < DylibOrdinals.namedKey (ordinalRecords dylibs) j ∨
      DylibOrdinals.namedKey (ordinalRecords dylibs) i = DylibOrdinals.namedKey (ordinalRecords dylibs) j ∧
        i < j
  ordinal : ∀ (k i : ℕ) d, order[k]? = some i → dylibs[i]? = some d → d.dylibIdx = k+1

variable {ctx}

theorem counted (ctx : Context) :
    Counted ((List.range ctx.symbols.names.length).map ctx.syms) (startUses ctx) (countSymbols ctx) :=
  count_symbols _ _

theorem counted_length (ctx : Context) :
    (countSymbols ctx).used.length = ctx.dylibs.length ∧
      (countSymbols ctx).bound.length = ctx.dylibs.length ∧
      (countSymbols ctx).weak.length = ctx.dylibs.length := by
  have h := counted ctx
  simp [h.length, h.lengths, startUses]

theorem merged_used {i : ℕ} (hi : i < ctx.dylibs.length) :
    isUsed (mergedUses ctx).used i = true ↔ isUsed (countSymbols ctx).used i = true ∧
      twinOf ctx.dylibs (countSymbols ctx).used i = none := by
  rw [mergedUses, mergeTwins, merge_used]
  refine and_congr_right fun _ => ⟨fun h => ?_,fun h e he hei => ?_⟩
  · exact h (_,i) (mem_twins.mpr ⟨hi,rfl⟩) rfl
  · rw [← (mem_twins.mp he).2, hei, h]

/-- A twin keeps its own index and bindings. -/
theorem twins_apart {dylibs : List DylibFile} {used : List Bool} {e e' : Option ℕ × ℕ} {t : ℕ}
    (he : e ∈ (movedDylibTwins dylibs used).zipIdx) (he' : e' ∈ (movedDylibTwins dylibs used).zipIdx)
    (ht : e.1 = some t) (hsome : e'.1.isSome = true) : e'.2 ≠ t := by
  rintro rfl
  have hnone := (twin_of_some ((mem_twins.mp he).2.trans ht)).2.2.2
  rw [(mem_twins.mp he').2] at hnone
  rw [hnone] at hsome
  cases hsome

/-- What stands for a dylib with imports is left. -/
theorem stand_in_used {i : ℕ} (hi : i < ctx.dylibs.length)
    (hused : isUsed (countSymbols ctx).used i = true) :
    standIn ctx i < ctx.dylibs.length ∧ isUsed (mergedUses ctx).used (standIn ctx i) = true ∧
      ctx.dylibs[standIn ctx i]?.map DylibFile.installName = ctx.dylibs[i]?.map DylibFile.installName := by
  rw [standIn]
  cases htwin : twinOf ctx.dylibs (countSymbols ctx).used i with
  | none => exact ⟨hi,(merged_used hi).mpr ⟨hused,htwin⟩,rfl⟩
  | some t =>
    obtain ⟨-,-,⟨movedToo,h⟩,hnone⟩ := twin_of_some htwin
    exact ⟨h.lt,(merged_used h.lt).mpr ⟨h.used,hnone⟩,h.name⟩

theorem mark_weak_get (uses : Uses) (dylibs : List DylibFile) (i : ℕ) :
    (markWeak uses dylibs)[i]? = dylibs[i]?.map fun d =>
      { d with isWeak := d.isWeak || loadsWeakly uses i } := by
  rw [markWeak, List.getElem?_mapIdx]
  refine congrArg (fun f => Option.map f _) (funext fun d => ?_)
  cases hw : loadsWeakly uses i <;> simp

theorem zip_used {o : ℕ} {d : DylibFile} (hd : ctx.dylibs[o]? = some d)
    (hused : isUsed (mergedUses ctx).used o = true) :
    ((markWeak (mergedUses ctx) ctx.dylibs).zip (mergedUses ctx).used)[o]? =
      some ({ d with isWeak := d.isWeak || loadsWeakly (mergedUses ctx) o },true) := by
  rw [isUsed, List.getD_eq_getElem?_getD] at hused
  have hflag : (mergedUses ctx).used[o]? = some true := by
    cases hu : (mergedUses ctx).used[o]? with
    | none =>
      rw [hu] at hused
      cases hused
    | some b =>
      rw [hu, Option.getD_some] at hused
      rw [hused]
  rw [List.getElem?_zip_eq_some, mark_weak_get, hd, Option.map_some]
  exact ⟨rfl,hflag⟩

def finalRemap (ctx : Context) : List ℕ :=
  (movedDylibTwins ctx.dylibs (countSymbols ctx).used).zipIdx.foldl remapTwin
    (keepUsed ((markWeak (mergedUses ctx) ctx.dylibs).zip (mergedUses ctx).used) 0).2

/-- The dylibs left, before they are numbered. -/
def keptDylibs (ctx : Context) : List DylibFile :=
  (removeUnusedDylibs (weakenMovedImports
      { ctx with dylibs := markWeak (mergedUses ctx) ctx.dylibs })
    (mergedUses ctx).used (movedDylibTwins ctx.dylibs (countSymbols ctx).used)).dylibs

theorem kept_dylibs_get (ctx : Context) (k : ℕ) :
    ∃ moved : DylibFile → List (Name × ℕ), (keptDylibs ctx)[k]? =
      (keepUsed ((markWeak (mergedUses ctx) ctx.dylibs).zip (mergedUses ctx).used) 0).1[k]?.map
        fun d => { d with movedExports := moved d } := by
  refine ⟨fun d => d.movedExports.map fun e => (e.1,(finalRemap ctx).getD e.2 removed),?_⟩
  rw [keptDylibs, removeUnusedDylibs]
  dsimp only [weakenMovedImports]
  rw [List.getElem?_map]
  rfl

theorem kept_dylibs_length (ctx : Context) : (keptDylibs ctx).length ≤ ctx.dylibs.length := by
  rw [keptDylibs, removeUnusedDylibs]
  dsimp only [weakenMovedImports]
  rw [List.length_map]
  refine (kept_length _ 0).trans ?_
  rw [List.length_zip, markWeak, List.length_mapIdx]
  exact Nat.min_le_left _ _

theorem after_get {k : ℕ} {d : DylibFile} (h : (keptDylibs ctx)[k]? = some d) :
    ∃ ordinal upward, (deadStripDylibs ctx).dylibs[k]? =
        some { d with dylibIdx := ordinal, isUpward := upward } ∧
      ∀ p : ℕ, (namedOrder (ordinalRecords (keptDylibs ctx)))[p]? = some k → ordinal = p+1 := by
  obtain ⟨ordinal,hnumber,hordinal⟩ := number_get h
  obtain ⟨upward,hupward⟩ := drop_upward_get
    { removeUnusedDylibs (weakenMovedImports
        { ctx with dylibs := markWeak (mergedUses ctx) ctx.dylibs })
      (mergedUses ctx).used (movedDylibTwins ctx.dylibs (countSymbols ctx).used) with
      dylibs := numberDylibs (keptDylibs ctx) }
    (namedOrder (ordinalRecords (keptDylibs ctx))) k
  dsimp only at hupward
  rw [hnumber, Option.map_some] at hupward
  exact ⟨ordinal,_,hupward,hordinal⟩

theorem after_from {k : ℕ} {d' : DylibFile} (h : (deadStripDylibs ctx).dylibs[k]? = some d') :
    ∃ d, (keptDylibs ctx)[k]? = some d := by
  obtain ⟨upward,hupward⟩ := drop_upward_get
    { removeUnusedDylibs (weakenMovedImports
        { ctx with dylibs := markWeak (mergedUses ctx) ctx.dylibs })
      (mergedUses ctx).used (movedDylibTwins ctx.dylibs (countSymbols ctx).used) with
      dylibs := numberDylibs (keptDylibs ctx) }
    (namedOrder (ordinalRecords (keptDylibs ctx))) k
  have hsome := h.symm.trans hupward
  dsimp only at hsome
  obtain ⟨d,hd,-⟩ := Option.map_eq_some_iff.mp hsome.symm
  have hlt := (List.getElem?_eq_some_iff.mp hd).1.trans_le (number_length _)
  exact ⟨_,List.getElem?_eq_getElem hlt⟩

/-- What becomes of a dylib that is left. -/
theorem left_get {o : ℕ} {d : DylibFile} (hd : ctx.dylibs[o]? = some d)
    (hused : isUsed (mergedUses ctx).used o = true) :
    ∃ new, Left ctx o new ∧ new < ctx.dylibs.length ∧ ∃ d',
      (deadStripDylibs ctx).dylibs[new]? = some d' ∧ d'.installName = d.installName ∧
      d'.isWeak = (d.isWeak || loadsWeakly (mergedUses ctx) o) := by
  obtain ⟨k,hk,hkept⟩ := keep_some 0 (zip_used hd hused)
  rw [Nat.zero_add] at hk
  obtain ⟨moved,hmoved⟩ := kept_dylibs_get ctx k
  rw [hkept, Option.map_some] at hmoved
  obtain ⟨ordinal,upward,hafter,-⟩ := after_get hmoved
  have hlt := (List.getElem?_eq_some_iff.mp hmoved).1.trans_le (kept_dylibs_length ctx)
  exact ⟨k,⟨hused,hk⟩,hlt,_,hafter,rfl,rfl⟩

/-- Every dylib left was one of the link. -/
theorem left_from {new : ℕ} {d' : DylibFile} (h : (deadStripDylibs ctx).dylibs[new]? = some d') :
    ∃ o d, ctx.dylibs[o]? = some d ∧ Left ctx o new ∧ d'.installName = d.installName ∧
      d'.isWeak = (d.isWeak || loadsWeakly (mergedUses ctx) o) := by
  obtain ⟨kept,hkept⟩ := after_from h
  obtain ⟨ordinal,upward,hafter,-⟩ := after_get hkept
  rw [h] at hafter
  obtain rfl := Option.some.inj hafter
  obtain ⟨moved,hmoved⟩ := kept_dylibs_get ctx new
  rw [hkept] at hmoved
  obtain ⟨e,he,rfl⟩ := Option.map_eq_some_iff.mp hmoved.symm
  obtain ⟨o,hzip,hremap⟩ := kept_some 0 he
  rw [Nat.zero_add] at hremap
  obtain ⟨hmark,hflag⟩ := List.getElem?_zip_eq_some.mp hzip
  rw [mark_weak_get] at hmark
  obtain ⟨d,hd,rfl⟩ := Option.map_eq_some_iff.mp hmark
  have hused : isUsed (mergedUses ctx).used o = true := by
    rw [isUsed, List.getD_eq_getElem?_getD, hflag, Option.getD_some]
  exact ⟨o,d,hd,⟨hused,hremap⟩,rfl,rfl⟩

/-! ### The symbols -/

theorem dylib_of_weakened (ctx : Context) (id : SymbolId) :
    dylibOf ((weakenMovedImports ctx).syms id) = dylibOf (ctx.syms id) := by
  simp only [weakenMovedImports]
  split <;> rfl

theorem remap_symbol {remap : List ℕ} {sym : Symbol} {idx new : ℕ} (hfile : dylibOf sym = some idx)
    (hnew : remap[idx]? = some new) (hlt : new < noDylib) :
    dylibOf (remapSymbol remap sym) = some new := by
  rw [remapSymbol, hfile]
  dsimp only
  have hget : remap.getD idx removed = new := by
    rw [List.getD_eq_getElem?_getD, hnew, Option.getD_some]
  have hsmall : new % 2^32 = new := Nat.mod_eq_of_lt (by rw [noDylib] at hlt; omega)
  simp only [dylibOf, hget, hsmall, if_neg hlt.ne]

/-- An import's symbol follows the dylib that stands in for its own. -/
theorem symbol_follows {id : SymbolId} {idx new : ℕ} (hfile : dylibOf (ctx.syms id) = some idx)
    (hidx : idx < ctx.dylibs.length) (hleft : Left ctx (standIn ctx idx) new) (hlt : new < noDylib) :
    dylibOf ((deadStripDylibs ctx).syms id) = some new := by
  have hsyms : (deadStripDylibs ctx).syms = (removeUnusedDylibs (weakenMovedImports
      { ctx with dylibs := markWeak (mergedUses ctx) ctx.dylibs })
      (mergedUses ctx).used (movedDylibTwins ctx.dylibs (countSymbols ctx).used)).syms := by
    rw [deadStripDylibs, dropUpward]
    split <;> rfl
  rw [hsyms, removeUnusedDylibs]
  refine remap_symbol ((dylib_of_weakened _ _).trans hfile) ?_ hlt
  obtain ⟨-,hremap⟩ := hleft
  rw [standIn] at hremap
  cases htwin : twinOf ctx.dylibs (countSymbols ctx).used idx with
  | none =>
    rw [htwin, Option.getD_none] at hremap
    refine (remap_frame fun e he hei => ?_).trans hremap
    rw [← (mem_twins.mp he).2, hei, htwin]
  | some t =>
    rw [htwin, Option.getD_some] at hremap
    obtain ⟨-,hne,⟨movedToo,h⟩,hnone⟩ := twin_of_some htwin
    have hlength : (keepUsed ((markWeak (mergedUses ctx) ctx.dylibs).zip (mergedUses ctx).used)
        0).2.length = ctx.dylibs.length := by
      rw [remap_length, List.length_zip, markWeak, List.length_mapIdx, mergedUses, mergeTwins,
        merge_length, (counted_length ctx).1, Nat.min_self]
    rw [remap_twin (hlength ▸ hidx) hne (mem_twins.mpr ⟨hidx,htwin⟩) (fun e he hei => ?_)
      (fun e he het => ?_)]
    · exact congrArg some (by rw [List.getD_eq_getElem?_getD]; exact congrArg (Option.getD · _) hremap)
    · rw [← (mem_twins.mp he).2, hei, htwin]
    · rw [← (mem_twins.mp he).2, het, hnone]

/-! ### Weak loads -/

/-- Where nothing exceeds its bound, sums agree if and only if all terms do. -/
theorem sum_eq_iff {α : Type} {l : List α} {f g : α → ℕ} (h : ∀ a ∈ l, f a ≤ g a) :
    (l.map f).sum ≤ (l.map g).sum ∧ ((l.map f).sum = (l.map g).sum ↔ ∀ a ∈ l, f a = g a) := by
  induction l with
  | nil => simp
  | cons a l ih =>
    obtain ⟨hle,heq⟩ := ih fun b hb => h b (List.mem_cons_of_mem _ hb)
    have ha := h a List.mem_cons_self
    simp only [List.map_cons, List.sum_cons, List.forall_mem_cons, ← heq]
    omega

theorem sum_pos_iff {α : Type} {l : List α} {f : α → ℕ} :
    0 < (l.map f).sum ↔ ∃ a ∈ l, 0 < f a := by
  induction l with
  | nil => simp
  | cons a l ih =>
    simp only [List.map_cons, List.sum_cons, List.exists_mem_cons_iff, ← ih]
    omega

/-- The dylibs whose imports one has after the pass. -/
def handers (ctx : Context) (o : ℕ) : List (Option ℕ × ℕ) :=
  (movedDylibTwins ctx.dylibs (countSymbols ctx).used).zipIdx.filter fun e => e.1 == some o

theorem count_bound (ctx : Context) {i : ℕ} (hi : i < ctx.dylibs.length) :
    (countSymbols ctx).bound.getD i 0 =
        ((List.range ctx.symbols.names.length).map ctx.syms).countP (boundTo i) ∧
      (countSymbols ctx).weak.getD i 0 = ((List.range ctx.symbols.names.length).map ctx.syms).countP
        fun s => boundTo i s && s.isWeakRef := by
  have h := counted ctx
  have hb : i < (startUses ctx).bound.length := by simpa [startUses] using hi
  have hw : i < (startUses ctx).weak.length := by simpa [startUses] using hi
  have hzero : (startUses ctx).bound.getD i 0 = 0 ∧ (startUses ctx).weak.getD i 0 = 0 := by
    simp [startUses, hi]
  rw [h.bound i hb, h.weak i hw, hzero.1, hzero.2, Nat.zero_add, Nat.zero_add]
  exact ⟨rfl,rfl⟩

/-- What is bound to a dylib, and weakly. -/
theorem count_weak (ctx : Context) {i : ℕ} (hi : i < ctx.dylibs.length) :
    (0 < (countSymbols ctx).bound.getD i 0 ↔ ∃ id < ctx.symbols.names.length,
      dylibOf (ctx.syms id) = some i ∧ (ctx.syms id).isUsed = true) ∧
    (countSymbols ctx).weak.getD i 0 ≤ (countSymbols ctx).bound.getD i 0 ∧
    ((countSymbols ctx).weak.getD i 0 = (countSymbols ctx).bound.getD i 0 ↔
      ∀ id < ctx.symbols.names.length, dylibOf (ctx.syms id) = some i →
        (ctx.syms id).isUsed = true → (ctx.syms id).isWeakRef = true) := by
  obtain ⟨hb,hw⟩ := count_bound ctx hi
  have hle := List.countP_mono_left (l := (List.range ctx.symbols.names.length).map ctx.syms)
    (p := fun s => boundTo i s && s.isWeakRef) (q := boundTo i) fun s _ hs => by
      simp only [Bool.and_eq_true] at hs
      exact hs.1
  rw [hb, hw]
  refine ⟨?_,hle,?_⟩
  · simp [List.countP_pos_iff, boundTo]
  · have hcomm : (fun s => boundTo i s && s.isWeakRef) = fun s => s.isWeakRef && boundTo i s :=
      funext fun s => Bool.and_comm _ _
    rw [hcomm, ← List.countP_filter, List.countP_eq_length_filter (p := boundTo i),
      List.countP_eq_length]
    simp only [List.mem_filter, List.mem_map, List.mem_range, boundTo, Bool.and_eq_true, beq_iff_eq]
    constructor
    · intro h id hid hdylib hused
      exact h _ ⟨⟨id,hid,rfl⟩,hdylib,hused⟩
    · rintro h s ⟨⟨id,hid,rfl⟩,hdylib,hused⟩
      exact h id hid hdylib hused

/-- The dylibs that a dylib stands in for. -/
theorem stand_in_iff {i o : ℕ} (hnone : twinOf ctx.dylibs (countSymbols ctx).used o = none) :
    standIn ctx i = o ↔ i = o ∨ twinOf ctx.dylibs (countSymbols ctx).used i = some o := by
  rw [standIn]
  constructor
  · intro h
    cases htwin : twinOf ctx.dylibs (countSymbols ctx).used i with
    | none =>
      rw [htwin, Option.getD_none] at h
      exact .inl h
    | some t =>
      rw [htwin, Option.getD_some] at h
      exact .inr (congrArg some h)
  · rintro (rfl | h)
    · rw [hnone, Option.getD_none]
    · rw [h, Option.getD_some]

/-- A dylib loads weakly for its imports if it has some and all are weak. -/
theorem loads_weakly_iff {o : ℕ} (ho : o < ctx.dylibs.length)
    (hnone : twinOf ctx.dylibs (countSymbols ctx).used o = none)
    (hfiles : ∀ id < ctx.symbols.names.length, ∀ idx, dylibOf (ctx.syms id) = some idx →
      idx < ctx.dylibs.length) :
    loadsWeakly (mergedUses ctx) o = true ↔ WeaklyBound ctx o := by
  obtain ⟨-,hb,hw⟩ := counted_length ctx
  have hmerge := merge_counts (movedDylibTwins ctx.dylibs (countSymbols ctx).used).zipIdx
    (countSymbols ctx) (fun e he e' he' t => twins_apart he he') (hb ▸ ho) (hw ▸ ho)
  have hlt {e : Option ℕ × ℕ} (he : e ∈ handers ctx o) :
      e.2 < ctx.dylibs.length ∧ twinOf ctx.dylibs (countSymbols ctx).used e.2 = some o := by
    obtain ⟨hmem,hto⟩ := List.mem_filter.mp he
    rw [beq_iff_eq] at hto
    exact hto ▸ mem_twins.mp hmem
  have hmem {i : ℕ} (hi : i < ctx.dylibs.length)
      (htwin : twinOf ctx.dylibs (countSymbols ctx).used i = some o) : (some o,i) ∈ handers ctx o :=
    List.mem_filter.mpr ⟨mem_twins.mpr ⟨hi,htwin⟩,beq_self_eq_true _⟩
  obtain ⟨hpos,hle,heq⟩ := count_weak ctx ho
  have hsum := sum_eq_iff (l := handers ctx o) (f := fun e => (countSymbols ctx).weak.getD e.2 0)
    (g := fun e => (countSymbols ctx).bound.getD e.2 0) fun e he => (count_weak ctx (hlt he).1).2.1
  rw [loadsWeakly, mergedUses, mergeTwins, hmerge.1, hmerge.2, Bool.and_eq_true, decide_eq_true_eq,
    beq_iff_eq, WeaklyBound]
  have hsome : 0 < (countSymbols ctx).bound.getD o 0 + handedTo (countSymbols ctx).bound o
      (movedDylibTwins ctx.dylibs (countSymbols ctx).used).zipIdx ↔ ∃ id, ImportOf ctx o id := by
    rw [Nat.add_pos_iff_pos_or_pos, hpos, handedTo, sum_pos_iff]
    constructor
    · rintro (⟨id,hid,hdylib,hused⟩ | ⟨e,he,hcount⟩)
      · exact ⟨id,hid,hused,o,hdylib,(stand_in_iff hnone).mpr (.inl rfl)⟩
      · obtain ⟨id,hid,hdylib,hused⟩ := (count_weak ctx (hlt he).1).1.mp hcount
        exact ⟨id,hid,hused,e.2,hdylib,(stand_in_iff hnone).mpr (.inr (hlt he).2)⟩
    · rintro ⟨id,hid,hused,idx,hdylib,hstand⟩
      rcases (stand_in_iff hnone).mp hstand with rfl | htwin
      · exact .inl ⟨id,hid,hdylib,hused⟩
      · have hidx := hfiles id hid idx hdylib
        exact .inr ⟨_,hmem hidx htwin,(count_weak ctx hidx).1.mpr ⟨id,hid,hdylib,hused⟩⟩
  rw [hsome]
  refine and_congr_right fun _ => ?_
  have hboth : (countSymbols ctx).weak.getD o 0 + handedTo (countSymbols ctx).weak o
        (movedDylibTwins ctx.dylibs (countSymbols ctx).used).zipIdx =
      (countSymbols ctx).bound.getD o 0 + handedTo (countSymbols ctx).bound o
        (movedDylibTwins ctx.dylibs (countSymbols ctx).used).zipIdx ↔
      (countSymbols ctx).weak.getD o 0 = (countSymbols ctx).bound.getD o 0 ∧
        ∀ e ∈ handers ctx o, (countSymbols ctx).weak.getD e.2 0 = (countSymbols ctx).bound.getD e.2 0 := by
    rw [← hsum.2]
    have hsumle := hsum.1
    simp only [handedTo, handers] at hsumle ⊢
    omega
  rw [hboth, heq]
  constructor
  · rintro ⟨hself,hothers⟩ id ⟨hid,hused,idx,hdylib,hstand⟩
    rcases (stand_in_iff hnone).mp hstand with rfl | htwin
    · exact hself id hid hdylib hused
    · have hidx := hfiles id hid idx hdylib
      exact (count_weak ctx hidx).2.2.mp (hothers _ (hmem hidx htwin)) id hid hdylib hused
  · intro h
    refine ⟨fun id hid hdylib hused => ?_,fun e he => (count_weak ctx (hlt he).1).2.2.mpr ?_⟩
    · exact h id ⟨hid,hused,o,hdylib,(stand_in_iff hnone).mpr (.inl rfl)⟩
    · intro id hid hdylib hused
      exact h id ⟨hid,hused,e.2,hdylib,(stand_in_iff hnone).mpr (.inr (hlt he).2)⟩

/-! ### The ordinals -/

theorem after_key (ctx : Context) (i : ℕ) :
    DylibOrdinals.namedKey (ordinalRecords (deadStripDylibs ctx).dylibs) i =
      DylibOrdinals.namedKey (ordinalRecords (keptDylibs ctx)) i := by
  simp only [DylibOrdinals.namedKey, ordinalRecords, List.getElem?_map]
  cases hk : (keptDylibs ctx)[i]? with
  | none =>
    cases ha : (deadStripDylibs ctx).dylibs[i]? with
    | none => rfl
    | some d' =>
      obtain ⟨d,hd⟩ := after_from ha
      rw [hk] at hd
      cases hd
  | some d =>
    obtain ⟨ordinal,upward,hafter,-⟩ := after_get hk
    rw [hafter]
    rfl

theorem after_ordered (ctx : Context) :
    Ordered (deadStripDylibs ctx).dylibs (namedOrder (ordinalRecords (keptDylibs ctx))) where
  listed := by
    intro i
    rw [DylibOrdinals.mem_named_order, DylibOrdinals.mem_loaded]
    constructor
    · rintro ⟨r,hr,hloaded⟩
      rw [ordinalRecords, List.getElem?_map] at hr
      obtain ⟨d,hd,rfl⟩ := Option.map_eq_some_iff.mp hr
      obtain ⟨ordinal,upward,hafter,-⟩ := after_get hd
      simp only [DylibOrdinals.Dylib.isLoaded, Bool.and_eq_true, Bool.not_eq_true'] at hloaded
      exact ⟨_,hafter,hloaded.1,hloaded.2⟩
    · rintro ⟨d',hd',hloader,hlazy⟩
      obtain ⟨d,hd⟩ := after_from hd'
      obtain ⟨ordinal,upward,hafter,-⟩ := after_get hd
      rw [hd'] at hafter
      obtain rfl := Option.some.inj hafter
      refine ⟨ordinalRecord d,?_,?_⟩
      · rw [ordinalRecords, List.getElem?_map, hd, Option.map_some]
      · have hloader' : d.isBundleLoader = false := hloader
        have hlazy' : d.isLazy = false := hlazy
        simp [DylibOrdinals.Dylib.isLoaded, ordinalRecord, hloader', hlazy']
  sorted := by
    simp only [after_key]
    have hrange : (List.range (ordinalRecords (keptDylibs ctx)).length).Pairwise fun i j => i < j :=
      List.pairwise_lt_range
    exact sort_stable _ (hrange.filter _) ((hrange.imp Nat.ne_of_lt).filter _)
  ordinal := by
    intro k i d' hk hd'
    obtain ⟨d,hd⟩ := after_from hd'
    obtain ⟨ordinal,upward,hafter,hordinal⟩ := after_get hd
    rw [hd'] at hafter
    obtain rfl := Option.some.inj hafter
    exact hordinal k hk

/-- Dropping dylibs keeps every import: with a library of its dylib's name, the
dylib itself or its twin. The dylibs with load commands are numbered by their
naming, and one becomes weak exactly for the sake of its imports. -/
theorem dead_strip_dylibs_keeps (hcount : ctx.dylibs.length < 2^32)
    (hfiles : ∀ id < ctx.symbols.names.length, ∀ idx, dylibOf (ctx.syms id) = some idx →
      idx < ctx.dylibs.length) :
    (∀ id < ctx.symbols.names.length, ∀ idx, dylibOf (ctx.syms id) = some idx →
      ∃ new d d', dylibOf ((deadStripDylibs ctx).syms id) = some new ∧
        Left ctx (standIn ctx idx) new ∧ ctx.dylibs[idx]? = some d ∧
        (deadStripDylibs ctx).dylibs[new]? = some d' ∧ d'.installName = d.installName) ∧
    (∃ order, Ordered (deadStripDylibs ctx).dylibs order) ∧
    ∀ (new : ℕ) d', (deadStripDylibs ctx).dylibs[new]? = some d' → ∃ o d, ctx.dylibs[o]? = some d ∧
      Left ctx o new ∧ d'.installName = d.installName ∧
      (d'.isWeak = true ↔ d.isWeak = true ∨ WeaklyBound ctx o) := by
  refine ⟨fun id hid idx hdylib => ?_,⟨_,after_ordered ctx⟩,fun new d' hd' => ?_⟩
  · have hidx := hfiles id hid idx hdylib
    have hused : isUsed (countSymbols ctx).used idx = true := by
      refine ((counted ctx).used idx).mpr (.inr ⟨by simpa [startUses] using hidx,_,?_,hdylib⟩)
      exact List.mem_map_of_mem (List.mem_range.mpr hid)
    obtain ⟨hlt,hkept,hname⟩ := stand_in_used hidx hused
    obtain ⟨new,hleft,hnew,d',hd',hname',-⟩ := left_get (List.getElem?_eq_getElem hlt) hkept
    have hsmall : new < noDylib := by
      rw [noDylib]
      omega
    refine ⟨new,_,d',symbol_follows hdylib hidx hleft hsmall,hleft,List.getElem?_eq_getElem hidx,hd',?_⟩
    rw [List.getElem?_eq_getElem hlt, List.getElem?_eq_getElem hidx] at hname
    exact hname'.trans (Option.some.inj hname)
  · obtain ⟨o,d,hd,hleft,hname,hweak⟩ := left_from hd'
    have ho := (List.getElem?_eq_some_iff.mp hd).1
    refine ⟨o,d,hd,hleft,hname,?_⟩
    rw [hweak, Bool.or_eq_true, loads_weakly_iff ho ((merged_used ho).mp hleft.1).2 hfiles]

/-- A library, one that stands for it, and one that nothing binds to. -/
def movedAndUnused : Context where
  deadStripDylibs := true
  dylibs := [{ path := [97], installName := [97], priority := 1 },
    { path := [98], installName := [98], priority := 2 },
    { path := [97], installName := [97], priority := 3, nameSource := .moved, isImplicit := true }]
  symbols := (SymbolTable.empty.intern [120]).intern [121]
  syms id :=
    match id with
    | 0 => { file := some (.dylib 2), isUsed := true, isWeakRef := true }
    | 1 => { file := some (.dylib 0), isUsed := true, isWeakRef := true }
    | _ => {}

theorem dead_strip_dylibs_keeps_moved :
    (∃ new d d', dylibOf ((deadStripDylibs movedAndUnused).syms 0) = some new ∧
      Left movedAndUnused (standIn movedAndUnused 2) new ∧ movedAndUnused.dylibs[2]? = some d ∧
      (deadStripDylibs movedAndUnused).dylibs[new]? = some d' ∧ d'.installName = d.installName) ∧
    (deadStripDylibs movedAndUnused).dylibs.length = 1 := by
  have hfiles : ∀ id < movedAndUnused.symbols.names.length, ∀ idx,
      dylibOf (movedAndUnused.syms id) = some idx → idx < movedAndUnused.dylibs.length := by
    intro id hid idx hdylib
    match id with
    | 0 =>
      obtain rfl := Option.some.inj hdylib
      decide
    | 1 =>
      obtain rfl := Option.some.inj hdylib
      decide
    | _+2 => cases hdylib
  refine ⟨(dead_strip_dylibs_keeps (by decide) hfiles).1 0 (by decide) 2 rfl,by decide +kernel⟩

end Pass

end MoldMacho.DeadStripDylibs
