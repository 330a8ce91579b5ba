import MoldMacho.Passes.CoalesceWeakDefs

/-!
# The replacements of coalescing

The replacements that coalescing makes close no cycle. What they replace is not
always a losing copy: a copy replaced before stands for what replaced it, whose
other symbols no one looked at, and a label at a copy's very end is not looked
at either. Where each step replaces a subsection that holds no other symbols,
every symbol stays with a definition of its own or of an alias.
-/

set_option autoImplicit false

namespace MoldMacho.CoalesceWeakDefs
open MoldMacho.InputSections (InputSection)
open MoldMacho.Definitions MoldMacho.Links MoldMacho.Macho MoldMacho.Replacements MoldMacho.Symbols

/-! ## One step -/

section Step
variable {ctx : Context} {isecs : List InputSection} {copy : Losing} {l w : ℕ}

/-- What a step makes of the subsections, where the replacements end. -/
theorem coalesce_step (hl : Ends (replacementOf isecs) copy.loser l)
    (hw : Ends (replacementOf isecs) copy.winner w) :
    ∃ fuel, ∀ more, coalesceWeakDef (fuel+more) isecs copy =
      some (if l ≠ w then replace isecs l w else isecs) := by
  obtain ⟨m,hm⟩ := hl.follow
  obtain ⟨n,hn⟩ := hw.follow
  refine ⟨m+n,fun more => ?_⟩
  have hloser : resolve isecs (m+n+more) copy.loser = some l := by
    rw [Nat.add_assoc]
    exact hm (n+more)
  have hwinner : resolve isecs (m+n+more) copy.winner = some w := by
    rw [Nat.add_comm m, Nat.add_assoc]
    exact hn (m+more)
  rw [coalesceWeakDef, hwinner, hloser, Option.bind_some, Option.map_some]
  simp only [hl.last, and_true]

theorem coalesce_weak_def_more {fuel : ℕ} {after : List InputSection}
    (h : coalesceWeakDef fuel isecs copy = some after) (more : ℕ) :
    coalesceWeakDef (fuel+more) isecs copy = some after := by
  obtain ⟨w,hw,h'⟩ := Option.bind_eq_some_iff.mp h
  obtain ⟨l,hl,rfl⟩ := Option.map_eq_some_iff.mp h'
  rw [coalesceWeakDef, resolve, follow_more hw, Option.bind_some, resolve, follow_more hl,
    Option.map_some]

/-- Where the replacements of an element end after a step. -/
theorem ends_replace {a r r' : ℕ} (hl : replacementOf isecs l = none)
    (hw : replacementOf isecs w = none) (hne : l ≠ w) (h : Ends (replacementOf isecs) a r)
    (h' : Ends (replacementOf (replace isecs l w)) a r') : r' = r ∨ r = l ∧ r' = w := by
  rw [replacement_link] at h'
  split at h'
  · have hr := ends_link hl hw hne h
    rw [h'.unique hr]
    split
    · next heq => exact .inr ⟨heq,rfl⟩
    · exact .inl rfl
  · exact .inl (h'.unique h)

theorem replace_forest (h : Forest (replacementOf isecs)) (hl : replacementOf isecs l = none)
    (hw : replacementOf isecs w = none) (hne : l ≠ w) :
    Forest (replacementOf (replace isecs l w)) := by
  rw [replacement_link]
  split
  · exact h.link hl hw hne
  · exact h

theorem replaced_stays {s : ℕ} (h : replacementOf isecs s ≠ none) :
    replacementOf (replace isecs l w) s ≠ none := by
  rw [replacement_replace]
  split
  · simp
  · exact h

/-- A losing copy: an object's weak definition of a symbol that another object has
at the same offset of its subsection. -/
structure LosingOf (ctx : Context) (copy : Losing) (obj : ObjectFile) (objIdx owner : ℕ)
    (entry : Entry) : Prop where
  listed : (obj,objIdx) ∈ ctx.objs.zipIdx
  mem : entry ∈ obj.syms
  weak : isWeakDef entry.msym = true
  id : entry.id = copy.id
  place : symbolSubsec ctx.isecs entry = some (copy.loser,copy.off)
  file : (ctx.syms copy.id).file = some (.obj owner)
  lost : owner ≠ objIdx
  winner : (ctx.syms copy.id).inputSection = some copy.winner
  value : (ctx.syms copy.id).value = copy.off

theorem losing_of (h : copy ∈ losers ctx) :
    ∃ obj i owner entry, LosingOf ctx copy obj i owner entry := by
  simp only [losers, List.mem_flatMap, Prod.exists] at h
  obtain ⟨obj,i,hobj,hmem⟩ := h
  rw [weakDefLosers] at hmem
  split at hmem
  · obtain ⟨entry,hentry,hcopy⟩ := List.mem_filterMap.mp hmem
    unfold losingCopy at hcopy
    dsimp only at hcopy
    split at hcopy
    · next owner _ _ _ hfile hsection hsubsec =>
      split at hcopy
      · next hif =>
        obtain rfl := Option.some.inj hcopy
        simp only [Bool.and_eq_true, beq_iff_eq, bne_iff_ne] at hif
        exact ⟨obj,i,owner,entry,hobj,List.mem_of_mem_drop hentry,hif.1.1.1,rfl,hsubsec,hfile,
          hif.1.1.2,hsection,hif.1.2.symm⟩
      · cases hcopy
    · cases hcopy
  · cases hmem

/-- A losing copy's symbol is where the winning copy is, at the copy's offset. -/
theorem losing_winner (h : copy ∈ losers ctx) :
    (ctx.syms copy.id).inputSection = some copy.winner ∧ (ctx.syms copy.id).value = copy.off ∧
      ∃ obj ∈ ctx.objs, ∃ entry ∈ obj.syms, entry.subsec = some copy.loser := by
  obtain ⟨obj,i,owner,entry,h⟩ := losing_of h
  obtain ⟨s,hs,hplace⟩ := Option.map_eq_some_iff.mp h.place
  obtain ⟨rfl,-⟩ := Prod.mk.inj hplace
  exact ⟨h.winner,h.value,obj,List.fst_mem_of_mem_zipIdx h.listed,entry,h.mem,hs⟩

theorem Alias.symm {id other : SymbolId} (h : Alias ctx id other) : Alias ctx other id :=
  Relation.EqvGen.symm _ _ h

theorem Alias.trans {id other third : SymbolId} (h : Alias ctx id other)
    (h' : Alias ctx other third) : Alias ctx id third :=
  Relation.EqvGen.trans _ _ _ h h'

/-- A step keeps every symbol with its definitions. -/
theorem placed_step (hp : Placed ctx isecs) (hcopy : copy ∈ losers ctx)
    (hforest : Forest (replacementOf isecs)) (hok : AliasOk ctx isecs copy)
    (hl : Ends (replacementOf isecs) copy.loser l) (hw : Ends (replacementOf isecs) copy.winner w)
    (hne : l ≠ w) : Placed ctx (replace isecs l w) := by
  intro id s r' hs hr'
  obtain ⟨r,hr⟩ := hforest s
  rcases ends_replace hl.last hw.last hne hr hr' with rfl | ⟨rfl,rfl⟩
  · exact hp id s r' hs hr
  · obtain ⟨hoff,halias⟩ := hok r r' hl hw hne id s hs hr
    obtain ⟨hwinner,hvalue,-⟩ := losing_winner hcopy
    obtain ⟨other,hother,hdef⟩ := hp copy.id copy.winner r' hwinner hw
    refine ⟨other,halias.symm.trans hother,?_⟩
    rwa [hoff, ← hvalue]

end Step

/-! ## The run -/

section Run
variable {ctx : Context} {copies : List Losing} {fuel fuel' : ℕ} {a b : List InputSection}

theorem fold_more (more : ℕ) {isecs : List InputSection}
    (h : copies.foldlM (coalesceWeakDef fuel) isecs = some a) :
    copies.foldlM (coalesceWeakDef (fuel+more)) isecs = some a := by
  induction copies generalizing isecs with
  | nil => exact h
  | cons copy copies ih =>
    rw [List.foldlM_cons] at h ⊢
    obtain ⟨mid,hmid,hrest⟩ := Option.bind_eq_some_iff.mp h
    exact Option.bind_eq_some_iff.mpr ⟨mid,coalesce_weak_def_more hmid more,ih hrest⟩

theorem coalesce_unique (h : coalesce ctx fuel copies = some a)
    (h' : coalesce ctx fuel' copies = some b) : a = b := by
  have ha := fold_more fuel' h
  have hb := fold_more fuel h'
  rw [Nat.add_comm, ha] at hb
  exact Option.some.inj hb

theorem coalesce_concat (copy : Losing) :
    coalesce ctx fuel (copies ++ [copy]) =
      (coalesce ctx fuel copies).bind fun isecs => coalesceWeakDef fuel isecs copy := by
  rw [coalesce, List.foldlM_append]
  refine congrArg (Option.bind _) (funext fun isecs => ?_)
  rw [List.foldlM_cons]
  exact Option.bind_fun_some _

/-- The steps of a run with one more copy. -/
theorem steps_concat {ok : List InputSection → Losing → Prop} {copy : Losing}
    (h : coalesce ctx fuel copies = some a) :
    Steps ctx ok (copies ++ [copy]) ↔ Steps ctx ok copies ∧ ok a copy := by
  constructor
  · intro hsteps
    refine ⟨fun before c rest heq => hsteps before c (rest ++ [copy]) (by simp [heq]),?_⟩
    exact hsteps copies copy [] rfl fuel a h
  · rintro ⟨hsteps,hok⟩ before c rest heq fuel' isecs hrun
    rcases List.eq_nil_or_concat rest with rfl | ⟨rest',last,rfl⟩
    · obtain ⟨rfl,hlast⟩ := List.append_inj' heq rfl
      obtain rfl := (List.cons.inj hlast).1
      rwa [coalesce_unique hrun h]
    · have heq' : copies ++ [copy] = (before ++ c::rest') ++ [last] := by simp [heq]
      obtain ⟨rfl,-⟩ := List.append_inj' heq' rfl
      exact hsteps before c rest' rfl fuel' isecs hrun

/-- What holds after some of the replacements. -/
structure Coalesced (ctx : Context) (copies : List Losing) (isecs : List InputSection) : Prop where
  forest : Forest (replacementOf isecs)
  length : isecs.length = ctx.isecs.length
  links : ∀ i j, replacementOf isecs i = some j → j < ctx.isecs.length
  placed : Steps ctx (AliasOk ctx) copies → Placed ctx isecs
  strong : StrongKept ctx isecs ↔ Steps ctx (StrongOk ctx) copies

theorem ends_in_range {isecs : List InputSection} {n s r : ℕ}
    (hlinks : ∀ i j, replacementOf isecs i = some j → j < n) (hs : s < n)
    (h : Ends (replacementOf isecs) s r) : r < n := by
  induction h with
  | done _ => exact hs
  | step h _ ih => exact ih (hlinks _ _ h)

theorem coalesced_start (hresolved : Resolved ctx) : Coalesced ctx [] ctx.isecs where
  forest := hresolved.forest
  length := rfl
  links := hresolved.links
  placed := by
    intro _ id s r hs hr
    have hroot := (hresolved.places id s hs).2
    obtain rfl := hr.unique (.done hroot)
    exact ⟨id,Relation.EqvGen.refl _,.inr ⟨hs,rfl⟩⟩
  strong := by
    constructor
    · intro _ before copy rest heq
      simp at heq
    · intro _ id s hs _ hne
      exact absurd (hresolved.places id s hs).2 hne

/-- A step that replaces something. -/
theorem strong_step {isecs : List InputSection} {copy : Losing} {l w : ℕ}
    (hl : Ends (replacementOf isecs) copy.loser l) (hw : Ends (replacementOf isecs) copy.winner w)
    (hne : l ≠ w) (hlt : l < isecs.length) :
    StrongKept ctx (replace isecs l w) ↔ StrongKept ctx isecs ∧ StrongOk ctx isecs copy := by
  constructor
  · intro h
    refine ⟨fun id s hs hweak hrepl => h id s hs hweak (replaced_stays hrepl),?_⟩
    intro l' w' hl' hw' _ id s hs hends hweak
    obtain rfl := hl.unique hl'
    refine h id s hs hweak ?_
    cases hends with
    | done _ =>
      rw [replacement_replace, if_pos ⟨rfl,hlt⟩]
      simp
    | step hstep _ =>
      refine replaced_stays ?_
      rw [hstep]
      simp
  · rintro ⟨hkept,hok⟩ id s hs hweak hrepl
    rw [replacement_replace] at hrepl
    split at hrepl
    · next h =>
      obtain ⟨rfl,-⟩ := h
      exact hok l w hl hw hne id l hs (.done hl.last) hweak
    · exact hkept id s hs hweak hrepl

theorem coalesced_step (hresolved : Resolved ctx) {isecs : List InputSection} {copy : Losing}
    (h : Coalesced ctx copies isecs) (hrun : coalesce ctx fuel copies = some isecs)
    (hcopy : copy ∈ losers ctx) :
    ∃ fuel after, (∀ more, coalesceWeakDef (fuel+more) isecs copy = some after) ∧
      Coalesced ctx (copies ++ [copy]) after := by
  obtain ⟨l,hl⟩ := h.forest copy.loser
  obtain ⟨w,hw⟩ := h.forest copy.winner
  obtain ⟨hplace,-,obj,hobj,entry,hentry,hsubsec⟩ := losing_winner hcopy
  have hloser := ends_in_range h.links (hresolved.entries obj hobj entry hentry _ hsubsec) hl
  have hwinner := ends_in_range h.links (hresolved.places _ _ hplace).1 hw
  obtain ⟨fuel',hstep⟩ := coalesce_step hl hw
  refine ⟨fuel',_,hstep,?_⟩
  by_cases hne : l ≠ w
  · rw [if_pos hne]
    refine ⟨replace_forest h.forest hl.last hw.last hne,?_,fun i j hij => ?_,fun hsteps => ?_,?_⟩
    · rw [replace_length, h.length]
    · rw [replacement_replace] at hij
      split at hij
      · rwa [← Option.some.inj hij]
      · exact h.links i j hij
    · obtain ⟨hbefore,hok⟩ := (steps_concat hrun).mp hsteps
      exact placed_step (h.placed hbefore) hcopy h.forest hok hl hw hne
    · rw [strong_step hl hw hne (h.length ▸ hloser), h.strong, steps_concat hrun]
  · rw [if_neg hne]
    have hskip {l' w' : ℕ} (hl' : Ends (replacementOf isecs) copy.loser l')
        (hw' : Ends (replacementOf isecs) copy.winner w') : ¬ l' ≠ w' := by
      rwa [← hl.unique hl', ← hw.unique hw']
    refine ⟨h.forest,h.length,h.links,fun hsteps => h.placed ((steps_concat hrun).mp hsteps).1,?_⟩
    rw [h.strong, steps_concat hrun, iff_self_and]
    intro _ l' w' hl' hw' hne'
    exact absurd hne' (hskip hl' hw')

theorem coalesce_run (hresolved : Resolved ctx) (hcopies : ∀ copy ∈ copies, copy ∈ losers ctx) :
    ∃ fuel after, (∀ more, coalesce ctx (fuel+more) copies = some after) ∧
      Coalesced ctx copies after := by
  induction copies using List.reverseRecOn with
  | nil => exact ⟨0,ctx.isecs,fun _ => rfl,coalesced_start hresolved⟩
  | append_singleton copies copy ih =>
    obtain ⟨m,mid,hmid,hcoalesced⟩ := ih fun c hc => hcopies c (List.mem_append_left _ hc)
    obtain ⟨n,after,hafter,hnext⟩ := coalesced_step hresolved hcoalesced (hmid 0)
      (hcopies copy (List.mem_append_right _ (List.mem_singleton.mpr rfl)))
    refine ⟨m+n,after,fun more => ?_,hnext⟩
    rw [coalesce_concat, Nat.add_assoc, hmid, Option.bind_some, ← Nat.add_assoc, Nat.add_comm m,
      Nat.add_assoc]
    exact hafter (m+more)

end Run

/-! ## Copies apart -/

/-- The losing copies before the pass: a subsection with one loses to one other,
which has none, and holds no symbol but the copy's and its aliases. -/
structure CopiesApart (ctx : Context) : Prop where
  one : ∀ a ∈ losers ctx, ∀ b ∈ losers ctx, a.loser = b.loser → a.winner = b.winner
  kept : ∀ a ∈ losers ctx, ∀ b ∈ losers ctx, a.winner ≠ b.loser
  unreplaced : ∀ copy ∈ losers ctx, replacementOf ctx.isecs copy.loser = none
  alone : ∀ copy ∈ losers ctx, ∀ id, (ctx.syms id).inputSection = some copy.loser →
    (ctx.syms id).value = copy.off ∧ Alias ctx copy.id id

/-- The subsections once some of the copies are replaced. -/
structure Replaced (ctx : Context) (copies : List Losing) (isecs : List InputSection) : Prop where
  length : isecs.length = ctx.isecs.length
  links : ∀ i j, replacementOf isecs i = some j → replacementOf ctx.isecs i = some j ∨
    ∃ copy ∈ copies, copy.loser = i ∧ copy.winner = j
  replaced : ∀ copy ∈ copies, replacementOf isecs copy.loser = some copy.winner

section Apart
variable {ctx : Context} {copies : List Losing} {copy : Losing} {isecs after : List InputSection}
  {fuel : ℕ}

theorem Replaced.root (h : Replaced ctx copies isecs) {i : ℕ}
    (hi : replacementOf ctx.isecs i = none) (hne : ∀ copy ∈ copies, copy.loser ≠ i) :
    replacementOf isecs i = none := by
  cases hlink : replacementOf isecs i with
  | none => rfl
  | some j =>
    rcases h.links i j hlink with hold | ⟨c,hc,heq,-⟩
    · rw [hi] at hold
      cases hold
    · exact absurd heq (hne c hc)

/-- A winning copy's subsection is not replaced. -/
theorem Replaced.winner (h : Replaced ctx copies isecs) (hresolved : Resolved ctx)
    (hapart : CopiesApart ctx) (hcopies : ∀ c ∈ copies, c ∈ losers ctx) (hcopy : copy ∈ losers ctx) :
    replacementOf isecs copy.winner = none :=
  h.root (hresolved.places _ _ (losing_winner hcopy).1).2 fun c hc heq =>
    hapart.kept copy hcopy c (hcopies c hc) heq.symm

/-- A losing one's is by the winning one's, or not yet. -/
theorem Replaced.loser (h : Replaced ctx copies isecs) (hapart : CopiesApart ctx)
    (hcopies : ∀ c ∈ copies, c ∈ losers ctx) (hcopy : copy ∈ losers ctx) :
    replacementOf isecs copy.loser = some copy.winner ∨ replacementOf isecs copy.loser = none := by
  by_cases hdone : ∃ c ∈ copies, c.loser = copy.loser
  · obtain ⟨c,hc,heq⟩ := hdone
    left
    rw [← heq, h.replaced c hc, hapart.one c (hcopies c hc) copy hcopy heq]
  · exact Or.inr (h.root (hapart.unreplaced copy hcopy) fun c hc heq => hdone ⟨c,hc,heq⟩)

theorem replaced_step (hresolved : Resolved ctx) (hapart : CopiesApart ctx)
    (h : Replaced ctx copies isecs) (hcopies : ∀ c ∈ copies, c ∈ losers ctx)
    (hcopy : copy ∈ losers ctx) (hstep : coalesceWeakDef fuel isecs copy = some after) :
    Replaced ctx (copies ++ [copy]) after := by
  obtain ⟨w,hw,h'⟩ := Option.bind_eq_some_iff.mp hstep
  obtain ⟨l,hl,rfl⟩ := Option.map_eq_some_iff.mp h'
  have hwinner := h.winner hresolved hapart hcopies hcopy
  obtain rfl := (follow_ends hw).unique (.done hwinner)
  rcases h.loser hapart hcopies hcopy with hloser | hloser
  · obtain rfl := (follow_ends hl).unique (.step hloser (.done hwinner))
    rw [if_neg fun hif => hif.1 rfl]
    refine ⟨h.length,fun i j hij => ?_,?_⟩
    · exact (h.links i j hij).imp_right fun ⟨c,hc,heq⟩ => ⟨c,List.mem_append_left _ hc,heq⟩
    · rw [List.forall_mem_append, List.forall_mem_singleton]
      exact ⟨h.replaced,hloser⟩
  · obtain rfl := (follow_ends hl).unique (.done hloser)
    rw [if_pos ⟨(hapart.kept copy hcopy copy hcopy).symm,hloser⟩]
    obtain ⟨-,-,obj,hobj,entry,hentry,hsubsec⟩ := losing_winner hcopy
    have hlt : copy.loser < isecs.length :=
      h.length ▸ hresolved.entries obj hobj entry hentry _ hsubsec
    refine ⟨(replace_length _ _ _).trans h.length,fun i j hij => ?_,?_⟩
    · rw [replacement_replace] at hij
      split at hij
      · next heq =>
        exact Or.inr ⟨copy,by simp,heq.1,Option.some.inj hij⟩
      · exact (h.links i j hij).imp_right fun ⟨c,hc,heq⟩ => ⟨c,List.mem_append_left _ hc,heq⟩
    · rw [List.forall_mem_append, List.forall_mem_singleton]
      refine ⟨fun c hc => ?_,?_⟩
      · have hne : copy.loser ≠ c.loser := by
          intro heq
          have hreplaced := h.replaced c hc
          rw [← heq, hloser] at hreplaced
          cases hreplaced
        rw [replacement_replace, if_neg fun hif => hne hif.1]
        exact h.replaced c hc
      · rw [replacement_replace, if_pos ⟨rfl,hlt⟩]

theorem replaced_run (hresolved : Resolved ctx) (hapart : CopiesApart ctx)
    (hcopies : ∀ c ∈ copies, c ∈ losers ctx) (hrun : coalesce ctx fuel copies = some isecs) :
    Replaced ctx copies isecs := by
  induction copies using List.reverseRecOn generalizing isecs with
  | nil =>
    obtain rfl := Option.some.inj hrun
    exact ⟨rfl,fun _ _ => Or.inl,by simp⟩
  | append_singleton copies copy ih =>
    rw [coalesce_concat] at hrun
    obtain ⟨mid,hmid,hstep⟩ := Option.bind_eq_some_iff.mp hrun
    have hbefore : ∀ c ∈ copies, c ∈ losers ctx := fun c hc =>
      hcopies c (List.mem_append_left _ hc)
    exact replaced_step hresolved hapart (ih hbefore hmid) hbefore (hcopies copy (by simp)) hstep

/-- A step replaces a copy's own subsection, and nothing was replaced by it. -/
theorem replaced_loser (hresolved : Resolved ctx) (hapart : CopiesApart ctx)
    (h : Replaced ctx copies isecs) (hcopies : ∀ c ∈ copies, c ∈ losers ctx)
    (hcopy : copy ∈ losers ctx) {l w : ℕ} (hl : Ends (replacementOf isecs) copy.loser l)
    (hw : Ends (replacementOf isecs) copy.winner w) (hne : l ≠ w) {id : SymbolId} {s : ℕ}
    (hs : (ctx.syms id).inputSection = some s) (hends : Ends (replacementOf isecs) s l) :
    s = copy.loser := by
  have hwinner := h.winner hresolved hapart hcopies hcopy
  obtain rfl := hw.unique (.done hwinner)
  obtain rfl : l = copy.loser := by
    rcases h.loser hapart hcopies hcopy with hloser | hloser
    · exact absurd (hl.unique (.step hloser (.done hwinner))) hne
    · exact hl.unique (.done hloser)
  cases hends with
  | done _ => rfl
  | step hlink hrest =>
    rcases h.links _ _ hlink with hold | ⟨c,hc,-,rfl⟩
    · rw [(hresolved.places id s hs).2] at hold
      cases hold
    · have hroot := h.winner hresolved hapart hcopies (hcopies c hc)
      exact absurd (hrest.unique (.done hroot)).symm (hapart.kept c (hcopies c hc) copy hcopy)

/-- A losing copy is where a weak definition lost. -/
theorem losing_at (hcopy : copy ∈ losers ctx) : losingAt ctx copy.loser copy.off = true := by
  obtain ⟨obj,i,owner,entry,h⟩ := losing_of hcopy
  refine List.any_eq_true.2 ⟨(obj,i),h.listed,List.any_eq_true.2 ⟨entry,h.mem,?_⟩⟩
  rw [h.weak, h.place, beq_self_eq_true, h.id, h.file]
  exact bne_iff_ne.2 h.lost

/-- Of copies apart every step replaces a subsection of the copy's symbols alone. -/
theorem steps_of_apart (hresolved : Resolved ctx) (hapart : CopiesApart ctx) :
    Steps ctx (AliasOk ctx) (losers ctx) ∧ Steps ctx (StrongOk ctx) (losers ctx) := by
  have hstep : ∀ before copy rest, losers ctx = before ++ copy::rest →
      ∀ fuel isecs, coalesce ctx fuel before = some isecs → ∀ l w,
        Ends (replacementOf isecs) copy.loser l → Ends (replacementOf isecs) copy.winner w →
        l ≠ w → ∀ id s, (ctx.syms id).inputSection = some s → Ends (replacementOf isecs) s l →
        copy ∈ losers ctx ∧ s = copy.loser := by
    intro before copy rest heq fuel isecs hrun l w hl hw hne id s hs hends
    have hcopy : copy ∈ losers ctx := by simp [heq]
    have hbefore : ∀ c ∈ before, c ∈ losers ctx := fun c hc => by simp [heq, hc]
    have h := replaced_run hresolved hapart hbefore hrun
    exact ⟨hcopy,replaced_loser hresolved hapart h hbefore hcopy hl hw hne hs hends⟩
  constructor
  · intro before copy rest heq fuel isecs hrun l w hl hw hne id s hs hends
    obtain ⟨hcopy,rfl⟩ := hstep before copy rest heq fuel isecs hrun l w hl hw hne id s hs hends
    exact hapart.alone copy hcopy id hs
  · intro before copy rest heq fuel isecs hrun l w hl hw hne id s hs hends _
    obtain ⟨hcopy,rfl⟩ := hstep before copy rest heq fuel isecs hrun l w hl hw hne id s hs hends
    rw [(hapart.alone copy hcopy id hs).1]
    exact losing_at hcopy

end Apart

/-! ## The pass -/

/-- Coalescing returns, its replacements close no cycle, and the symbols are
moved where they lead. A strong definition of another address than a losing
copy's is moved if and only if some step replaces a subsection that holds one;
and where each replaces one that holds the copy's symbol and its aliases only,
every symbol stays with a definition of its own or of an alias. -/
theorem coalesce_weak_defs_kept {ctx : Context} (hresolved : Resolved ctx) :
    ∃ fuel, ∀ more, ∃ after, coalesceWeakDefs ctx (fuel+more) = some after ∧
      Forest (replacementOf after.isecs) ∧
      (∀ id < ctx.count, ∀ s r, (ctx.syms id).inputSection = some s →
        Ends (replacementOf after.isecs) s r →
        after.syms id = { ctx.syms id with inputSection := some r }) ∧
      (StrongKept ctx after.isecs ↔ Steps ctx (StrongOk ctx) (losers ctx)) ∧
      (Steps ctx (AliasOk ctx) (losers ctx) → Placed ctx after.isecs) := by
  obtain ⟨m,isecs,hrun,h⟩ := coalesce_run hresolved fun copy hcopy => hcopy
  obtain ⟨n,hredirect⟩ := redirect_returns h.forest ctx.syms ctx.count
  refine ⟨m+n,fun more => ?_⟩
  obtain ⟨syms,hsyms,hplaces⟩ := hredirect (m+more)
  refine ⟨{ ctx with isecs, syms },?_,h.forest,hplaces,h.strong,h.placed⟩
  have hfuel : m+n+more = n+(m+more) := by omega
  rw [coalesceWeakDefs, Nat.add_assoc, hrun, Option.bind_some, ← Nat.add_assoc, hfuel, hsyms,
    Option.map_some]

/-- An entry of a definition in a section. -/
def definition (id : SymbolId) (subsec value : ℕ) (weak : Bool) : Entry where
  msym := { type := nSect ||| nExt, sect := 1, desc := if weak then nWeakDef else 0, value }
  id
  subsec := some subsec

/-- Two objects that define a weak symbol, the second with an alias of it. -/
def twoCopies : Context where
  objs := [{ priority := 1, isReachable := true, syms := [definition 0 0 0 true] },
    { priority := 2, isReachable := true
      syms := [definition 0 1 0 true,definition 1 1 0 true] }]
  isecs := [{ file := 0, size := 16 },{ file := 1, size := 16 }]
  count := 2
  syms id :=
    match id with
    | 0 => { file := some (.obj 0), inputSection := some 0, isWeakDef := true }
    | 1 => { file := some (.obj 1), inputSection := some 1, isWeakDef := true }
    | _ => {}

theorem two_copies_apart : CopiesApart twoCopies := by
  have hlosers : losers twoCopies = [{ id := 0, off := 0, loser := 1, winner := 0 }] := by
    decide +kernel
  constructor
  · rw [hlosers]
    decide
  · rw [hlosers]
    decide
  · rw [hlosers]
    decide
  · rw [hlosers, List.forall_mem_singleton]
    intro id hs
    match id with
    | 0 => cases hs
    | 1 =>
      exact ⟨rfl,.rel _ _ ⟨_,List.mem_cons_of_mem _ List.mem_cons_self,_,List.mem_cons_self,_,
        List.mem_cons_of_mem _ List.mem_cons_self,rfl,rfl,rfl,rfl⟩⟩
    | _+2 => cases hs

theorem coalesce_weak_defs_kept_two :
    ∃ fuel, ∀ more, ∃ after, coalesceWeakDefs twoCopies (fuel+more) = some after ∧
      Forest (replacementOf after.isecs) ∧ StrongKept twoCopies after.isecs ∧
      Placed twoCopies after.isecs := by
  have hnone (i : ℕ) : replacementOf twoCopies.isecs i = none := by
    match i with
    | 0 => rfl
    | 1 => rfl
    | _+2 => rfl
  have hresolved : Resolved twoCopies := by
    refine ⟨fun a => ⟨a,.done (hnone a)⟩,fun i j hij => ?_,by decide,fun id s hs => ?_⟩
    · rw [hnone] at hij
      cases hij
    · match id with
      | 0 =>
        obtain rfl := Option.some.inj hs
        exact ⟨by decide,hnone 0⟩
      | 1 =>
        obtain rfl := Option.some.inj hs
        exact ⟨by decide,hnone 1⟩
      | _+2 => cases hs
  obtain ⟨halias,hstrong⟩ := steps_of_apart hresolved two_copies_apart
  obtain ⟨fuel,h⟩ := coalesce_weak_defs_kept hresolved
  refine ⟨fuel,fun more => ?_⟩
  obtain ⟨after,hafter,hforest,-,hkept,hplaced⟩ := h more
  exact ⟨after,hafter,hforest,hkept.2 hstrong,hplaced halias⟩

/-- The first object, not cut at its symbols, defines a weak symbol and after it
a strong one; the second another weak one; the third both as aliases. -/
def chainedAliases : Context where
  objs := [⟨1,true,false,[definition 0 0 0 true,definition 2 0 16 false],none⟩,
    ⟨2,true,false,[definition 1 1 0 true],none⟩,
    ⟨3,true,false,[definition 0 2 0 true,definition 1 2 0 true],none⟩]
  isecs := [{ file := 0, size := 32 },{ file := 1, size := 16 },{ file := 2, size := 16 }]
  count := 3
  syms id :=
    match id with
    | 0 => { file := some (.obj 0), inputSection := some 0, isWeakDef := true }
    | 1 => { file := some (.obj 1), inputSection := some 1, isWeakDef := true }
    | 2 => { file := some (.obj 0), inputSection := some 0, value := 16 }
    | _ => {}

/-- The third object's copy is replaced by the first's, which is replaced in turn
for the alias's sake: the strong symbol past it ends up at the end of the second
object's subsection, where nothing is defined. -/
theorem strong_symbol_moved :
    (coalesceWeakDefs chainedAliases 3).map (fun after =>
        ((after.syms 2).inputSection,(after.syms 2).value,replacementOf after.isecs 0)) =
      some (some 1,16,some 1) ∧
    (chainedAliases.syms 2).isWeakDef = false ∧ losingAt chainedAliases 0 16 = false ∧
    ¬ DefinedAt chainedAliases 0 1 16 ∧ ¬ DefinedAt chainedAliases 1 1 16 ∧
      ¬ DefinedAt chainedAliases 2 1 16 := by
  refine ⟨by decide +kernel,rfl,by decide,?_,?_,?_⟩
  · rintro (h | h)
    · revert h
      decide
    · revert h
      decide
  · rintro (h | h)
    · revert h
      decide
    · revert h
      decide
  · rintro (h | h)
    · revert h
      decide
    · revert h
      decide

end MoldMacho.CoalesceWeakDefs
