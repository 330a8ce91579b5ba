import MoldMacho.Lib.Lists
import MoldMacho.Passes.AssignInputSections

/-!
# What the workers gather

The table, the caches and the jobs at any point of a run, in terms of where
each subsection goes by itself. A key holds all that decides that.
-/

set_option autoImplicit false

namespace MoldMacho.GatherSections
open MoldMacho.Lists MoldMacho.OutputSectionNames MoldMacho.AssignInputSections

def keyHdr (key : OutputSectionKey) : MachSection := ⟨key.2.1,key.1,key.2.2.1⟩

def keyMove (key : OutputSectionKey) : Option Move := key.2.2.2.map fun m => ⟨m.1,m.2⟩

@[simp] theorem key_hdr (hdr : MachSection) (mv : Option Move) :
    keyHdr (outputSectionKey hdr mv) = hdr := rfl

@[simp] theorem key_move (hdr : MachSection) (mv : Option Move) :
    keyMove (outputSectionKey hdr mv) = mv := by
  cases mv <;> rfl

section Table
variable (ctx : Context)

def keyDest (key : OutputSectionKey) : Option Destination :=
  destination ctx.args (SectionMap.new ctx.args) (keyHdr key) (keyMove key)

def goesTo (name : SectionName) (key : OutputSectionKey) : Bool :=
  (keyDest ctx key).any fun dest => dest.name = name

/-- The kinds of members that the keys bring to a section. -/
def kindsOf (keys : List OutputSectionKey) (name : SectionName) : ℕ :=
  (if keys.any fun key => goesTo ctx name key && (keyHdr key).isZerofill then 1 else 0) |||
    (if keys.any fun key => goesTo ctx name key && !(keyHdr key).isZerofill then 2 else 0)

def tlvOf (keys : List OutputSectionKey) (name : SectionName) : Bool :=
  keys.any fun key => goesTo ctx name key && isTlvData (keyHdr key)

/-- What the table has of a key is where it goes, under the section's number. -/
structure Leads (names : List SectionName) (key : OutputSectionKey)
    (found : Option (ℕ × Destination)) : Prop where
  dest : found.map Prod.snd = keyDest ctx key
  number : ∀ n d, found = some (n,d) → names[n]? = some d.name

structure TableOk (table : OutputSectionTable) : Prop where
  leads : ∀ key found, (key,found) ∈ table.byKey → Leads ctx table.byName key found
  nodup : table.byName.Nodup
  found : ∀ name ∈ table.byName, ∃ key ∈ table.byKey.map Prod.fst, goesTo ctx name key
  kinds : table.fillKinds = table.byName.map (kindsOf ctx (table.byKey.map Prod.fst))
  tlv : table.hasTlvData = table.byName.map (tlvOf ctx (table.byKey.map Prod.fst))

/-- A later state of a table: sections keep their numbers and keys what they
lead to. -/
structure Extends (table table' : OutputSectionTable) : Prop where
  names : table.byName <+: table'.byName
  keys : table.byKey ⊆ table'.byKey

theorem extends_refl (table : OutputSectionTable) : Extends table table :=
  ⟨List.prefix_refl _,List.Subset.refl _⟩

variable {ctx}

theorem prefix_some {names names' : List SectionName} (h : names <+: names') {n : ℕ}
    {name : SectionName} (hn : names[n]? = some name) : names'[n]? = some name := by
  obtain ⟨more,rfl⟩ := h
  rw [List.getElem?_append_left (List.getElem?_eq_some_iff.1 hn).1, hn]

theorem leads_extends {names names' : List SectionName} (h : names <+: names')
    {key : OutputSectionKey} {found : Option (ℕ × Destination)} (hl : Leads ctx names key found) :
    Leads ctx names' key found :=
  ⟨hl.dest,fun n d hd => prefix_some h (hl.number n d hd)⟩

theorem table_ok_empty : TableOk ctx {} where
  leads := by simp
  nodup := List.nodup_nil
  found := by simp
  kinds := rfl
  tlv := rfl

theorem goes_to_iff {name : SectionName} {key : OutputSectionKey} :
    goesTo ctx name key ↔ ∃ dest, keyDest ctx key = some dest ∧ dest.name = name := by
  simp [goesTo, Option.any_eq_true]

/-- No key goes to a section not found yet. -/
theorem not_goes_to {table : OutputSectionTable} (h : TableOk ctx table) {name : SectionName}
    (hname : name ∉ table.byName) {key : OutputSectionKey} (hkey : key ∈ table.byKey.map Prod.fst) :
    goesTo ctx name key = false := by
  obtain ⟨⟨_,found⟩,hmem,rfl⟩ := List.mem_map.1 hkey
  have hl := h.leads _ _ hmem
  rw [Bool.eq_false_iff, Ne, goes_to_iff]
  rintro ⟨dest,hdest,rfl⟩
  have hfound := hl.dest
  rw [hdest] at hfound
  obtain ⟨⟨n,_⟩,rfl,rfl⟩ := Option.map_eq_some_iff.1 hfound
  exact hname (List.mem_of_getElem? (hl.number n _ rfl))

theorem insert_name_names (table : OutputSectionTable) (name : SectionName) :
    table.byName <+: (table.insertName name).byName ∧ name ∈ (table.insertName name).byName ∧
      (table.insertName name).byKey = table.byKey ∧
      ∀ other ∈ (table.insertName name).byName, other ∈ table.byName ∨ other = name := by
  rw [OutputSectionTable.insertName]
  split
  case isTrue h => exact ⟨List.prefix_refl _,h,rfl,fun other ho => Or.inl ho⟩
  case isFalse h => exact ⟨List.prefix_append _ _,by simp,rfl,by simp⟩

theorem insert_name_kinds {table : OutputSectionTable} (h : TableOk ctx table)
    (name : SectionName) :
    (table.insertName name).byName.Nodup ∧
    (table.insertName name).fillKinds =
      (table.insertName name).byName.map (kindsOf ctx (table.byKey.map Prod.fst)) ∧
    (table.insertName name).hasTlvData =
      (table.insertName name).byName.map (tlvOf ctx (table.byKey.map Prod.fst)) := by
  rw [OutputSectionTable.insertName]
  split
  case isTrue => exact ⟨h.nodup,h.kinds,h.tlv⟩
  case isFalse hname =>
    have hkinds : kindsOf ctx (table.byKey.map Prod.fst) name = 0 := by
      have hnone : ∀ p : OutputSectionKey → Bool,
          (table.byKey.map Prod.fst).any (fun key => goesTo ctx name key && p key) = false := by
        intro p
        rw [List.any_eq_false]
        intro key hkey
        simp [not_goes_to h hname hkey]
      rw [kindsOf, hnone, hnone]
      rfl
    have htlv : tlvOf ctx (table.byKey.map Prod.fst) name = false := by
      rw [tlvOf, List.any_eq_false]
      intro key hkey
      simp [not_goes_to h hname hkey]
    refine ⟨?_,?_,?_⟩
    · exact List.Nodup.append h.nodup (List.nodup_singleton name) (by simpa using hname)
    · simp only [List.map_append, List.map_cons, List.map_nil, ← h.kinds, hkinds]
    · simp only [List.map_append, List.map_cons, List.map_nil, ← h.tlv, htlv]

theorem kinds_of_append (keys : List OutputSectionKey) (key : OutputSectionKey)
    (name : SectionName) :
    kindsOf ctx (keys ++ [key]) name =
      if goesTo ctx name key then kindsOf ctx keys name ||| fillKind (keyHdr key)
      else kindsOf ctx keys name := by
  simp only [kindsOf, fillKind, List.any_append, List.any_cons, List.any_nil, Bool.or_false]
  cases goesTo ctx name key
  · simp only [Bool.false_and, Bool.or_false, Bool.false_eq_true, if_false]
  · simp only [Bool.true_and, if_true]
    cases (keyHdr key).isZerofill
    all_goals
      cases keys.any fun key => goesTo ctx name key && (keyHdr key).isZerofill <;>
        cases keys.any fun key => goesTo ctx name key && !(keyHdr key).isZerofill <;> rfl

theorem tlv_of_append (keys : List OutputSectionKey) (key : OutputSectionKey)
    (name : SectionName) :
    tlvOf ctx (keys ++ [key]) name =
      if goesTo ctx name key then tlvOf ctx keys name || isTlvData (keyHdr key)
      else tlvOf ctx keys name := by
  simp only [tlvOf, List.any_append, List.any_cons, List.any_nil, Bool.or_false]
  cases goesTo ctx name key <;> simp

theorem goes_to_dest {hdr : MachSection} {mv : Option Move} {dest : Destination}
    (h : destination ctx.args (SectionMap.new ctx.args) hdr mv = some dest) (name : SectionName) :
    goesTo ctx name (outputSectionKey hdr mv) = decide (dest.name = name) := by
  rw [goesTo, keyDest, key_hdr, key_move, h, Option.any_some]

theorem not_goes_to_none {hdr : MachSection} {mv : Option Move}
    (h : destination ctx.args (SectionMap.new ctx.args) hdr mv = none) (name : SectionName) :
    goesTo ctx name (outputSectionKey hdr mv) = false := by
  rw [goesTo, keyDest, key_hdr, key_move, h, Option.any_none]

/-- A lookup in the table, of a key it has or has not. -/
theorem get_ok {table : OutputSectionTable} (h : TableOk ctx table) (hdr : MachSection)
    (mv : Option Move) :
    let found := table.get ctx.args (SectionMap.new ctx.args) hdr mv (outputSectionKey hdr mv)
    TableOk ctx found.2 ∧ Extends table found.2 ∧
      (outputSectionKey hdr mv,found.1) ∈ found.2.byKey ∧
      ∀ entry ∈ found.2.byKey, entry ∈ table.byKey ∨ entry.1 = outputSectionKey hdr mv := by
  simp only [OutputSectionTable.get]
  cases hlook : table.byKey.lookup (outputSectionKey hdr mv) with
  | some found =>
    obtain ⟨l,l',hkeys,_⟩ := List.lookup_eq_some_iff.1 hlook
    refine ⟨h,extends_refl table,?_,fun entry he => Or.inl he⟩
    rw [hkeys]
    simp
  | none =>
    cases hdest : destination ctx.args (SectionMap.new ctx.args) hdr mv with
    | none =>
      refine ⟨⟨?_,h.nodup,?_,?_,?_⟩,⟨List.prefix_refl _,List.subset_append_left _ _⟩,by simp,?_⟩
      · intro key found hmem
        rcases List.mem_append.1 hmem with hmem | hmem
        · exact h.leads key found hmem
        · obtain ⟨rfl,rfl⟩ := Prod.mk.inj (List.mem_singleton.1 hmem)
          exact ⟨by rw [keyDest, key_hdr, key_move, hdest]; rfl,by simp⟩
      · intro name hname
        obtain ⟨key,hkey,hgoes⟩ := h.found name hname
        exact ⟨key,by rw [List.map_append]; exact List.mem_append_left _ hkey,hgoes⟩
      · rw [h.kinds]
        apply List.map_congr_left
        intro name _
        rw [List.map_append, List.map_cons, List.map_nil, kinds_of_append,
          if_neg (by rw [not_goes_to_none hdest]; exact Bool.false_ne_true)]
      · rw [h.tlv]
        apply List.map_congr_left
        intro name _
        rw [List.map_append, List.map_cons, List.map_nil, tlv_of_append,
          if_neg (by rw [not_goes_to_none hdest]; exact Bool.false_ne_true)]
      · intro entry he
        rcases List.mem_append.1 he with he | he
        · exact Or.inl he
        · exact Or.inr (by rw [List.mem_singleton.1 he])
    | some dest =>
      obtain ⟨hnames,hin,hkeys,hold⟩ := insert_name_names table dest.name
      obtain ⟨hnodup,hkinds,htlv⟩ := insert_name_kinds h dest.name
      have hnumber : (table.insertName dest.name).byName[
          (table.insertName dest.name).byName.idxOf dest.name]? = some dest.name :=
        List.getElem?_idxOf hin
      dsimp only
      refine ⟨⟨?_,hnodup,?_,?_,?_⟩,⟨hnames,?_⟩,by simp,?_⟩
      · intro key found hmem
        rcases List.mem_append.1 hmem with hmem | hmem
        · exact leads_extends hnames (h.leads key found (hkeys ▸ hmem))
        · obtain ⟨rfl,rfl⟩ := Prod.mk.inj (List.mem_singleton.1 hmem)
          refine ⟨by rw [keyDest, key_hdr, key_move, hdest]; rfl,?_⟩
          rintro n d hd
          obtain ⟨rfl,rfl⟩ := Prod.mk.inj (Option.some.inj hd)
          exact hnumber
      · intro name hname
        rw [List.map_append, hkeys]
        rcases hold name hname with hname | rfl
        · obtain ⟨key,hkey,hgoes⟩ := h.found name hname
          exact ⟨key,List.mem_append_left _ hkey,hgoes⟩
        · refine ⟨outputSectionKey hdr mv,by simp,?_⟩
          rw [goes_to_dest hdest, decide_eq_true_eq]
      · rw [hkinds, hkeys]
        dsimp only
        refine map_modify_idxOf hnodup ?_ ?_
        · intro name hne
          rw [List.map_append, List.map_cons, List.map_nil, kinds_of_append,
            if_neg (by rw [goes_to_dest hdest, decide_eq_true_eq]; exact Ne.symm hne)]
        · rw [List.map_append, List.map_cons, List.map_nil, kinds_of_append,
            if_pos (by rw [goes_to_dest hdest, decide_eq_true_eq]), key_hdr]
      · rw [htlv, hkeys]
        dsimp only
        refine map_modify_idxOf hnodup ?_ ?_
        · intro name hne
          rw [List.map_append, List.map_cons, List.map_nil, tlv_of_append,
            if_neg (by rw [goes_to_dest hdest, decide_eq_true_eq]; exact Ne.symm hne)]
        · rw [List.map_append, List.map_cons, List.map_nil, tlv_of_append,
            if_pos (by rw [goes_to_dest hdest, decide_eq_true_eq]), key_hdr]
      · rw [hkeys]
        exact List.subset_append_left _ _
      · intro entry he
        rcases List.mem_append.1 he with he | he
        · exact Or.inl (hkeys ▸ he)
        · exact Or.inr (by rw [List.mem_singleton.1 he])

/-- The workers' caches hold entries of the table. -/
def CacheOk (table : OutputSectionTable) (cache : WorkerCache) : Prop :=
  cache.sections ⊆ table.byKey

/-- A lookup through a worker's cache. -/
theorem lookup_ok {table : OutputSectionTable} (h : TableOk ctx table) {cache : WorkerCache}
    (hc : CacheOk table cache) (hdr : MachSection) (mv : Option Move) :
    let found := lookup ctx hdr mv cache table
    TableOk ctx found.2.2 ∧ Extends table found.2.2 ∧ CacheOk found.2.2 found.2.1 ∧
      found.2.1.groups = cache.groups ∧ (outputSectionKey hdr mv,found.1) ∈ found.2.2.byKey ∧
      ∀ entry ∈ found.2.2.byKey, entry ∈ table.byKey ∨ entry.1 = outputSectionKey hdr mv := by
  simp only [lookup]
  cases hlook : cache.sections.lookup (outputSectionKey hdr mv) with
  | some found =>
    obtain ⟨l,l',hkeys,_⟩ := List.lookup_eq_some_iff.1 hlook
    refine ⟨h,extends_refl table,hc,rfl,hc ?_,fun entry he => Or.inl he⟩
    rw [hkeys]
    simp
  | none =>
    obtain ⟨hok,hext,hmem,hnew⟩ := get_ok h hdr mv
    refine ⟨hok,hext,?_,rfl,hmem,hnew⟩
    apply List.append_subset.2
    exact ⟨List.Subset.trans hc hext.keys,by simpa using hmem⟩

end Table

/-! ## One block -/

section Block
variable (ctx : Context) (moves : ℕ → Option Move)

def placeable (isec : InputSection) : Bool := isec.isEmitted && !isec.isPlaced

def keyOf (x : ℕ × InputSection) : OutputSectionKey := outputSectionKey (ctx.hdr x.2) (moves x.1)

def destOf (x : ℕ × InputSection) : Option Destination :=
  destination ctx.args (SectionMap.new ctx.args) (ctx.hdr x.2) (moves x.1)

/-- Where a subsection goes, if it is to be placed. -/
def sent (x : ℕ × InputSection) : Option Destination :=
  if placeable x.2 then destOf ctx moves x else none

/-- A subsection once gone through: dead if the link consumes it. -/
def visited (x : ℕ × InputSection) : InputSection :=
  if placeable x.2 && (destOf ctx moves x).isNone then x.2.kill else x.2

/-- Those of a list that go to a section. -/
def going (name : SectionName) (l : List (ℕ × InputSection)) :
    List ((ℕ × InputSection) × Destination) :=
  l.filterMap fun x => (sent ctx moves x).bind fun d => if d.name = name then some (x,d) else none

def gathered : List ((ℕ × InputSection) × Destination) → Option OutputSectionFileMembers
  | [] => none
  | (x,d)::rest => some
    { members := ((x,d)::rest).map fun y => y.1.1
      p2align := (((x,d)::rest).map fun y => y.1.2.p2align).foldl max 0
      dest := d }

structure Grouped (table : OutputSectionTable) (done : List (ℕ × InputSection)) (groups : Groups) :
    Prop where
  made : ∀ n group, (n,group) ∈ groups → ∃ name, table.byName[n]? = some name ∧
    gathered (going ctx moves name done) = some group
  asked : ∀ x ∈ done, placeable x.2 → ∃ found, (keyOf ctx moves x,found) ∈ table.byKey
  all : ∀ x ∈ done, ∀ d, sent ctx moves x = some d →
    ∃ n group, (n,group) ∈ groups ∧ table.byName[n]? = some d.name

/-- What the cache has of the block are its groups. -/
def Indexed (cache : WorkerCache) (b : ℕ) (numbers : List ℕ) : Prop :=
  ∀ n g, cache.groups n = some (b,g) ↔ numbers[g]? = some n

def LastOk (table : OutputSectionTable) (job : Job) : Prop :=
  ∀ sec group, job.last = some (sec,group) →
    ∃ found, (outputSectionKey (ctx.sectHdrs sec.1 sec.2) none,found) ∈ table.byKey ∧
      match group with
      | none => found = none
      | some g => ∃ n d, found = some (n,d) ∧ (job.groups.map Prod.fst)[g]? = some n

structure JobOk (table : OutputSectionTable) (cache : WorkerCache) (job : Job)
    (done : List (ℕ × InputSection)) : Prop where
  items : blockItems ctx job.block = done ++ job.left
  isecs : job.isecs = done.map (visited ctx moves)
  grouped : Grouped ctx moves table done job.groups
  indexed : Indexed cache job.block (job.groups.map Prod.fst)
  last : LastOk ctx table job

/-- What a search for a subsection's group leaves: the job but for its groups
and shortcut, and where the subsection goes. -/
structure Found (x : ℕ × InputSection) (table : OutputSectionTable) (cache : WorkerCache)
    (job : Job) (group : Option ℕ) (job' : Job) (cache' : WorkerCache)
    (table' : OutputSectionTable) : Prop where
  tableOk : TableOk ctx table'
  grows : Extends table table'
  cacheOk : CacheOk table' cache'
  fresh : ∀ entry ∈ table'.byKey, entry ∈ table.byKey ∨ entry.1 = keyOf ctx moves x
  stale : ∀ n b g, cache'.groups n = some (b,g) → b = job.block ∨ cache.groups n = some (b,g)
  rest : job'.block = job.block ∧ job'.left = job.left ∧ job'.isecs = job.isecs
  indexed : Indexed cache' job.block (job'.groups.map Prod.fst)
  last : LastOk ctx table' job'
  leads : ∃ found, (keyOf ctx moves x,found) ∈ table'.byKey ∧
    match group with
    | none => found = none ∧ job'.groups = job.groups
    | some g => ∃ n d, found = some (n,d) ∧ (job'.groups.map Prod.fst)[g]? = some n ∧
      (job'.groups = job.groups ∨
        n ∉ job.groups.map Prod.fst ∧ job'.groups = job.groups ++ [(n,{ dest := d })])

variable {ctx moves}

theorem group_ok {cache : WorkerCache} {b : ℕ} {groups : Groups}
    (h : Indexed cache b (groups.map Prod.fst)) (n : ℕ) (dest : Destination) :
    let found := cache.group groups b n dest
    Indexed found.2.1 b (found.2.2.map Prod.fst) ∧
      (found.2.2.map Prod.fst)[found.1]? = some n ∧ found.2.1.sections = cache.sections ∧
      (∀ n' b' g, found.2.1.groups n' = some (b',g) → b' = b ∨ cache.groups n' = some (b',g)) ∧
      (found.2.2 = groups ∨
        n ∉ groups.map Prod.fst ∧ found.2.2 = groups ++ [(n,{ dest := dest })]) := by
  have hnew : (∀ g, cache.groups n ≠ some (b,g)) →
      let found := cache.newGroup groups b n dest
      Indexed found.2.1 b (found.2.2.map Prod.fst) ∧
        (found.2.2.map Prod.fst)[found.1]? = some n ∧ found.2.1.sections = cache.sections ∧
        (∀ n' b' g, found.2.1.groups n' = some (b',g) → b' = b ∨ cache.groups n' = some (b',g)) ∧
        (found.2.2 = groups ∨
          n ∉ groups.map Prod.fst ∧ found.2.2 = groups ++ [(n,{ dest := dest })]) := by
    intro hnone
    have hout : n ∉ groups.map Prod.fst := by
      intro hin
      obtain ⟨g,hg⟩ := List.mem_iff_getElem?.1 hin
      exact hnone g ((h n g).2 hg)
    refine ⟨?_,by simp [WorkerCache.newGroup],rfl,?_,Or.inr ⟨hout,rfl⟩⟩
    · intro n' g
      simp only [WorkerCache.newGroup, List.map_append, List.map_cons, List.map_nil]
      by_cases hn : n' = n
      · subst hn
        rw [Function.update_self]
        constructor
        · intro he
          obtain ⟨_,rfl⟩ := Prod.mk.inj (Option.some.inj he)
          simp
        · intro he
          rw [List.getElem?_append] at he
          split at he
          case isTrue => exact absurd (List.mem_of_getElem? he) hout
          case isFalse hlt =>
            rw [List.getElem?_singleton] at he
            split at he
            case isTrue hz =>
              rw [List.length_map] at hlt hz
              rw [show g = groups.length by omega]
            case isFalse => cases he
      · rw [Function.update_of_ne hn, h n' g, List.getElem?_append]
        split
        case isTrue => rfl
        case isFalse hlt =>
          rw [List.getElem?_eq_none (by omega), List.getElem?_singleton]
          split
          case isTrue => simpa using fun he => hn he.symm
          case isFalse => rfl
    · intro n' b' g he
      simp only [WorkerCache.newGroup] at he
      by_cases hn : n' = n
      · subst hn
        rw [Function.update_self] at he
        exact Or.inl (Prod.mk.inj (Option.some.inj he)).1.symm
      · rw [Function.update_of_ne hn] at he
        exact Or.inr he
  simp only [WorkerCache.group]
  cases hc : cache.groups n with
  | none => exact hnew (by simp [hc])
  | some bg =>
    obtain ⟨b',g⟩ := bg
    by_cases hb : b' = b
    · subst hb
      simp only [if_true]
      exact ⟨h,(h n g).1 hc,trivial,fun _ _ _ he => Or.inr he,Or.inl trivial⟩
    · simp only [if_neg hb]
      exact hnew (by simp [hc, hb])

theorem last_extends {table table' : OutputSectionTable} (h : Extends table table') {job : Job}
    (hl : LastOk ctx table job) : LastOk ctx table' job := by
  intro sec group hlast
  obtain ⟨found,hmem,hgroup⟩ := hl sec group hlast
  exact ⟨found,h.keys hmem,hgroup⟩

theorem grouped_extends {table table' : OutputSectionTable} (h : Extends table table')
    {done : List (ℕ × InputSection)} {groups : Groups} (hg : Grouped ctx moves table done groups) :
    Grouped ctx moves table' done groups where
  made n group hmem := by
    obtain ⟨name,hname,hgathered⟩ := hg.made n group hmem
    exact ⟨name,prefix_some h.names hname,hgathered⟩
  asked x hx hp := by
    obtain ⟨found,hfound⟩ := hg.asked x hx hp
    exact ⟨found,h.keys hfound⟩
  all x hx d hd := by
    obtain ⟨n,group,hmem,hname⟩ := hg.all x hx d hd
    exact ⟨n,group,hmem,prefix_some h.names hname⟩

theorem numbers_extend {groups groups' : Groups} {n : ℕ} {dest : Destination}
    (h : groups' = groups ∨ n ∉ groups.map Prod.fst ∧ groups' = groups ++ [(n,{ dest := dest })])
    {g m : ℕ} (hg : (groups.map Prod.fst)[g]? = some m) :
    (groups'.map Prod.fst)[g]? = some m := by
  rcases h with rfl | ⟨_,rfl⟩
  · exact hg
  · rw [List.map_append, List.getElem?_append_left (List.getElem?_eq_some_iff.1 hg).1, hg]

theorem last_group_some {job : Job} {sec : ℕ × ℕ} {mv : Option Move} {group : Option ℕ}
    (h : lastGroup job sec mv = some group) : job.last = some (sec,group) ∧ mv = none := by
  simp only [lastGroup] at h
  cases hl : job.last with
  | none => rw [hl] at h; cases h
  | some last =>
    obtain ⟨lastSec,group'⟩ := last
    rw [hl] at h
    simp only [Option.ite_none_right_eq_some, Option.some.injEq] at h
    obtain ⟨⟨rfl,hmv⟩,rfl⟩ := h
    exact ⟨rfl,hmv⟩

theorem find_group_found {table : OutputSectionTable} (ht : TableOk ctx table) {cache : WorkerCache}
    (hc : CacheOk table cache) {job : Job}
    (hi : Indexed cache job.block (job.groups.map Prod.fst)) (hl : LastOk ctx table job)
    (x : ℕ × InputSection) :
    let found := findGroup ctx moves x.1 x.2 job cache table
    Found ctx moves x table cache job found.1 found.2.1 found.2.2.1 found.2.2.2 := by
  simp only [findGroup]
  cases hlast : lastGroup job (x.2.file,x.2.shndx) (moves x.1) with
  | some group =>
    obtain ⟨hjob,hmv⟩ := last_group_some hlast
    obtain ⟨found,hmem,hgroup⟩ := hl _ _ hjob
    refine ⟨ht,extends_refl table,hc,fun entry he => Or.inl he,fun _ _ _ he => Or.inr he,
      ⟨rfl,rfl,rfl⟩,hi,hl,found,?_,?_⟩
    · rw [keyOf, hmv]
      exact hmem
    · cases group with
      | none => exact ⟨hgroup,rfl⟩
      | some g =>
        obtain ⟨n,d,hfound,hg⟩ := hgroup
        exact ⟨n,d,hfound,hg,Or.inl rfl⟩
  | none =>
    obtain ⟨hok,hext,hcache,hgroups,hmem,hnew⟩ := lookup_ok ht hc (ctx.hdr x.2) (moves x.1)
    rcases hlook : lookup ctx (ctx.hdr x.2) (moves x.1) cache table with ⟨found,cache',table'⟩
    rw [hlook] at hok hext hcache hgroups hmem hnew
    have hold := last_extends hext hl
    have hi' : Indexed cache' job.block (job.groups.map Prod.fst) := by
      intro n g
      rw [hgroups]
      exact hi n g
    cases found with
    | none =>
      refine ⟨hok,hext,hcache,hnew,?_,⟨rfl,rfl,rfl⟩,hi',?_,none,hmem,rfl,rfl⟩
      · intro n b g he
        rw [hgroups] at he
        exact Or.inr he
      · intro sec group he
        dsimp only at he
        split at he
        case isTrue hmv =>
          obtain ⟨rfl,rfl⟩ := Prod.mk.inj (Option.some.inj he)
          rw [hmv] at hmem
          exact ⟨none,hmem,rfl⟩
        case isFalse => exact hold sec group he
    | some entry =>
      obtain ⟨n,d⟩ := entry
      obtain ⟨hindexed,hg,hsections,hstale,hmade⟩ := group_ok hi' n d
      dsimp only
      refine ⟨hok,hext,?_,hnew,?_,⟨rfl,rfl,rfl⟩,hindexed,?_,some (n,d),hmem,n,d,rfl,hg,hmade⟩
      · rw [CacheOk, hsections]
        exact hcache
      · intro n' b g' he
        rw [← hgroups]
        exact hstale n' b g' he
      · intro sec group he
        dsimp only at he
        split at he
        case isTrue hmv =>
          obtain ⟨rfl,rfl⟩ := Prod.mk.inj (Option.some.inj he)
          rw [hmv] at hmem
          exact ⟨some (n,d),hmem,n,d,rfl,hg⟩
        case isFalse =>
          obtain ⟨found,hfound,hgroup'⟩ := hold sec group he
          refine ⟨found,hfound,?_⟩
          cases group with
          | none => exact hgroup'
          | some g' =>
            obtain ⟨m,e,he',hm⟩ := hgroup'
            exact ⟨m,e,he',numbers_extend hmade hm⟩

theorem going_append (name : SectionName) (l l' : List (ℕ × InputSection)) :
    going ctx moves name (l ++ l') = going ctx moves name l ++ going ctx moves name l' :=
  List.filterMap_append

theorem going_none {x : ℕ × InputSection} (h : ∀ d, sent ctx moves x = some d → False)
    (name : SectionName) : going ctx moves name [x] = [] := by
  cases hs : sent ctx moves x with
  | none => simp [going, hs]
  | some d => exact (h d hs).elim

theorem going_other {x : ℕ × InputSection} {d : Destination} (h : sent ctx moves x = some d)
    {name : SectionName} (hne : d.name ≠ name) : going ctx moves name [x] = [] := by
  simp [going, h, hne]

theorem going_self {x : ℕ × InputSection} {d : Destination} (h : sent ctx moves x = some d) :
    going ctx moves d.name [x] = [(x,d)] := by
  simp [going, h]

theorem gathered_push (l : List ((ℕ × InputSection) × Destination)) (x : ℕ × InputSection)
    (d : Destination) : gathered (l ++ [(x,d)]) =
      some (((gathered l).getD { dest := d }).push x.1 x.2) := by
  cases l with
  | nil => simp [gathered, OutputSectionFileMembers.push]
  | cons y l =>
    obtain ⟨y,e⟩ := y
    simp [gathered, OutputSectionFileMembers.push, List.foldl_append]

theorem gathered_none {l : List ((ℕ × InputSection) × Destination)} :
    gathered l = none ↔ l = [] := by
  cases l <;> simp [gathered]

theorem indexed_injective {cache : WorkerCache} {b : ℕ} {numbers : List ℕ}
    (h : Indexed cache b numbers) {n g g' : ℕ} (hg : numbers[g]? = some n)
    (hg' : numbers[g']? = some n) : g = g' := by
  have he := (h n g).2 hg
  rw [(h n g').2 hg'] at he
  exact (Prod.mk.inj (Option.some.inj he)).2.symm

/-- A section not found among the groups got nothing of the block yet. -/
theorem going_nil {table : OutputSectionTable} (ht : TableOk ctx table)
    {done : List (ℕ × InputSection)} {groups : Groups} (hg : Grouped ctx moves table done groups)
    {n : ℕ} {name : SectionName} (hn : table.byName[n]? = some name)
    (hout : n ∉ groups.map Prod.fst) : going ctx moves name done = [] := by
  rw [going, List.filterMap_eq_nil_iff]
  intro x hx
  cases hs : sent ctx moves x with
  | none => rfl
  | some d =>
    rw [Option.bind_some, if_neg]
    rintro rfl
    obtain ⟨n',group,hmem,hname⟩ := hg.all x hx d hs
    obtain rfl := ((List.getElem?_inj (List.getElem?_eq_some_iff.1 hn).1 ht.nodup).1
      (hn.trans hname.symm))
    exact hout (List.mem_map_of_mem hmem)

theorem push_numbers (groups : Groups) (g : ℕ)
    (f : OutputSectionFileMembers → OutputSectionFileMembers) :
    (groups.modify g fun group => (group.1,f group.2)).map Prod.fst = groups.map Prod.fst := by
  apply List.ext_getElem?
  intro j
  rw [List.getElem?_map, List.getElem?_map, List.getElem?_modify]
  cases groups[j]? <;> simp
  split <;> rfl

/-- The groups once a subsection is added to its own. -/
theorem grouped_push {table : OutputSectionTable} (ht : TableOk ctx table) {cache : WorkerCache}
    {b : ℕ} {done : List (ℕ × InputSection)} {groups groups' : Groups}
    (hg : Grouped ctx moves table done groups) (hi : Indexed cache b (groups'.map Prod.fst))
    {x : ℕ × InputSection} {d : Destination} (hs : sent ctx moves x = some d)
    (hasked : ∃ found, (keyOf ctx moves x,found) ∈ table.byKey) {n g : ℕ}
    (hn : table.byName[n]? = some d.name) (hgn : (groups'.map Prod.fst)[g]? = some n)
    (hmade : groups' = groups ∨
      n ∉ groups.map Prod.fst ∧ groups' = groups ++ [(n,{ dest := d })]) :
    Grouped ctx moves table (done ++ [x])
      (groups'.modify g fun group => (group.1,group.2.push x.1 x.2)) := by
  -- what the group was, with nothing in it if it is new
  have hbefore : ∀ j m group, groups'[j]? = some (m,group) → ∃ name,
      table.byName[m]? = some name ∧
        (gathered (going ctx moves name done) = some group ∨
          j = g ∧ group = { dest := d } ∧ gathered (going ctx moves name done) = none) := by
    intro j m group hj
    rcases hmade with rfl | ⟨hout,rfl⟩
    · obtain ⟨name,hname,hgathered⟩ := hg.made m group (List.mem_of_getElem? hj)
      exact ⟨name,hname,Or.inl hgathered⟩
    · rw [List.getElem?_append] at hj
      split at hj
      case isTrue =>
        obtain ⟨name,hname,hgathered⟩ := hg.made m group (List.mem_of_getElem? hj)
        exact ⟨name,hname,Or.inl hgathered⟩
      case isFalse hlt =>
        rw [List.getElem?_singleton] at hj
        split at hj
        case isFalse => cases hj
        case isTrue hz =>
          obtain ⟨rfl,rfl⟩ := Prod.mk.inj (Option.some.inj hj)
          refine ⟨d.name,hn,Or.inr ⟨?_,rfl,?_⟩⟩
          · refine indexed_injective hi (n := n) ?_ hgn
            rw [show j = groups.length by omega]
            simp
          · rw [gathered_none]
            exact going_nil ht hg hn hout
  refine ⟨?_,?_,?_⟩
  · intro m group hmem
    obtain ⟨j,hj⟩ := List.mem_iff_getElem?.1 hmem
    rw [List.getElem?_modify, Option.map_eq_map, Option.map_eq_some_iff] at hj
    obtain ⟨⟨m',group'⟩,hj',he⟩ := hj
    obtain ⟨name,hname,hwas⟩ := hbefore j m' group' hj'
    by_cases hgj : g = j
    · rw [if_pos hgj] at he
      obtain ⟨rfl,rfl⟩ := Prod.mk.inj he
      have hm : m' = n := by
        have hnum : (groups'.map Prod.fst)[j]? = some m' := by rw [List.getElem?_map, hj']; rfl
        rw [← hgj, hgn] at hnum
        exact (Option.some.inj hnum).symm
      have hnm : name = d.name := by
        rw [hm, hn] at hname
        exact (Option.some.inj hname).symm
      subst hnm
      refine ⟨d.name,hname,?_⟩
      rw [going_append, going_self hs, gathered_push]
      rcases hwas with h | ⟨_,rfl,h⟩
      · rw [h, Option.getD_some]
      · rw [h, Option.getD_none]
    · rw [if_neg hgj] at he
      obtain ⟨rfl,rfl⟩ := Prod.mk.inj he
      refine ⟨name,hname,?_⟩
      have hne : d.name ≠ name := by
        rintro rfl
        obtain rfl := ((List.getElem?_inj (List.getElem?_eq_some_iff.1 hn).1 ht.nodup).1
          (hn.trans hname.symm))
        refine hgj (indexed_injective hi hgn ?_)
        rw [List.getElem?_map, hj']
        rfl
      rw [going_append, going_other hs hne, List.append_nil]
      rcases hwas with h | ⟨h,_⟩
      · exact h
      · exact absurd h.symm hgj
  · intro y hy hp
    rcases List.mem_append.1 hy with hy | hy
    · exact hg.asked y hy hp
    · rw [List.mem_singleton.1 hy]
      exact hasked
  · intro y hy e he
    have hgroup : ∀ m, m ∈ groups'.map Prod.fst → table.byName[m]? = some e.name →
        ∃ m group, (m,group) ∈ groups'.modify g (fun group => (group.1,group.2.push x.1 x.2)) ∧
          table.byName[m]? = some e.name := by
      intro m hm hname
      rw [← push_numbers groups' g] at hm
      obtain ⟨⟨m,group⟩,hmem,rfl⟩ := List.mem_map.1 hm
      exact ⟨m,group,hmem,hname⟩
    rcases List.mem_append.1 hy with hy | hy
    · obtain ⟨m,group,hmem,hname⟩ := hg.all y hy e he
      refine hgroup m ?_ hname
      rcases hmade with rfl | ⟨_,rfl⟩
      · exact List.mem_map_of_mem hmem
      · rw [List.map_append]
        exact List.mem_append_left _ (List.mem_map_of_mem hmem)
    · rw [List.mem_singleton.1 hy, hs] at he
      obtain rfl := Option.some.inj he
      exact hgroup n (List.mem_of_getElem? hgn) hn

/-- The groups once a subsection that goes to none is gone through. -/
theorem grouped_skip {table : OutputSectionTable} {done : List (ℕ × InputSection)}
    {groups : Groups} (hg : Grouped ctx moves table done groups) {x : ℕ × InputSection}
    (hs : sent ctx moves x = none)
    (hasked : placeable x.2 → ∃ found, (keyOf ctx moves x,found) ∈ table.byKey) :
    Grouped ctx moves table (done ++ [x]) groups where
  made n group hmem := by
    obtain ⟨name,hname,hgathered⟩ := hg.made n group hmem
    refine ⟨name,hname,?_⟩
    rw [going_append, going_none (by simp [hs]), List.append_nil, hgathered]
  asked y hy hp := by
    rcases List.mem_append.1 hy with hy | hy
    · exact hg.asked y hy hp
    · rw [List.mem_singleton.1 hy] at hp ⊢
      exact hasked hp
  all y hy d hd := by
    rcases List.mem_append.1 hy with hy | hy
    · exact hg.all y hy d hd
    · rw [List.mem_singleton.1 hy, hs] at hd
      cases hd

/-- What going through one subsection leaves. -/
structure Visited (x : ℕ × InputSection) (table : OutputSectionTable) (cache : WorkerCache)
    (job : Job) (done : List (ℕ × InputSection)) (left : List (ℕ × InputSection))
    (job' : Job) (cache' : WorkerCache) (table' : OutputSectionTable) : Prop where
  tableOk : TableOk ctx table'
  grows : Extends table table'
  cacheOk : CacheOk table' cache'
  fresh : ∀ entry ∈ table'.byKey, entry ∈ table.byKey ∨
    placeable x.2 ∧ entry.1 = keyOf ctx moves x
  stale : ∀ n b g, cache'.groups n = some (b,g) → b = job.block ∨ cache.groups n = some (b,g)
  rest : job'.block = job.block ∧ job'.left = left
  jobOk : JobOk ctx moves table' cache' job' (done ++ [x])

theorem visit_visited {table : OutputSectionTable} (ht : TableOk ctx table) {cache : WorkerCache}
    (hc : CacheOk table cache) {job : Job} {done left : List (ℕ × InputSection)}
    {x : ℕ × InputSection} (hj : JobOk ctx moves table cache job done) (hleft : job.left = x::left) :
    let found := visit ctx moves x { job with left } cache table
    @Visited ctx moves x table cache job done left found.1 found.2.1 found.2.2 := by
  have hitems : blockItems ctx job.block = done ++ [x] ++ left := by
    rw [hj.items, hleft, List.append_assoc, List.singleton_append]
  simp only [visit]
  by_cases hp : placeable x.2
  case neg =>
    have hskip : (!x.2.isEmitted || x.2.isPlaced) = true := by
      rw [placeable] at hp
      cases he : x.2.isEmitted <;> cases hq : x.2.isPlaced <;> simp_all
    have hs : sent ctx moves x = none := by rw [sent, if_neg hp]
    have hv : visited ctx moves x = x.2 := by
      rw [visited, if_neg (by simp [hp])]
    rw [if_pos hskip]
    refine ⟨ht,extends_refl table,hc,fun entry he => Or.inl he,fun _ _ _ he => Or.inr he,
      ⟨rfl,rfl⟩,hitems,?_,grouped_skip hj.grouped hs fun h => absurd h hp,hj.indexed,hj.last⟩
    rw [List.map_append, hj.isecs, List.map_cons, List.map_nil, hv]
  case pos =>
    have hskip : ¬ (!x.2.isEmitted || x.2.isPlaced) = true := by
      rw [placeable] at hp
      cases he : x.2.isEmitted <;> cases hq : x.2.isPlaced <;> simp_all
    rw [if_neg hskip]
    have hfound := @find_group_found ctx moves table ht cache hc { job with left := left }
      hj.indexed hj.last x
    rcases hf : findGroup ctx moves x.1 x.2 { job with left := left } cache table with
      ⟨group,job',cache',table'⟩
    rw [hf] at hfound
    dsimp only at hfound
    obtain ⟨htable,hgrows,hcache,hfresh,hstale,⟨hblock,hleft',hisecs⟩,hindexed,hlast,found,hmem,
      hgroup⟩ := hfound
    have hgrouped := grouped_extends hgrows hj.grouped
    have hleads := htable.leads _ _ hmem
    have hdest : keyDest ctx (keyOf ctx moves x) = destOf ctx moves x := by
      rw [keyDest, keyOf, key_hdr, key_move, destOf]
    rw [← hblock] at hindexed
    have hfresh' : ∀ entry ∈ table'.byKey, entry ∈ table.byKey ∨
        placeable x.2 ∧ entry.1 = keyOf ctx moves x := by
      intro entry he
      rcases hfresh entry he with h | h
      · exact Or.inl h
      · exact Or.inr ⟨hp,h⟩
    cases group with
    | none =>
      obtain ⟨rfl,hgroups⟩ := hgroup
      have hnone : destOf ctx moves x = none := by
        rw [← hdest, ← hleads.dest]
        rfl
      have hs : sent ctx moves x = none := by rw [sent, if_pos hp, hnone]
      refine ⟨htable,hgrows,hcache,hfresh',hstale,⟨hblock,hleft'⟩,?_,?_,?_,hindexed,hlast⟩
      · rw [hblock, hleft']
        exact hitems
      · dsimp only
        rw [hisecs, hj.isecs, List.map_append, List.map_cons, List.map_nil, visited, hp, hnone]
        rfl
      · rw [hgroups]
        exact grouped_skip hgrouped hs fun _ => ⟨none,hmem⟩
    | some g =>
      obtain ⟨n,d,rfl,hg,hmade⟩ := hgroup
      have hsome : destOf ctx moves x = some d := by
        rw [← hdest, ← hleads.dest]
        rfl
      have hs : sent ctx moves x = some d := by rw [sent, if_pos hp, hsome]
      refine ⟨htable,hgrows,hcache,hfresh',hstale,⟨hblock,hleft'⟩,?_,?_,?_,?_,?_⟩
      · dsimp only
        rw [hblock, hleft']
        exact hitems
      · dsimp only
        rw [hisecs, hj.isecs, List.map_append, List.map_cons, List.map_nil, visited, hp, hsome]
        rfl
      · exact grouped_push htable hgrouped hindexed hs ⟨_,hmem⟩ (hleads.number n d rfl) hg hmade
      · dsimp only
        rw [push_numbers]
        exact hindexed
      · intro sec group' he
        obtain ⟨found,hfound,hgroup'⟩ := hlast sec group' he
        refine ⟨found,hfound,?_⟩
        cases group' with
        | none => exact hgroup'
        | some g' =>
          dsimp only
          rw [push_numbers]
          exact hgroup'

end Block

end MoldMacho.GatherSections
