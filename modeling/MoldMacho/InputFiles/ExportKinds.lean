import MoldMacho.InputFiles.Dylibs

/-!
# The kinds of the exports a dylib gathers

The exports of a dylib of the link are those of the libraries it gathers. Its
weak and its thread-local exports are those of the libraries that do not come in
a later file of the install name; less the weak ones out of a binary merged into
it or of the `-bundle_loader` executable, and the thread-local ones of that
executable's trie.
-/

set_option autoImplicit false

namespace MoldMacho.Dylibs
open MoldMacho.Chunks

def Contribution.keepsWeak (c : Contribution) : Prop := c.route = .library ∧ c.later = false
def Contribution.keepsTlv (c : Contribution) : Prop := c.route ≠ .loaderTrie ∧ c.later = false

instance (c : Contribution) : Decidable c.keepsWeak := inferInstanceAs (Decidable (_ ∧ _))
instance (c : Contribution) : Decidable c.keepsTlv := inferInstanceAs (Decidable (_ ∧ _))

/-- The three sets add up from the contributions that keep each kind. -/
structure AddsUp (exports weakExports tlvExports : Finset Name) (cs : List Contribution) :
    Prop where
  exports : ∀ n, n ∈ exports ↔ ∃ c ∈ cs, n ∈ c.exports
  weak : ∀ n, n ∈ weakExports ↔ ∃ c ∈ cs, c.keepsWeak ∧ n ∈ c.weakExports
  tlv : ∀ n, n ∈ tlvExports ↔ ∃ c ∈ cs, c.keepsTlv ∧ n ∈ c.tlvExports

theorem adds_up_nil : AddsUp ∅ ∅ ∅ [] where
  exports := by simp
  weak := by simp
  tlv := by simp

theorem adds_up_append {e w t e' w' t' : Finset Name} {cs cs' : List Contribution}
    (h : AddsUp e w t cs) (h' : AddsUp e' w' t' cs') :
    AddsUp (e ∪ e') (w ∪ w') (t ∪ t') (cs++cs') where
  exports := by
    intro n
    rw [Finset.mem_union, h.exports, h'.exports]
    simp [or_and_right, exists_or]
  weak := by
    intro n
    rw [Finset.mem_union, h.weak, h'.weak]
    simp [or_and_right, exists_or]
  tlv := by
    intro n
    rw [Finset.mem_union, h.tlv, h'.tlv]
    simp [or_and_right, exists_or]

theorem adds_up_own (lib : ExportKinds) :
    AddsUp lib.exports lib.weakExports lib.tlvExports [{ lib with }] where
  exports := by simp
  weak := by simp [Contribution.keepsWeak]
  tlv := by simp [Contribution.keepsTlv]

theorem adds_up_merged (lib : ExportKinds) :
    AddsUp lib.exports ∅ lib.tlvExports [{ lib with route := .mergedBinary }] where
  exports := by simp
  weak := by simp [Contribution.keepsWeak]
  tlv := by simp [Contribution.keepsTlv]

/-- The executable's two tables. -/
theorem adds_up_loader (externals trie : ExportKinds) :
    AddsUp (externals.exports ∪ trie.exports) ∅ externals.tlvExports
      [{ externals with route := .loaderSymbols },{ trie with route := .loaderTrie }] where
  exports := by simp
  weak := by simp [Contribution.keepsWeak]
  tlv := by simp [Contribution.keepsTlv]

theorem adds_up_later {e w t : Finset Name} {cs : List Contribution} (h : AddsUp e w t cs) :
    AddsUp e ∅ ∅ (cs.map fun c => { c with later := true }) where
  exports := by
    intro n
    rw [h.exports]
    simp
  weak := by simp [Contribution.keepsWeak]
  tlv := by simp [Contribution.keepsTlv]

def Gathered (d : DylibFile) : Prop :=
  AddsUp d.exports d.weakExports d.tlvExports d.contributions

def AllGathered (ctx : Context) : Prop := ∀ d ∈ ctx.dylibs, Gathered d

/-! ## Joining the dylibs of the link -/

theorem join_gathered {dylib existing : DylibFile} (hd : Gathered dylib) (he : Gathered existing) :
    Gathered (joinDylib dylib existing) := by
  have h := adds_up_append he (adds_up_later hd)
  rw [Finset.union_empty, Finset.union_empty] at h
  exact h

theorem forall_modify {P : DylibFile → Prop} {f : DylibFile → DylibFile} (hf : ∀ d, P d → P (f d))
    (ds : List DylibFile) (i : ℕ) (h : ∀ d ∈ ds, P d) : ∀ d ∈ ds.modify i f, P d := by
  induction ds generalizing i with
  | nil => simp
  | cons d ds ih =>
    rw [List.forall_mem_cons] at h
    cases i with
    | zero =>
      rw [List.modify_zero_cons, List.forall_mem_cons]
      exact ⟨hf d h.1,h.2⟩
    | succ i =>
      rw [List.modify_succ_cons, List.forall_mem_cons]
      exact ⟨h.1,ih i h.2⟩

theorem add_dylib_gathered {ctx : Context} {dylib : DylibFile} (hc : AllGathered ctx)
    (hd : Gathered dylib) : AllGathered (addDylib ctx dylib).1 := by
  unfold addDylib
  split
  case h_1 idx _ => exact forall_modify (fun d he => join_gathered hd he) ctx.dylibs idx hc
  case h_2 =>
    show ∀ d ∈ ctx.dylibs ++ [dylib], Gathered d
    rw [List.forall_mem_append]
    exact ⟨hc,by simpa using hd⟩

theorem add_moved_dylib_gathered (path : Path) (state : Moving) (moved : MovedExport)
    (hc : AllGathered state.ctx) : AllGathered (addMovedDylib path state moved).ctx := by
  unfold addMovedDylib
  split
  case h_1 => exact hc
  case h_2 =>
    have hc' : AllGathered { state.ctx with priorityCounter := state.ctx.priorityCounter + 1 } := hc
    exact add_dylib_gathered hc' adds_up_nil

theorem add_moved_dylibs_gathered (ctx : Context) (path : Path) (moved : List MovedExport)
    (exports : Finset Name) (hc : AllGathered ctx) :
    AllGathered (addMovedDylibs ctx path moved exports).1 := by
  unfold addMovedDylibs
  generalize moved.filter (fun m => decide (m.name ∈ exports)) = kept
  have h : ∀ state : Moving, AllGathered state.ctx →
      AllGathered (kept.foldl (addMovedDylib path) state).ctx := by
    induction kept with
    | nil => exact fun state hs => hs
    | cons m kept ih =>
      intro state hs
      exact ih _ (add_moved_dylib_gathered path state m hs)
  exact h { ctx } hc

/-! ## Loading the re-exported libraries -/

/-- Adding a library of the link keeps the dylibs gathered. -/
structure Adds (add : AddLibrary) : Prop where
  gathered : ∀ {ctx dylib reexports documents directives ctx' idx},
    add ctx dylib reexports documents directives = .ok (ctx',idx) →
    AllGathered ctx → Gathered dylib → AllGathered ctx'

section Load
variable {link : Link} {add : AddLibrary} (hadd : Adds add)
include hadd

theorem register_tbd_gathered {ctx ctx' : Context} {path : Path} {lib : StubLibrary}
    {documents : List StubLibrary} {idx : ℕ} (hc : AllGathered ctx)
    (h : registerTbd add ctx path lib documents = .ok (ctx',idx)) : AllGathered ctx' :=
  hadd.gathered h hc (adds_up_own lib.toExportKinds)

theorem parse_dylib_binary_gathered {ctx ctx' : Context} {path : Path} {image : DylibImage}
    {idx : ℕ} (hc : AllGathered ctx)
    (h : parseDylibBinary link add ctx path image = .ok (ctx',idx)) : AllGathered ctx' := by
  unfold parseDylibBinary at h
  split at h
  case isTrue => cases h
  case isFalse =>
    exact hadd.gathered h hc
      (adds_up_own (interpretBinaryLdSymbols link.readLd (readDylibBinary image)).1.kinds)

omit hadd in
theorem add_implicit_gathered {added : Except Stop (Context × ℕ)} {walk walk' : ReexportWalk}
    {r : ReexportRef} {ctx' : Context} (hw : Gathered walk.dylib)
    (hadded : ∀ ctx idx, added = .ok (ctx,idx) → AllGathered ctx)
    (h : added.map (addImplicit walk r) = .ok (ctx',walk')) :
    AllGathered ctx' ∧ Gathered walk'.dylib := by
  cases added with
  | error stop => cases h
  | ok result =>
    have hc : AllGathered result.1 := hadded result.1 result.2 rfl
    cases h
    constructor
    · exact forall_modify (f := fun d => { d with isImplicit := true }) (fun d hd => hd)
        result.1.dylibs result.2 hc
    · exact hw

theorem load_inlined_gathered {ctx ctx' : Context} {walk walk' : ReexportWalk} {doc : StubLibrary}
    {r : ReexportRef} (hc : AllGathered ctx) (hw : Gathered walk.dylib)
    (h : loadInlined link add ctx walk doc r = .ok (ctx',walk')) :
    AllGathered ctx' ∧ Gathered walk'.dylib := by
  unfold loadInlined at h
  split at h
  case isTrue =>
    exact add_implicit_gathered hw (fun ctx idx => register_tbd_gathered hadd hc) h
  case isFalse =>
    cases h
    exact ⟨hc,adds_up_append hw (adds_up_own doc.toExportKinds)⟩

theorem load_tapi_gathered {ctx ctx' : Context} {walk walk' : ReexportWalk} {path : Path}
    {main : StubLibrary} {documents : List StubLibrary} {r : ReexportRef} (hc : AllGathered ctx)
    (hw : Gathered walk.dylib)
    (h : loadTapi link add ctx walk path main documents r = .ok (ctx',walk')) :
    AllGathered ctx' ∧ Gathered walk'.dylib := by
  unfold loadTapi at h
  split at h
  case isTrue =>
    exact add_implicit_gathered hw (fun ctx idx => register_tbd_gathered hadd hc) h
  case isFalse =>
    cases h
    exact ⟨hc,adds_up_append hw (adds_up_own main.toExportKinds)⟩

theorem load_binary_gathered {ctx ctx' : Context} {walk walk' : ReexportWalk} {dep path : Path}
    {image : DylibImage} {r : ReexportRef} (hc : AllGathered ctx) (hw : Gathered walk.dylib)
    (h : loadBinary link add ctx walk dep path image r = .ok (ctx',walk')) :
    AllGathered ctx' ∧ Gathered walk'.dylib := by
  simp only [loadBinary] at h
  split at h
  case isTrue =>
    exact add_implicit_gathered hw (fun ctx idx => parse_dylib_binary_gathered hadd hc) h
  case isFalse =>
    cases h
    have hm := adds_up_append hw
      (adds_up_merged (interpretBinaryLdSymbols link.readLd (readDylibBinary image)).1.kinds)
    rw [Finset.union_empty] at hm
    exact ⟨hc,hm⟩

theorem load_file_gathered {ctx ctx' : Context} {walk walk' : ReexportWalk} {dep : MappedFile}
    {r : ReexportRef} (hc : AllGathered ctx) (hw : Gathered walk.dylib)
    (h : loadFile link add ctx walk dep r = .ok (ctx',walk')) :
    AllGathered ctx' ∧ Gathered walk'.dylib := by
  unfold loadFile at h
  split at h
  case h_1 =>
    cases h
    exact ⟨hc,hw⟩
  case h_2 =>
    cases h
    exact ⟨hc,hw⟩
  case h_3 => exact load_tapi_gathered hadd hc hw h
  case h_4 =>
    cases h
    exact ⟨hc,hw⟩
  case h_5 => exact load_binary_gathered hadd hc hw h
  case h_6 => exact load_binary_gathered hadd hc hw h

theorem load_gathered {ctx ctx' : Context} {walk walk' : ReexportWalk} {r : ReexportRef}
    (h : load link add ctx walk r = .ok (ctx',walk')) (hc : AllGathered ctx)
    (hw : Gathered walk.dylib) :
    AllGathered ctx' ∧ Gathered walk'.dylib := by
  simp only [load] at h
  split at h
  case h_1 loaded idx hfound =>
    split at h
    case isTrue =>
      cases h
      exact ⟨hc,hw⟩
    case isFalse =>
      cases h
      have hmem := List.mem_of_find?_eq_some hfound
      exact ⟨hc,adds_up_append hw (hc loaded (List.fst_mem_of_mem_zipIdx hmem))⟩
  case h_2 =>
    split at h
    case h_1 => exact load_file_gathered hadd hc hw h
    case h_2 => exact load_inlined_gathered hadd hc hw h
    case h_3 =>
      cases h
      exact ⟨hc,hw⟩

theorem load_reexports_gathered (fuel : ℕ) {ctx ctx' : Context} {walk walk' : ReexportWalk}
    {visited : List Name} (h : loadReexports link add fuel ctx walk visited = .ok (ctx',walk'))
    (hc : AllGathered ctx) (hw : Gathered walk.dylib) :
    AllGathered ctx' ∧ Gathered walk'.dylib := by
  induction fuel generalizing ctx walk visited with
  | zero => cases h
  | succ fuel ih =>
    simp only [loadReexports] at h
    split at h
    case h_1 =>
      cases h
      exact ⟨hc,hw⟩
    case h_2 r _ =>
      split at h
      case isTrue => exact ih h hc hw
      case isFalse =>
        split at h
        case h_1 => cases h
        case h_2 hload =>
          have hnext := load_gathered hadd hload hc hw
          exact ih h hnext.1 hnext.2

end Load

theorem add_library_gathered (link : Link) (fuel : ℕ) : Adds (addLibrary link fuel) := by
  induction fuel with
  | zero =>
    constructor
    intro ctx dylib reexports documents directives ctx' idx h
    cases h
  | succ fuel ih =>
    constructor
    intro ctx dylib reexports documents directives ctx' idx h hc hd
    simp only [addLibrary] at h
    split at h
    case h_1 => cases h
    case h_2 hload =>
      have hloaded := load_reexports_gathered ih fuel hload hc hd
      have hctx := congrArg Prod.fst (Except.ok.inj h)
      rw [← show _ = ctx' from hctx]
      apply add_dylib_gathered (add_moved_dylibs_gathered _ _ _ _ hloaded.1)
      exact hloaded.2

/-! ## The link's inputs -/

theorem add_input_gathered {link : Link} {fuel : ℕ} {ctx ctx' : Context} {input : Input}
    (hc : AllGathered ctx) (h : addInput link fuel ctx input = .ok ctx') : AllGathered ctx' := by
  have hadd := add_library_gathered link fuel
  have hfst : ∀ added : Except Stop (Context × ℕ),
      (∀ ctx idx, added = .ok (ctx,idx) → AllGathered ctx) → added.map Prod.fst = .ok ctx' →
      AllGathered ctx' := by
    intro added hadded hmap
    cases added with
    | error stop => cases hmap
    | ok result =>
      cases hmap
      exact hadded result.1 result.2 rfl
  have hc' : AllGathered { ctx with priorityCounter := ctx.priorityCounter + 1 } := hc
  unfold addInput at h
  split at h
  case h_1 path externals trie =>
    cases h
    exact add_dylib_gathered hc' (adds_up_loader (tableKinds externals) (tableKinds trie))
  case h_2 path installName current compatibility imports =>
    cases h
    exact add_dylib_gathered hc' (adds_up_own {
      exports := namesOf imports, weakExports := marked imports, tlvExports := ∅
      weak_sub := marked_sub imports
      tlv_sub := Finset.empty_subset _ })
  case h_3 =>
    split at h
    case h_1 => exact hfst _ (fun ctx idx => register_tbd_gathered hadd hc) h
    case h_2 => exact hfst _ (fun ctx idx => parse_dylib_binary_gathered hadd hc) h
    case h_3 => exact hfst _ (fun ctx idx => parse_dylib_binary_gathered hadd hc) h
    all_goals
      cases h
      exact hc

theorem add_inputs_gathered {link : Link} {fuel : ℕ} (inputs : List Input) {ctx ctx' : Context}
    (hc : AllGathered ctx) (h : addInputs link fuel ctx inputs = .ok ctx') : AllGathered ctx' := by
  induction inputs generalizing ctx with
  | nil =>
    cases h
    exact hc
  | cons input inputs ih =>
    rw [addInputs] at h
    split at h
    case h_1 => cases h
    case h_2 hinput => exact ih (add_input_gathered hc hinput) h

/-! ## What survives -/

/-- The weak and the thread-local exports have every export that a
contributing library exports so. -/
def KindsSurvive (d : DylibFile) : Prop :=
  ∀ n ∈ d.exports, ∀ c ∈ d.contributions,
    (n ∈ c.weakExports → n ∈ d.weakExports) ∧ (n ∈ c.tlvExports → n ∈ d.tlvExports)

/-- A kind that one library's way in drops comes in with another library. -/
def NothingDropped (d : DylibFile) : Prop :=
  ∀ c ∈ d.contributions,
    (¬ c.keepsWeak → ∀ n ∈ c.weakExports,
      ∃ c' ∈ d.contributions, c'.keepsWeak ∧ n ∈ c'.weakExports) ∧
    (¬ c.keepsTlv → ∀ n ∈ c.tlvExports,
      ∃ c' ∈ d.contributions, c'.keepsTlv ∧ n ∈ c'.tlvExports)

theorem nothing_dropped {d : DylibFile} (h : ∀ c ∈ d.contributions, c.keepsWeak ∧ c.keepsTlv) :
    NothingDropped d := by
  intro c hc
  constructor
  · intro hk
    exact absurd (h c hc).1 hk
  · intro hk
    exact absurd (h c hc).2 hk

theorem kinds_survive_iff {d : DylibFile} (hd : Gathered d) : KindsSurvive d ↔ NothingDropped d := by
  constructor
  · intro h c hc
    constructor
    · intro _ n hn
      have hexport : n ∈ d.exports := (hd.exports n).2 ⟨c,hc,c.weak_sub hn⟩
      exact (hd.weak n).1 ((h n hexport c hc).1 hn)
    · intro _ n hn
      have hexport : n ∈ d.exports := (hd.exports n).2 ⟨c,hc,c.tlv_sub hn⟩
      exact (hd.tlv n).1 ((h n hexport c hc).2 hn)
  · intro h n _ c hc
    constructor
    · intro hn
      rw [hd.weak]
      by_cases hk : c.keepsWeak
      · exact ⟨c,hc,hk,hn⟩
      · exact (h c hc).1 hk n hn
    · intro hn
      rw [hd.tlv]
      by_cases hk : c.keepsTlv
      · exact ⟨c,hc,hk,hn⟩
      · exact (h c hc).2 hk n hn

/-- Whatever the inputs, a dylib of the link keeps the kinds of the exports it
gathered exactly if every weak one that comes in by a binary merged, by the
`-bundle_loader` executable or by a later file, and every thread-local one that
comes in by that executable's trie or by a later file, also comes in otherwise. -/
theorem export_kinds_survive {link : Link} {fuel : ℕ} {inputs : List Input} {ctx : Context}
    (h : addInputs link fuel {} inputs = .ok ctx) :
    ∀ d ∈ ctx.dylibs, KindsSurvive d ↔ NothingDropped d := by
  intro d hd
  have hall : AllGathered {} := by
    intro d hd
    cases hd
  exact kinds_survive_iff (add_inputs_gathered inputs hall h d hd)

/-- A stub that re-exports a private library. -/
def umbrella : Input :=
  .file { name := bytes "A.tbd", content := .tapi (some ({
    installName := bytes "/opt/A.dylib", exports := [bytes "_a"]
    reexports := [bytes "/opt/P.dylib"] },[])) }

/-- The private library, which exports a weak definition, as a stub. -/
def stubLink : Link where
  resolveDylibRef r _ := some { name := r.name, content := .tapi (some ({
    installName := r.name, weakExports := [bytes "_w"] },[])) }

/-- The private library as a binary. -/
def binaryLink : Link where
  resolveDylibRef r _ := some { name := r.name, content := .dylib {
    installName := r.name, entries := [(bytes "_w",true,false)] } }

theorem export_kinds_survive_stub :
    ∃ ctx d, addInputs stubLink 4 {} [umbrella] = .ok ctx ∧ ctx.dylibs = [d] ∧ KindsSurvive d := by
  refine ⟨_,_,rfl,rfl,?_⟩
  apply (@export_kinds_survive stubLink 4 [umbrella] _ rfl _ List.mem_cons_self).2
  exact nothing_dropped (by decide)

/-- Two stubs of one install name, the second with a thread-local variable. -/
def twice (tlvExports : List Name) : Input :=
  .file { name := bytes "B.tbd", content := .tapi (some ({
    installName := bytes "/opt/B.dylib", tlvExports },[])) }

/-- The bundle's loader, with a weak definition in its symbol table. -/
def testHost : Input := .bundleLoader (bytes "/Host") [(bytes "_w",true,false)] []

/-- A binary merged loses its weak definitions, and so does a bundle's loader; a
second file of an install name loses its thread-local variables. -/
theorem export_kinds_lost :
    (∃ ctx d, addInputs binaryLink 4 {} [umbrella] = .ok ctx ∧ ctx.dylibs = [d] ∧
      ¬ KindsSurvive d) ∧
    (∃ ctx d, addInputs {} 2 {} [testHost] = .ok ctx ∧ ctx.dylibs = [d] ∧ ¬ KindsSurvive d) ∧
    ∃ ctx d, addInputs {} 2 {} [twice [], twice [bytes "_t"]] = .ok ctx ∧ ctx.dylibs = [d] ∧
      ¬ KindsSurvive d := by
  refine ⟨⟨_,_,rfl,rfl,?_⟩,⟨_,_,rfl,rfl,?_⟩,⟨_,_,rfl,rfl,?_⟩⟩
  · intro h
    have hlost := (h (bytes "_w") (by decide) _ (List.mem_cons_of_mem _ List.mem_cons_self)).1
      (by decide)
    exact absurd hlost (by decide)
  · intro h
    have hlost := (h (bytes "_w") (by decide) _ List.mem_cons_self).1 (by decide)
    exact absurd hlost (by decide)
  · intro h
    have hlost := (h (bytes "_t") (by decide) _ (List.mem_cons_of_mem _ List.mem_cons_self)).2
      (by decide)
    exact absurd hlost (by decide)

end MoldMacho.Dylibs
