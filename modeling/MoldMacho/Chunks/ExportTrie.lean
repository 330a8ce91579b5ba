import Mathlib.Algebra.GroupWithZero.Nat
import Mathlib.Data.List.Basic
import Mathlib.Algebra.Order.BigOperators.Group.List
import Mathlib.Data.List.TakeWhile
import MoldMacho.Lib.RadixTree
import MoldMacho.Util.Leb128

/-!
# The export trie

dyld's index of the image's exported symbols. The sorted names split into
a radix tree; its nodes are numbered in pre-order, placed in post-order
after the root, and written each into the slice placed for it.
-/

set_option autoImplicit false

namespace MoldMacho.ExportTrie
open MoldMacho.RadixTree MoldMacho.Leb128

/-- What a terminal says about a symbol. -/
inductive Export where
  | addr (flags addr : ℕ)
  | reexport (ordinal : ℕ) (name : List UInt8)
  deriving DecidableEq, Repr

def flagsReexport : ℕ := 8

def Export.terminalSize : Export → ℕ
  | .addr flags address => ulebSize flags + ulebSize address
  | .reexport ordinal name => ulebSize flagsReexport + ulebSize ordinal + name.length + 1

abbrev Name := List UInt8

/-- The edges of a trie node. -/
abbrev Edges := Forest UInt8 Export

structure TrieNode where
  exported : Option Export
  children : Edges

/-! Building. -/

/-- The export of the name that ends at `depth`, and the other names. -/
def splitTerminal (depth : ℕ) : List (Name × Export) → Option Export × List (Name × Export)
  | [] => (none, [])
  | (name, e)::rest => if name.length = depth then (some e, rest) else (none, (name, e)::rest)

/-- The length of the common prefix of two names, of the same first
`depth` bytes. -/
def commonPrefix (depth : ℕ) (first last : Name) : ℕ :=
  depth + (((first.drop depth).zip (last.drop depth)).takeWhile fun (a, b) => a == b).length

/-- Whether a name goes on with byte `b`. -/
def continues (depth : ℕ) (b : UInt8) (n : Name × Export) : Bool := n.1[depth]? == some b

theorem common_prefix_gt {depth : ℕ} {b : UInt8} {first last : Name}
    (hf : first[depth]? = some b) (hl : last[depth]? = some b) :
    depth < commonPrefix depth first last := by
  rw [List.getElem?_eq_some_iff] at hf hl
  obtain ⟨hf,hfb⟩ := hf
  obtain ⟨hl,hlb⟩ := hl
  rw [commonPrefix, List.drop_eq_getElem_cons hf, List.drop_eq_getElem_cons hl]
  simp [hfb, hlb]

/-- What is left to read of the names. -/
def remaining (depth : ℕ) (names : List (Name × Export)) : ℕ :=
  (names.map fun n => n.1.length - depth).sum

theorem split_terminal_sublist (depth : ℕ) (names : List (Name × Export)) :
    (splitTerminal depth names).2.Sublist names := by
  cases names with
  | nil => simp [splitTerminal]
  | cons n rest =>
    by_cases h : n.1.length = depth
    · simp [splitTerminal, h]
    · simp [splitTerminal, h]

theorem remaining_sublist {depth : ℕ} {a b : List (Name × Export)} (h : a.Sublist b) :
    remaining depth a ≤ remaining depth b := by
  exact (h.map _).sum_le_sum (by simp)

theorem continues_length {depth : ℕ} {b : UInt8} {n : Name × Export}
    (h : continues depth b n = true) : depth < n.1.length := by
  simp only [continues, beq_iff_eq, List.getElem?_eq_some_iff] at h
  exact h.choose

theorem remaining_deeper {depth common : ℕ} (hc : depth < common) (names : List (Name × Export))
    (h : ∀ n ∈ names, depth < n.1.length) :
    remaining common names + names.length ≤ remaining depth names := by
  induction names with
  | nil => simp [remaining]
  | cons n names ih =>
    have hn := h n (by simp)
    have := ih fun m hm => h m (by simp [hm])
    simp only [remaining, List.map_cons, List.sum_cons, List.length_cons] at this ⊢
    omega

theorem mem_takeWhile_continues {depth : ℕ} {b : UInt8} {names : List (Name × Export)}
    {n : Name × Export} (h : n ∈ names.takeWhile (continues depth b)) : continues depth b n := by
  exact List.mem_takeWhile_imp h

/-- The edges of the node of a run of names longer than `depth` that share
their first `depth` bytes: a group for each next byte. A name that stops
short, on which the code would, ends the run. -/
def buildChildren (names : List (Name × Export)) (depth : ℕ) : Edges :=
  match names with
  | [] => .nil
  | first::more =>
    match _hb : first.1[depth]? with
    | none => .nil
    | some b =>
      let group := more.takeWhile (continues depth b)
      let last := (first::group).getLast (List.cons_ne_nil _ _)
      let common := commonPrefix depth first.1 last.1
      let node := splitTerminal common (first::group)
      .edge ((first.1.take common).drop depth) node.1 (buildChildren node.2 common)
        (buildChildren (more.dropWhile (continues depth b)) depth)
termination_by remaining depth names
decreasing_by
  · have hfirst : continues depth b first := by simp [continues, _hb]
    have hgroup : ∀ n ∈ first::group, continues depth b n := by
      intro n hn
      cases List.mem_cons.1 hn with
      | inl h => exact h ▸ hfirst
      | inr h => exact mem_takeWhile_continues h
    have hlast : continues depth b last := hgroup _ (List.getLast_mem _)
    have hc : depth < common := by
      simp only [continues, beq_iff_eq] at hlast
      exact common_prefix_gt _hb hlast
    have hsub : remaining common node.2 ≤ remaining common (first::group) :=
      remaining_sublist (split_terminal_sublist common (first::group))
    have hdeep := remaining_deeper hc (first::group) fun n hn => continues_length (hgroup n hn)
    have hle : remaining depth (first::group) ≤ remaining depth (first::more) :=
      remaining_sublist ((List.takeWhile_sublist _).cons_cons first)
    have hpos : 0 < (first::group).length := by simp
    exact Nat.lt_of_le_of_lt hsub (by omega)
  · have hfirst : depth < first.1.length := continues_length (b := b) (by simp [continues, _hb])
    have hle : remaining depth (more.dropWhile (continues depth b)) ≤ remaining depth more :=
      remaining_sublist (List.dropWhile_sublist _)
    simp only [remaining, List.map_cons, List.sum_cons] at hle ⊢
    omega

/-- `build_trie`. -/
def buildTrie (names : List (Name × Export)) (depth : ℕ) : TrieNode :=
  let node := splitTerminal depth names
  ⟨node.1, buildChildren node.2 depth⟩

/-! Numbering. -/

def size : Edges → ℕ
  | .nil => 0
  | .edge _ _ below rest => 1 + size below + size rest

def insertEdge (label : Name) (e : Option Export) (below : Edges) : Edges → Edges
  | .nil => .edge label e below .nil
  | .edge label' e' below' rest =>
    if label ≤ label' then .edge label e below (.edge label' e' below' rest)
    else .edge label' e' below' (insertEdge label e below rest)

/-- Each node's children sorted by label, as `count` leaves them. -/
def sortChildren : Edges → Edges
  | .nil => .nil
  | .edge label e below rest => insertEdge label e (sortChildren below) (sortChildren rest)

/-- A numbered node: its export, and its edges with the child's index. -/
structure Node where
  exported : Option Export
  children : List (Name × ℕ)
  deriving DecidableEq, Inhabited

/-- The labels of the edges with their children's pre-order indices, the
first child's being `base`. -/
def indexed : Edges → ℕ → List (Name × ℕ)
  | .nil, _ => []
  | .edge label _ below rest, base => (label, base) :: indexed rest (base+1+size below)

def fill : Edges → ℕ → List Node
  | .nil, _ => []
  | .edge _ e below rest, base =>
    ⟨e, indexed below (base+1)⟩ :: fill below (base+1) ++ fill rest (base+1+size below)

/-- `number_nodes`: the nodes in pre-order. -/
def numberNodes (root : TrieNode) : List Node :=
  let children := sortChildren root.children
  ⟨root.exported, indexed children 1⟩ :: fill children 1

/-! Placing. -/

/-- A node's size apart from the offsets of its children. -/
def Node.fixed (node : Node) : ℕ :=
  let terminalSize := node.exported.elim 0 Export.terminalSize
  ulebSize terminalSize + terminalSize + 1 + (node.children.map fun c => c.1.length+1).sum

def Node.kids (node : Node) : List ℕ := node.children.map Prod.snd

structure Placement where
  offs : ℕ → ℕ
  sizes : ℕ → ℕ
  order : List ℕ
  total : ℕ

/-- Puts node `i` at the end of what is placed. -/
def Placement.push (p : Placement) (i : ℕ) (node : Node) : Placement :=
  let size := node.fixed + (node.kids.map fun c => ulebSize (p.offs c)).sum
  ⟨Function.update p.offs i p.total, Function.update p.sizes i size, p.order ++ [i],
    p.total+size⟩

/-- The loop of `place_nodes` over its stack of nodes, each with the next
child to visit. -/
def placeLoop (nodes : List Node) : ℕ → List (ℕ × ℕ) → Placement → Option Placement
  | _, [], p => some p
  | 0, _::_, _ => none
  | fuel+1, (i, next)::stack, p => do
    let node ← nodes[i]?
    match node.kids[next]? with
    | some child => placeLoop nodes fuel ((child, 0)::(i, next+1)::stack) p
    | none => placeLoop nodes fuel stack (p.push i node)

/-- The root's placement: room for each child offset at its widest. -/
def placeRoot (root : Node) : Placement :=
  let size := root.fixed + 5*root.kids.length
  ⟨fun _ => 0, Function.update (fun _ => 0) 0 size, [0], size⟩

/-- `place_nodes`. A node is pushed on the stack once for each visit to
it, so the loop takes two turns for each. -/
def placeNodes (nodes : List Node) : Option Placement := do
  let root ← nodes[0]?
  root.kids.foldlM (fun p top => placeLoop nodes (2*nodes.length) [(top, 0)] p) (placeRoot root)

/-! Writing. -/

/-- A terminal's payload after its size. -/
def Export.payload : Export → List UInt8
  | .addr flags address => encodeUleb flags ++ encodeUleb address
  | .reexport ordinal name => encodeUleb flagsReexport ++ encodeUleb ordinal ++ name ++ [0]

def terminalBytes : Option Export → List UInt8
  | none => [0]
  | some e => encodeUleb e.terminalSize ++ e.payload

def edgeBytes (offs : ℕ → ℕ) (child : Name × ℕ) : List UInt8 :=
  child.1 ++ 0 :: encodeUleb (offs child.2)

def nodeBytes (offs : ℕ → ℕ) (node : Node) : List UInt8 :=
  terminalBytes node.exported ++ node.children.length.toUInt8 ::
    node.children.flatMap (edgeBytes offs)

/-- `write_node` into a slice of zeros; `none` if it runs past the
slice's end. -/
def writeNode (offs : ℕ → ℕ) (node : Node) (size : ℕ) : Option (List UInt8) :=
  let bytes := nodeBytes offs node
  if bytes.length ≤ size then some (bytes ++ List.replicate (size-bytes.length) 0) else none

/-- `write_nodes`: the slices in file order. -/
def writeNodes (nodes : List Node) (p : Placement) : Option (List UInt8) := do
  let slices ← p.order.mapM fun i => do writeNode p.offs (← nodes[i]?) (p.sizes i)
  some slices.flatten

/-- `encode_export_trie`, of the exports in name order. -/
def encodeExportTrie (exports : List (Name × Export)) : Option (List UInt8) :=
  if exports = [] then some (List.replicate 8 0)
  else do
    let nodes := numberNodes (buildTrie exports 0)
    let placement ← placeNodes nodes
    let buf ← writeNodes nodes placement
    some (buf ++ List.replicate ((8-buf.length%8)%8) 0)

/-! What `build_trie` builds. -/

/-- Names past the first `depth` bytes ascend. -/
def Ascending (depth : ℕ) (names : List (Name × Export)) : Prop :=
  names.Pairwise fun a b => a.1.drop depth < b.1.drop depth

def suffixes (depth : ℕ) (names : List (Name × Export)) : List (Name × Export) :=
  names.map fun n => (n.1.drop depth, n.2)

theorem zip_takeWhile_prefix (a b : Name) :
    a.take ((a.zip b).takeWhile fun (x, y) => x == y).length =
      b.take ((a.zip b).takeWhile fun (x, y) => x == y).length ∧
    ((a.zip b).takeWhile fun (x, y) => x == y).length ≤ a.length := by
  induction a generalizing b with
  | nil => simp
  | cons x a ih =>
    cases b with
    | nil => simp
    | cons y b =>
      by_cases h : x = y
      · have hi := ih b
        simp [h, hi.1, hi.2]
      · simp [h]

/-- The label of the edge to the group between `first` and `last`. -/
theorem label_split (depth : ℕ) (first last : Name) :
    let common := commonPrefix depth first last
    let label := (first.take common).drop depth
    label.length = common-depth ∧ label ++ first.drop common = first.drop depth ∧
      label ++ last.drop common = last.drop depth := by
  intro common label
  obtain ⟨hp,hk⟩ := zip_takeWhile_prefix (first.drop depth) (last.drop depth)
  have hlabel : label = (first.drop depth).take (common-depth) := List.drop_take
  have hcommon : common = depth + (common-depth) := by
    simp only [common, commonPrefix]
    omega
  have hsub : common-depth =
      (((first.drop depth).zip (last.drop depth)).takeWhile fun (a, b) => a == b).length := by
    simp [common, commonPrefix]
  have htake : (first.drop depth).take (common-depth) = (last.drop depth).take (common-depth) := by
    rw [hsub]
    exact hp
  constructor
  · rw [hlabel, List.length_take, hsub]
    omega
  constructor
  · rw [hlabel, hcommon, ← List.drop_drop, Nat.add_sub_cancel_left]
    exact List.take_append_drop _ _
  · rw [hlabel, htake, hcommon, ← List.drop_drop, Nat.add_sub_cancel_left]
    exact List.take_append_drop _ _

/-- The names of a group start with its label. -/
theorem group_label {depth : ℕ} {first : Name × Export} {group : List (Name × Export)}
    (h : Ascending depth (first::group)) {n : Name × Export} (hn : n ∈ first::group) :
    let common := commonPrefix depth first.1 ((first::group).getLast (List.cons_ne_nil _ _)).1
    n.1.drop depth = (first.1.take common).drop depth ++ n.1.drop common := by
  intro common
  obtain ⟨hlen,hfirst,hlast⟩ := label_split depth first.1
    ((first::group).getLast (List.cons_ne_nil _ _)).1
  have hle : ¬ n.1.drop depth < first.1.drop depth := by
    cases List.mem_cons.1 hn with
    | inl he => exact he ▸ List.lt_irrefl _
    | inr hm => exact List.lt_asymm ((List.pairwise_cons.1 h).1 n hm)
  have hge : ¬ ((first::group).getLast (List.cons_ne_nil _ _)).1.drop depth < n.1.drop depth := by
    have hsplit := List.dropLast_append_getLast (List.cons_ne_nil first group)
    rw [Ascending, ← hsplit, List.pairwise_append] at h
    rw [← hsplit, List.mem_append, List.mem_singleton] at hn
    cases hn with
    | inl hm => exact List.lt_asymm (h.2.2 n hm _ (List.mem_singleton_self _))
    | inr he => exact he ▸ List.lt_irrefl _
  rw [← hfirst] at hle
  rw [← hlast] at hge
  obtain ⟨y,hy⟩ := label_between hle hge
  have hdrop : n.1.drop common = y := by
    have hcommon : common = depth + (common-depth) := by
      simp only [common, commonPrefix]
      omega
    rw [hcommon, ← List.drop_drop, hy, ← hlen, List.drop_left]
  rw [hdrop]
  exact hy

theorem split_suffixes {depth : ℕ} {names : List (Name × Export)} (h : Ascending depth names)
    (hd : ∀ n ∈ names, depth ≤ n.1.length) :
    suffixes depth names = (splitTerminal depth names).1.toList.map (fun e => ([], e)) ++
        suffixes depth (splitTerminal depth names).2 ∧
      Ascending depth (splitTerminal depth names).2 ∧
      ∀ n ∈ (splitTerminal depth names).2, depth < n.1.length := by
  cases names with
  | nil => simp [splitTerminal, suffixes, Ascending]
  | cons first rest =>
    have hlong : ∀ n ∈ rest, depth < n.1.length := by
      intro n hn
      have hlt := (List.pairwise_cons.1 h).1 n hn
      by_contra hle
      rw [List.drop_eq_nil_of_le (show n.1.length ≤ depth by omega)] at hlt
      exact List.not_lt_nil _ hlt
    by_cases hlen : first.1.length = depth
    · have hnil : first.1.drop depth = [] := by simp [← hlen]
      simp only [splitTerminal, hlen, if_true, suffixes, List.map_cons, hnil]
      exact ⟨rfl,(List.pairwise_cons.1 h).2,hlong⟩
    · have hfirst := hd first (by simp)
      simp [splitTerminal, hlen, suffixes]
      exact ⟨h,by omega,fun n e hn => hlong (n, e) hn⟩

theorem ascending_byte {depth : ℕ} {m n : Name} {b c : UInt8} (h : m.drop depth < n.drop depth)
    (hb : m[depth]? = some b) (hc : n[depth]? = some c) : b ≤ c := by
  rw [List.getElem?_eq_some_iff] at hb hc
  obtain ⟨hm,hb⟩ := hb
  obtain ⟨hn,hc⟩ := hc
  rw [List.drop_eq_getElem_cons hm, List.drop_eq_getElem_cons hn, List.cons_lt_cons_iff] at h
  rw [hb, hc] at h
  cases h with
  | inl h => exact UInt8.le_of_lt h
  | inr h => exact UInt8.le_of_eq h.1

/-- The names after a group go on with a greater byte. -/
theorem after_group {depth : ℕ} {b : UInt8} {first : Name × Export} {more : List (Name × Export)}
    (hb : first.1[depth]? = some b) (h : Ascending depth (first::more))
    (hd : ∀ n ∈ more, depth < n.1.length) {n : Name × Export}
    (hn : n ∈ more.dropWhile (continues depth b)) {c : UInt8} (hc : n.1[depth]? = some c) :
    b < c := by
  induction more with
  | nil => simp at hn
  | cons m more ih =>
    obtain ⟨hfirst,hrest⟩ := List.pairwise_cons.1 h
    by_cases hm : continues depth b m
    · rw [List.dropWhile_cons_of_pos hm] at hn
      apply ih _ (fun n hn => hd n (by simp [hn])) hn
      exact List.pairwise_cons.2 ⟨fun n hn => hfirst n (by simp [hn]),(List.pairwise_cons.1 hrest).2⟩
    · -- `m` is the first name past the group; no later name goes on with less
      rw [List.dropWhile_cons_of_neg hm] at hn
      obtain ⟨d,hmd⟩ : ∃ d, m.1[depth]? = some d :=
        ⟨_,List.getElem?_eq_getElem (hd m (by simp))⟩
      have hbd : b ≤ d := ascending_byte (hfirst m (by simp)) hb hmd
      have hne : d ≠ b := by
        intro he
        exact hm (by simp [continues, hmd, he])
      have hdc : d ≤ c := by
        cases List.mem_cons.1 hn with
        | inl he =>
          rw [he, hmd, Option.some.injEq] at hc
          exact UInt8.le_of_eq hc
        | inr hmem => exact ascending_byte ((List.pairwise_cons.1 hrest).1 n hmem) hmd hc
      have hbd' : b < d := UInt8.lt_of_le_of_ne hbd hne.symm
      exact UInt8.lt_of_lt_of_le hbd' hdc

/-- The edges of a run start with the bytes its names go on with. -/
theorem heads_build (names : List (Name × Export)) (depth : ℕ) :
    ∀ a ∈ (buildChildren names depth).heads, ∃ n ∈ names, n.1[depth]? = some a := by
  fun_induction buildChildren names depth with
  | case1 => simp [Forest.heads]
  | case2 => simp [Forest.heads]
  | case3 depth first more b hb group last common node _ ih =>
    intro a ha
    simp only [Forest.heads, List.mem_append] at ha
    cases ha with
    | inl h =>
      rw [List.head?_drop, List.getElem?_take] at h
      split at h
      · exact ⟨first,by simp,by simpa using h⟩
      · simp at h
    | inr h =>
      obtain ⟨n,hn,hna⟩ := ih a h
      exact ⟨n,List.mem_cons_of_mem _ ((List.dropWhile_sublist _).mem hn),hna⟩

theorem build_labels (names : List (Name × Export)) (depth : ℕ)
    (h : ∀ n ∈ names, (0 : UInt8) ∉ n.1) :
    (buildChildren names depth).Labels fun label => (0 : UInt8) ∉ label := by
  fun_induction buildChildren names depth with
  | case1 => trivial
  | case2 => trivial
  | case3 depth first more b hb group last common node ihb ihr =>
    have hgroup : ∀ n ∈ first::group, n ∈ first::more :=
      fun n hn => ((List.takeWhile_sublist _).cons_cons first).mem hn
    constructor
    · intro hz
      exact h first (by simp) (List.mem_of_mem_take (List.mem_of_mem_drop hz))
    constructor
    · exact ihb fun n hn => h n (hgroup n ((split_terminal_sublist _ _).mem hn))
    · exact ihr fun n hn => h n (List.mem_cons_of_mem _ ((List.dropWhile_sublist _).mem hn))

/-- The trie of a sorted run is ordered and stands for the run. -/
theorem build_entries (names : List (Name × Export)) (depth : ℕ) (h : Ascending depth names)
    (hd : ∀ n ∈ names, depth < n.1.length) :
    (buildChildren names depth).Ordered ∧
      (buildChildren names depth).entries = suffixes depth names := by
  fun_induction buildChildren names depth with
  | case1 => exact ⟨trivial,rfl⟩
  | case2 depth first more hb =>
    have := hd first (by simp)
    rw [List.getElem?_eq_none_iff] at hb
    omega
  | case3 depth first more b hb group last common node ihb ihr =>
    have hmore : group ++ more.dropWhile (continues depth b) = more := List.takeWhile_append_dropWhile
    have hsub : (first::group).Sublist (first::more) := (List.takeWhile_sublist _).cons_cons first
    have hasc : Ascending depth (first::group) := h.sublist hsub
    have hafter : Ascending depth (more.dropWhile (continues depth b)) :=
      (List.pairwise_cons.1 h).2.sublist (List.dropWhile_sublist _)
    have hlabel : ∀ n ∈ first::group, n.1.drop depth = (first.1.take common).drop depth ++
        n.1.drop common := fun n hn => group_label hasc hn
    have hlast : last.1[depth]? = some b := by
      have hlm : last ∈ first::group := List.getLast_mem _
      cases List.mem_cons.1 hlm with
      | inl he => rw [he, hb]
      | inr hm => simpa [continues] using mem_takeWhile_continues hm
    have hgt : depth < common := common_prefix_gt hb hlast
    have hlen : ((first.1.take common).drop depth).length = common-depth :=
      (label_split depth first.1 last.1).1
    have hasc' : Ascending common (first::group) := by
      apply List.Pairwise.imp_of_mem _ hasc
      intro m n hm hn hmn
      rw [hlabel m hm, hlabel n hn, append_lt_append] at hmn
      exact hmn
    have hcommon : ∀ n ∈ first::group, common ≤ n.1.length := by
      intro n hn
      have := congrArg List.length (hlabel n hn)
      rw [List.length_append, hlen, List.length_drop, List.length_drop] at this
      have := hd n (hsub.mem hn)
      omega
    obtain ⟨hsplit,hsplitAsc,hsplitLong⟩ := split_suffixes hasc' hcommon
    obtain ⟨hordb,hentb⟩ := ihb hsplitAsc hsplitLong
    obtain ⟨hordr,hentr⟩ := ihr hafter
      fun n hn => hd n (List.mem_cons_of_mem _ ((List.dropWhile_sublist _).mem hn))
    constructor
    · constructor
      · have hhead : ((first.1.take common).drop depth).head? = some b := by
          rw [List.head?_drop, List.getElem?_take, if_pos hgt, hb]
        have hnext : ∀ a ∈ (buildChildren (more.dropWhile (continues depth b)) depth).heads,
            b < a := by
          intro a ha
          obtain ⟨n,hn,hna⟩ := heads_build _ _ a ha
          exact after_group hb h (fun n hn => hd n (by simp [hn])) hn hna
        exact ⟨b,hhead,hnext⟩
      · exact ⟨hordb,hordr⟩
    · have hgroup : suffixes depth (first::group) = (suffixes common (first::group)).map
          fun e => ((first.1.take common).drop depth ++ e.1, e.2) := by
        simp only [suffixes, List.map_map]
        apply List.map_congr_left
        intro n hn
        rw [Function.comp, hlabel n hn]
      have hall : suffixes depth (first::more) = suffixes depth (first::group) ++
          suffixes depth (more.dropWhile (continues depth b)) := by
        conv_lhs => rw [← hmore]
        simp [suffixes]
      rw [Forest.entries, hentb, hentr, hall, hgroup, hsplit]
      simp only [List.map_append, List.map_map, Function.comp_def, List.append_nil]
      rfl

theorem sort_ordered {f : Edges} (h : f.Ordered) : sortChildren f = f := by
  induction f with
  | nil => rfl
  | edge label e below rest ihb ihr =>
    obtain ⟨⟨a,ha,hlt⟩,hb,hr⟩ := h
    rw [sortChildren, ihb hb, ihr hr]
    cases rest with
    | nil => rfl
    | edge label' e' below' rest' =>
      obtain ⟨a',ha',_⟩ := hr.1
      have haa : a < a' := hlt a' (by simp [Forest.heads, ha'])
      rw [insertEdge, if_pos]
      rw [List.head?_eq_some_iff] at ha ha'
      obtain ⟨l,rfl⟩ := ha
      obtain ⟨l',rfl⟩ := ha'
      exact List.le_of_lt (List.cons_lt_cons_iff.2 (.inl haa))

end MoldMacho.ExportTrie
