import MoldMacho.Chunks.ExportTrie
import MoldMacho.Lib.Lists

/-!
# Where the export trie's nodes lie

The placement loop takes the nodes of a numbered trie in post-order. What
it has placed is laid out end to end, each node in a slice of its size
whose children lie in it already, so that writing a node never leaves its
slice and the trie holds each node's bytes at its offset.
-/

set_option autoImplicit false

namespace MoldMacho.ExportTrie
open MoldMacho.RadixTree MoldMacho.Leb128 MoldMacho.Lists

/-! Sizes. -/

theorem terminal_bytes_length (e : Option Export) :
    (terminalBytes e).length = ulebSize (e.elim 0 Export.terminalSize) +
      e.elim 0 Export.terminalSize := by
  cases e with
  | none => simp [terminalBytes, ulebSize]
  | some e =>
    cases e with
    | addr flags address =>
      simp [terminalBytes, Export.payload, Export.terminalSize, encode_uleb_length]
    | reexport ordinal name =>
      simp [terminalBytes, Export.payload, Export.terminalSize, encode_uleb_length]
      omega

theorem node_bytes_length (offs : ℕ → ℕ) (node : Node) :
    (nodeBytes offs node).length =
      node.fixed + (node.kids.map fun c => ulebSize (offs c)).sum := by
  have hedges : (node.children.flatMap (edgeBytes offs)).length =
      (node.children.map fun c => c.1.length+1).sum +
        (node.kids.map fun c => ulebSize (offs c)).sum := by
    unfold Node.kids
    induction node.children with
    | nil => rfl
    | cons c children ih =>
      simp only [List.flatMap_cons, List.length_append, List.map_cons, List.sum_cons, ih]
      simp only [edgeBytes, List.length_append, List.length_cons, encode_uleb_length]
      omega
  simp only [nodeBytes, List.length_append, List.length_cons, hedges, terminal_bytes_length,
    Node.fixed]
  omega

theorem node_bytes_congr {offs offs' : ℕ → ℕ} {node : Node}
    (h : ∀ c ∈ node.kids, offs c = offs' c) : nodeBytes offs node = nodeBytes offs' node := by
  have hedges : node.children.flatMap (edgeBytes offs) = node.children.flatMap (edgeBytes offs') := by
    apply List.flatMap_congr
    intro c hc
    rw [edgeBytes, edgeBytes, h c.2 (List.mem_map_of_mem hc)]
  rw [nodeBytes, nodeBytes, hedges]

/-! Numbers. -/

theorem fill_length (f : Edges) (base : ℕ) : (fill f base).length = size f := by
  induction f generalizing base with
  | nil => rfl
  | edge label e below rest ihb ihr =>
    simp [fill, size, ihb, ihr]
    omega

theorem indexed_range {f : Edges} (base : ℕ) {c : ℕ} (h : c ∈ (indexed f base).map Prod.snd) :
    base ≤ c ∧ c < base+size f := by
  induction f generalizing base with
  | nil => simp [indexed] at h
  | edge label e below rest _ ihr =>
    simp only [indexed, List.map_cons, List.mem_cons] at h
    cases h with
    | inl h =>
      simp only [size]
      omega
    | inr h =>
      have := ihr _ h
      simp only [size]
      omega

/-- `nodes` holds the nodes of `f` from index `base` on. -/
def Holds (nodes : List Node) (f : Edges) (base : ℕ) : Prop :=
  ∀ (j : ℕ) (node : Node), (fill f base)[j]? = some node → nodes[base+j]? = some node

theorem holds_edge {nodes : List Node} {label : Name} {e : Option Export} {below rest : Edges}
    {base : ℕ} (h : Holds nodes (.edge label e below rest) base) :
    nodes[base]? = some ⟨e, indexed below (base+1)⟩ ∧ Holds nodes below (base+1) ∧
      Holds nodes rest (base+1+size below) := by
  constructor
  · exact h 0 _ rfl
  constructor
  · intro j node hj
    have hlt : j < (fill below (base+1)).length := by
      rw [List.getElem?_eq_some_iff] at hj
      exact hj.choose
    have := h (1+j) node (by simp [fill, Nat.add_comm 1, List.getElem?_append_left hlt, hj])
    rwa [← Nat.add_assoc] at this
  · intro j node hj
    have hidx : (fill (.edge label e below rest) base)[size below+j+1]? =
        (fill rest (base+1+size below))[j]? := by
      rw [fill, List.cons_append, List.getElem?_cons_succ,
        List.getElem?_append_right (by rw [fill_length]; omega), fill_length,
        Nat.add_sub_cancel_left]
    have := h (size below+j+1) node (hidx.trans hj)
    rwa [show base+(size below+j+1) = base+1+size below+j by omega] at this

theorem holds_size {nodes : List Node} {f : Edges} {base : ℕ} (h : Holds nodes f base) :
    f = .nil ∨ base+size f ≤ nodes.length := by
  cases f with
  | nil => exact .inl rfl
  | edge label e below rest =>
    have hlen := fill_length (.edge label e below rest) base
    have hlt : size (.edge label e below rest)-1 < (fill (.edge label e below rest) base).length := by
      simp only [hlen, size]
      omega
    have := h _ _ (List.getElem?_eq_getElem hlt)
    rw [List.getElem?_eq_some_iff] at this
    have := this.choose
    simp only [size] at this ⊢
    omega

/-! The loop. -/

/-- The nodes of `f` placed, each after those below it. -/
def placeForest : Edges → ℕ → Placement → Placement
  | .nil, _, p => p
  | .edge _ e below rest, base, p =>
    placeForest rest (base+1+size below)
      ((placeForest below (base+1) p).push base ⟨e, indexed below (base+1)⟩)

/-- The loop places the children left to visit at the top of its stack. -/
theorem loop_forest {nodes : List Node} (f : Edges) (base : ℕ) (h : Holds nodes f base)
    {i next : ℕ} {node : Node} (hi : nodes[i]? = some node)
    (hkids : node.kids.drop next = (indexed f base).map Prod.snd) (fuel : ℕ)
    (stack : List (ℕ × ℕ)) (p : Placement) :
    placeLoop nodes (fuel+2*size f) ((i, next)::stack) p =
      placeLoop nodes fuel ((i, next+(indexed f base).length)::stack) (placeForest f base p) := by
  induction f generalizing base i next node fuel stack p with
  | nil => rfl
  | edge label e below rest ihb ihr =>
    obtain ⟨hbase,hbelow,hrest⟩ := holds_edge h
    have hnext : node.kids[next]? = some base := by
      rw [← List.head?_drop, hkids]
      rfl
    have hkids' : node.kids.drop (next+1) =
        (indexed rest (base+1+size below)).map Prod.snd := by
      rw [← List.drop_drop, hkids]
      rfl
    have hfuel : fuel+2*size (.edge label e below rest) =
        (fuel+2*size rest+1)+2*size below+1 := by
      simp only [size]
      omega
    have hdone : (Node.kids ⟨e, indexed below (base+1)⟩)[(indexed below (base+1)).length]? = none := by
      simp [Node.kids]
    rw [hfuel, placeLoop, hi, Option.bind_eq_bind, Option.bind_some, hnext]
    simp only
    rw [ihb (base+1) hbelow hbase rfl, Nat.zero_add, placeLoop, hbase, Option.bind_eq_bind,
      Option.bind_some, hdone]
    simp only
    rw [ihr _ hrest hi hkids']
    simp [indexed, placeForest, Nat.add_assoc, Nat.add_comm 1]

theorem place_tops {nodes : List Node} (f : Edges) (base : ℕ) (h : Holds nodes f base)
    (hbase : 0 < base) (p : Placement) :
    ((indexed f base).map Prod.snd).foldlM
        (fun p top => placeLoop nodes (2*nodes.length) [(top, 0)] p) p =
      some (placeForest f base p) := by
  induction f generalizing base p with
  | nil => rfl
  | edge label e below rest _ ihr =>
    obtain ⟨hb,hbelow,hrest⟩ := holds_edge h
    have hlen : base+size (.edge label e below rest) ≤ nodes.length := by
      cases holds_size h with
      | inl h => contradiction
      | inr h => exact h
    have hfuel : 2*nodes.length = 2*(nodes.length-size below-1)+1+1+2*size below := by
      simp only [size] at hlen
      omega
    have hdone : (Node.kids ⟨e, indexed below (base+1)⟩)[(indexed below (base+1)).length]? = none := by
      simp [Node.kids]
    have htop : placeLoop nodes (2*nodes.length) [(base, 0)] p =
        some ((placeForest below (base+1) p).push base ⟨e, indexed below (base+1)⟩) := by
      rw [hfuel, loop_forest below (base+1) hbelow hb rfl, Nat.zero_add, placeLoop, hb,
        Option.bind_eq_bind, Option.bind_some, hdone]
      simp [placeLoop]
    rw [indexed, List.map_cons, List.foldlM_cons, htop, Option.bind_eq_bind, Option.bind_some,
      ihr _ hrest (by omega)]
    rfl

/-! What is placed. -/

/-- The nodes placed lie end to end in file order, each but the root in a
slice of its own size and after its children. -/
structure Laid (nodes : List Node) (p : Placement) : Prop where
  nodup : p.order.Nodup
  total : p.total = (p.order.map p.sizes).sum
  offs : ∀ pre i post, p.order = pre ++ i::post → p.offs i = (pre.map p.sizes).sum
  fits : ∀ i ∈ p.order, ∃ node, nodes[i]? = some node ∧
    (i ≠ 0 → p.sizes i = (nodeBytes p.offs node).length ∧ ∀ c ∈ node.kids, c ∈ p.order)

theorem push_old (p : Placement) (i : ℕ) (node : Node) {j : ℕ} (h : j ≠ i) :
    (p.push i node).offs j = p.offs j ∧ (p.push i node).sizes j = p.sizes j := by
  simp [Placement.push, h]

theorem push_sizes (p : Placement) (i : ℕ) (node : Node) {l : List ℕ} (h : i ∉ l) :
    l.map (p.push i node).sizes = l.map p.sizes := by
  apply List.map_congr_left
  intro j hj
  exact (push_old p i node (fun e => h (e ▸ hj))).2

theorem push_size (p : Placement) (i : ℕ) (node : Node) :
    (p.push i node).sizes i = (nodeBytes p.offs node).length := by
  simp [Placement.push, node_bytes_length]

theorem push_order (p : Placement) (i : ℕ) (node : Node) :
    (p.push i node).order = p.order ++ [i] := rfl

/-- Placing a node after its children keeps the layout. -/
theorem push_laid {nodes : List Node} {p : Placement} (hp : Laid nodes p) {i : ℕ} {node : Node}
    (hnode : nodes[i]? = some node) (hi : i ∉ p.order) (hkids : ∀ c ∈ node.kids, c ∈ p.order) :
    Laid nodes (p.push i node) where
  nodup := by
    rw [push_order]
    exact List.Nodup.append hp.nodup (List.nodup_singleton i) (by simpa using hi)
  total := by
    rw [push_order, List.map_append, push_sizes p i node hi, List.sum_append, ← hp.total]
    simp [Placement.push]
  offs := by
    intro pre j post horder
    rw [push_order] at horder
    rcases List.eq_nil_or_concat post with rfl | ⟨post',k,rfl⟩
    · have hlast := List.append_inj' horder rfl
      rw [← hlast.1, push_sizes p i node hi, ← hp.total]
      simp only [List.cons.injEq, and_true] at hlast
      simp [Placement.push, hlast.2]
    · rw [List.concat_eq_append, ← List.cons_append, ← List.append_assoc] at horder
      have hold := List.append_inj' horder rfl
      have hpre : i ∉ pre := fun hm => hi (by simp [hold.1, hm])
      have hj : j ≠ i := by
        intro he
        exact hi (by simp [hold.1, he])
      rw [push_sizes p i node hpre, (push_old p i node hj).1]
      exact hp.offs pre j post' hold.1
  fits := by
    intro j hj
    rw [push_order, List.mem_append, List.mem_singleton] at hj
    have hsame : ∀ n : Node, (∀ c ∈ n.kids, c ∈ p.order) →
        nodeBytes (p.push i node).offs n = nodeBytes p.offs n := by
      intro n hn
      apply node_bytes_congr
      intro c hc
      exact (push_old p i node (fun e => hi (e ▸ hn c hc))).1
    cases hj with
    | inl hj =>
      obtain ⟨n,hn,hfits⟩ := hp.fits j hj
      have hji : j ≠ i := fun e => hi (e ▸ hj)
      constructor
      · constructor
        · exact hn
        · intro h0
          obtain ⟨hsize,hk⟩ := hfits h0
          rw [(push_old p i node hji).2, hsame n hk]
          exact ⟨hsize,fun c hc => by simp [push_order, hk c hc]⟩
    | inr hj =>
      subst hj
      constructor
      · constructor
        · exact hnode
        · intro _
          rw [push_size, hsame node hkids]
          exact ⟨rfl,fun c hc => by simp [push_order, hkids c hc]⟩

/-- Placing a forest keeps the layout and adds its nodes. -/
theorem forest_laid {nodes : List Node} (f : Edges) (base : ℕ) (h : Holds nodes f base)
    {p : Placement} (hp : Laid nodes p)
    (hnew : ∀ i ∈ p.order, i < base ∨ base+size f ≤ i) :
    Laid nodes (placeForest f base p) ∧
      (∀ i, i ∈ (placeForest f base p).order ↔ i ∈ p.order ∨ base ≤ i ∧ i < base+size f) ∧
      ∀ i ∈ p.order, (placeForest f base p).offs i = p.offs i ∧
        (placeForest f base p).sizes i = p.sizes i := by
  induction f generalizing base p with
  | nil =>
    refine ⟨hp,?_,?_⟩
    · intro i
      exact ⟨.inl,fun h => h.resolve_right (by simp only [size]; omega)⟩
    · intro i _
      exact ⟨rfl,rfl⟩
  | edge label e below rest ihb ihr =>
    obtain ⟨hnode,hbelow,hrest⟩ := holds_edge h
    simp only [size] at hnew
    obtain ⟨hlaid,hmem,hsame⟩ := ihb (base+1) hbelow hp fun i hi => by
      have := hnew i hi
      omega
    have hbase : base ∉ (placeForest below (base+1) p).order := by
      intro hm
      rcases (hmem base).1 hm with hold | hin
      · have := hnew base hold
        omega
      · omega
    have hlaid' := push_laid hlaid hnode hbase (by
      intro c hc
      have := indexed_range (base+1) hc
      exact (hmem c).2 (.inr this))
    have hmem' : ∀ i, i ∈ ((placeForest below (base+1) p).push base
          ⟨e, indexed below (base+1)⟩).order ↔
        i ∈ p.order ∨ base ≤ i ∧ i < base+1+size below := by
      intro i
      rw [push_order, List.mem_append, List.mem_singleton, hmem, or_assoc]
      exact or_congr Iff.rfl (by omega)
    obtain ⟨hl,hm,hs⟩ := ihr (base+1+size below) hrest hlaid' fun i hi => by
      rcases (hmem' i).1 hi with hold | hin
      · have := hnew i hold
        omega
      · omega
    refine ⟨hl,?_,?_⟩
    · intro i
      rw [placeForest, hm, hmem', or_assoc]
      simp only [size]
      exact or_congr Iff.rfl (by omega)
    · intro i hi
      have hib : i ≠ base := by
        have := hnew i hi
        omega
      obtain ⟨ho,hz⟩ := hs i ((hmem' i).2 (.inl hi))
      obtain ⟨ho',hz'⟩ := push_old (placeForest below (base+1) p) base
        ⟨e, indexed below (base+1)⟩ hib
      rw [placeForest, ho, hz, ho', hz']
      exact hsame i hi

theorem forest_order (f : Edges) (base : ℕ) (p : Placement) :
    p.order <+: (placeForest f base p).order := by
  induction f generalizing base p with
  | nil => exact List.prefix_refl _
  | edge label e below rest ihb ihr =>
    have hb := ihb (base+1) p
    have hr := ihr (base+1+size below)
      ((placeForest below (base+1) p).push base ⟨e, indexed below (base+1)⟩)
    rw [push_order] at hr
    exact hb.trans ((List.prefix_append _ _).trans hr)

theorem holds_numbered (root : TrieNode) :
    Holds (numberNodes root) (sortChildren root.children) 1 := by
  intro j node hj
  rw [numberNodes, Nat.add_comm, List.getElem?_cons_succ]
  exact hj

theorem root_laid {nodes : List Node} {root : Node} (h : nodes[0]? = some root) :
    Laid nodes (placeRoot root) where
  nodup := List.nodup_singleton 0
  total := by simp [placeRoot]
  offs := by
    intro pre i post horder
    cases pre with
    | nil => rfl
    | cons j pre => simp [placeRoot] at horder
  fits := by
    intro i hi
    have h0 : i = 0 := by simpa [placeRoot] using hi
    exact ⟨root,h0 ▸ h,fun hne => absurd h0 hne⟩

/-- `place_nodes` places every node, the root first. -/
theorem place_nodes_laid (root : TrieNode) :
    ∃ p rest, placeNodes (numberNodes root) = some p ∧ Laid (numberNodes root) p ∧
      p.order = 0::rest ∧ (∀ i node, (numberNodes root)[i]? = some node → i ∈ p.order) ∧
      ∀ node, (numberNodes root)[0]? = some node →
        p.sizes 0 = node.fixed+5*node.kids.length ∧ ∀ c ∈ node.kids, c ∈ p.order := by
  have hroot : (numberNodes root)[0]? =
      some ⟨root.exported, indexed (sortChildren root.children) 1⟩ := rfl
  have hlaid := root_laid hroot
  obtain ⟨hl,hm,hs⟩ := forest_laid _ 1 (holds_numbered root) hlaid fun i hi => by
    have h0 : i = 0 := by simpa [placeRoot] using hi
    omega
  obtain ⟨rest,hrest⟩ := forest_order (sortChildren root.children) 1
    (placeRoot ⟨root.exported, indexed (sortChildren root.children) 1⟩)
  refine ⟨_,rest,?_,hl,hrest.symm,?_,?_⟩
  · rw [placeNodes, hroot, Option.bind_eq_bind, Option.bind_some]
    exact place_tops _ 1 (holds_numbered root) Nat.one_pos _
  · intro i node hi
    rw [List.getElem?_eq_some_iff] at hi
    have hlt := hi.choose
    simp only [numberNodes, List.length_cons, fill_length] at hlt
    rw [hm]
    cases i with
    | zero => exact .inl (by simp [placeRoot])
    | succ i => exact .inr (by omega)
  · intro node hnode
    rw [hroot, Option.some.injEq] at hnode
    subst hnode
    constructor
    · rw [(hs 0 (by simp [placeRoot])).2]
      simp [placeRoot]
    · intro c hc
      exact (hm c).2 (.inr (indexed_range 1 hc))

/-! What is written. -/

/-- The slice of node `i` once written. -/
def slice (nodes : List Node) (p : Placement) (i : ℕ) : List UInt8 :=
  let bytes := nodeBytes p.offs (nodes[i]?.getD default)
  bytes ++ List.replicate (p.sizes i-bytes.length) 0

theorem offs_lt {nodes : List Node} {p : Placement} (hp : Laid nodes p) {i : ℕ}
    (hi : i ∈ p.order) : p.offs i + p.sizes i ≤ p.total := by
  obtain ⟨pre,post,horder⟩ := List.append_of_mem hi
  rw [hp.total, hp.offs pre i post horder, horder, List.map_append, List.sum_append, List.map_cons,
    List.sum_cons]
  omega

/-- No node is written past the slice placed for it: the root's offsets
take at most the bytes kept for them. -/
theorem node_fits {nodes : List Node} {p : Placement} (hp : Laid nodes p)
    (hroot : ∀ node, nodes[0]? = some node →
      p.sizes 0 = node.fixed+5*node.kids.length ∧ ∀ c ∈ node.kids, c ∈ p.order)
    (htotal : p.total < 2^32) {i : ℕ} {node : Node} (hi : i ∈ p.order)
    (hnode : nodes[i]? = some node) : (nodeBytes p.offs node).length ≤ p.sizes i := by
  by_cases h0 : i = 0
  · subst h0
    obtain ⟨hsize,hkids⟩ := hroot node hnode
    have hsum : (node.kids.map fun c => ulebSize (p.offs c)).sum ≤ 5*node.kids.length := by
      have hle : ∀ n ∈ node.kids.map (fun c => ulebSize (p.offs c)), n ≤ 5 := by
        intro n hn
        obtain ⟨c,hc,rfl⟩ := List.mem_map.1 hn
        have hoff := offs_lt hp (hkids c hc)
        exact uleb_size_le 5 _ (by decide) (by omega)
      have := List.sum_le_card_nsmul _ 5 hle
      simpa [Nat.mul_comm] using this
    rw [node_bytes_length, hsize]
    omega
  · obtain ⟨n,hn,hfits⟩ := hp.fits i hi
    rw [hnode, Option.some.injEq] at hn
    subst hn
    exact ((hfits h0).1).ge

/-- The trie `write_nodes` writes holds each node's bytes at its offset,
which no node but the root has at 0. -/
theorem written {root : TrieNode}
    (htotal : ∀ p, placeNodes (numberNodes root) = some p → p.total < 2^32) :
    ∃ p buf, placeNodes (numberNodes root) = some p ∧
      writeNodes (numberNodes root) p = some buf ∧ p.offs 0 = 0 ∧
      ∀ i node, (numberNodes root)[i]? = some node →
        (nodeBytes p.offs node).length ≤ p.sizes i ∧
        (∃ tail, buf.drop (p.offs i) = nodeBytes p.offs node ++ tail) ∧
        p.offs i ≤ buf.length ∧ (i ≠ 0 → p.offs i ≠ 0) := by
  obtain ⟨p,rest,hplace,hlaid,horder,hall,hroot⟩ := place_nodes_laid root
  have hfits : ∀ i node, (numberNodes root)[i]? = some node →
      (nodeBytes p.offs node).length ≤ p.sizes i :=
    fun i node hnode => node_fits hlaid hroot (htotal p hplace) (hall i node hnode) hnode
  have hslice : ∀ i ∈ p.order, (do writeNode p.offs (← (numberNodes root)[i]?) (p.sizes i)) =
      some (slice (numberNodes root) p i) := by
    intro i hi
    obtain ⟨node,hnode,_⟩ := hlaid.fits i hi
    simp [hnode, writeNode, hfits i node hnode, slice]
  have hlen : ∀ i ∈ p.order, (slice (numberNodes root) p i).length = p.sizes i := by
    intro i hi
    obtain ⟨node,hnode,_⟩ := hlaid.fits i hi
    have := hfits i node hnode
    simp [hnode, slice]
    omega
  have hlens : ∀ l : List ℕ, (∀ i ∈ l, i ∈ p.order) →
      (l.map (slice (numberNodes root) p)).flatten.length = (l.map p.sizes).sum := by
    intro l hl
    rw [List.length_flatten, List.map_map]
    congr 1
    apply List.map_congr_left
    intro i hi
    exact hlen i (hl i hi)
  refine ⟨p,(p.order.map (slice (numberNodes root) p)).flatten,hplace,?_,?_,?_⟩
  · rw [writeNodes, mapM_some hslice]
    rfl
  · exact hlaid.offs [] 0 rest horder
  · intro i node hnode
    obtain ⟨pre,post,hsplit⟩ := List.append_of_mem (hall i node hnode)
    have hoff : p.offs i = (pre.map p.sizes).sum := hlaid.offs pre i post hsplit
    have hpre : (pre.map (slice (numberNodes root) p)).flatten.length = p.offs i := by
      rw [hlens pre (fun j hj => by simp [hsplit, hj]), hoff]
    refine ⟨hfits i node hnode,?_,?_,?_⟩
    · constructor
      · rw [hsplit, List.map_append, List.flatten_append, ← hpre, List.drop_left, List.map_cons,
          List.flatten_cons, slice, hnode, Option.getD_some, List.append_assoc]
    · rw [hsplit, List.map_append, List.flatten_append, List.length_append, hpre]
      omega
    · intro h0 hzero
      -- the root comes first and takes at least a byte
      cases pre with
      | nil =>
        rw [horder, List.nil_append, List.cons.injEq] at hsplit
        exact h0 hsplit.1.symm
      | cons j pre =>
        rw [horder, List.cons_append, List.cons.injEq] at hsplit
        rw [hoff, ← hsplit.1, List.map_cons, List.sum_cons] at hzero
        have := (hroot _ rfl).1
        simp only [Node.fixed] at this
        omega

end MoldMacho.ExportTrie
