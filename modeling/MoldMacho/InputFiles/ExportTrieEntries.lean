import Mathlib.Order.Interval.Finset.Nat
import MoldMacho.Chunks.ExportTrieWalk
import MoldMacho.Lib.Bytes
import MoldMacho.Lib.Walk

/-!
# Reading an export trie

The linker reads all names of a dylib's export trie by following child
offsets from the root with a stack. The file is not trusted: offsets and
sizes may point anywhere.
-/

set_option autoImplicit false

namespace MoldMacho.ExportTrieEntries
open MoldMacho.RadixTree MoldMacho.Leb128 MoldMacho.Bytes MoldMacho.ExportTrie MoldMacho.Walk

/-! The reader. Offsets are 64-bit words and wrap. -/

/-- A ULEB128 number, which the slice's end ends too, and the bytes it
takes; bits past the word's come back at its start. -/
def readUleb : ℕ → List UInt8 → UInt64 × ℕ
  | _, [] => (0,0)
  | shift, b::bytes =>
    let group := (b &&& 0x7f).toUInt64 <<< UInt64.ofNat (shift%64)
    if b &&& 0x80 = 0 then (group,1)
    else
      let rest := readUleb (shift+7) bytes
      (group ||| rest.1,rest.2+1)

/-- Where the label at `pos` ends: at a NUL or at the trie's end. -/
def labelEnd (trie : List UInt8) (pos : ℕ) : ℕ :=
  pos+((trie.drop pos).takeWhile (· ≠ 0)).length

/-- The child records of a node, `n` of them at `pos`; `none` is a slice
from past the trie's end. -/
def readChildren (trie : List UInt8) : ℕ → ℕ → Option (List (Name × ℕ))
  | 0, _ => some []
  | n+1, pos =>
    if trie.length < pos then none
    else
      let stop := labelEnd trie pos
      let child := readUleb 0 (trie.drop (stop+1))
      (readChildren trie n (stop+1+child.2)).map fun kids =>
        ((trie.drop pos).takeWhile (· ≠ 0),child.1.toNat)::kids

/-- The flags of the name that ends at a node, if one does, and where the
node's child count is. -/
def nodeHeader (trie : List UInt8) (node : ℕ) : Option UInt64 × ℕ :=
  let terminal := readUleb 0 (trie.drop node)
  let pos := node+terminal.2
  if terminal.1 > 0 then
    (some (readUleb 0 (trie.drop pos)).1,(pos+terminal.1.toNat)%2^64)
  else (none,pos)

def readNode (trie : List UInt8) (node : ℕ) : Option (Option UInt64 × List (Name × ℕ)) :=
  if trie.length ≤ node then some (none,[])
  else
    let header := nodeHeader trie node
    match trie[header.2]? with
    | none => some (header.1,[])
    | some nchildren =>
      (readChildren trie nchildren.toNat (header.2+1)).map fun kids => (header.1,kids)

/-- A stack entry, a node and the name up to it: the names it adds and the
entries it pushes. -/
def expandNode (trie : List UInt8) (item : ℕ × Name) :
    Option (List (Name × UInt64) × List (ℕ × Name)) :=
  (readNode trie item.1).map fun out =>
    (out.1.toList.map fun flags => (item.2,flags),
      out.2.map fun kid => (kid.2,item.2 ++ kid.1))

/-- `export_trie_entries`, through at most `fuel` nodes. -/
def exportTrieEntries (trie : List UInt8) (fuel : ℕ) : Option (Option (List (Name × UInt64))) :=
  walk (expandNode trie) fuel [(0,[])] []

/-- The reader returns. -/
def Returns (trie : List UInt8) : Prop :=
  ∃ fuel names, exportTrieEntries trie fuel = some (some names)

/-! When it returns. -/

/-- The nodes a node's child records point to. -/
def childNodes (trie : List UInt8) (node : ℕ) : Option (List ℕ) :=
  (readNode trie node).map fun out => out.2.map Prod.snd

theorem expand_child_nodes (trie : List UInt8) (item : ℕ × Name) :
    ((expandNode trie item).map Prod.snd).map (List.map Prod.fst) = childNodes trie item.1 := by
  cases h : readNode trie item.1 with
  | none => simp [expandNode, childNodes, h]
  | some out => simp [expandNode, childNodes, h, Function.comp_def]

theorem child_nodes_edge {trie : List UInt8} {a b : ℕ} (h : Edge (childNodes trie) a b) :
    a < trie.length := by
  by_contra hle
  obtain ⟨kids,hk,hm⟩ := h
  have hnone : readNode trie a = some (none,[]) := by
    rw [readNode, if_pos (not_lt.1 hle)]
  rw [childNodes, hnone, Option.map_some, Option.some.injEq] at hk
  subst hk
  simp at hm

theorem read_uleb_length (shift : ℕ) (bytes : List UInt8) :
    (readUleb shift bytes).2 ≤ bytes.length := by
  induction bytes generalizing shift with
  | nil => simp [readUleb]
  | cons b bytes ih =>
    simp only [readUleb]
    split
    · simp
    · simpa using ih (shift+7)

/-- Of `n` child records at `pos`, each label but the last ends in the trie. -/
def LabelsEnd (trie : List UInt8) : ℕ → ℕ → Prop
  | n+2, pos =>
    labelEnd trie pos < trie.length ∧
      LabelsEnd trie (n+1) (labelEnd trie pos+1+(readUleb 0 (trie.drop (labelEnd trie pos+1))).2)
  | _, _ => True

theorem label_end_le {trie : List UInt8} {pos : ℕ} (h : pos ≤ trie.length) :
    labelEnd trie pos ≤ trie.length := by
  have hle := List.takeWhile_sublist (fun b : UInt8 => decide (b ≠ 0)) (l := trie.drop pos)
  have := hle.length_le
  rw [List.length_drop] at this
  rw [labelEnd]
  omega

/-- Reading child records stays in the slice exactly if the labels do. -/
theorem read_children_some {trie : List UInt8} (n : ℕ) {pos : ℕ} (h : pos ≤ trie.length) :
    readChildren trie n pos ≠ none ↔ LabelsEnd trie n pos := by
  induction n generalizing pos with
  | zero => simp [readChildren, LabelsEnd]
  | succ n ih =>
    cases n with
    | zero => simp [readChildren, LabelsEnd, not_lt.2 h]
    | succ n =>
      have hle := label_end_le h
      have hread := read_uleb_length 0 (trie.drop (labelEnd trie pos+1))
      rw [List.length_drop] at hread
      rw [readChildren, if_neg (not_lt.2 h), LabelsEnd]
      simp only [ne_eq, Option.map_eq_none_iff]
      by_cases hlt : labelEnd trie pos < trie.length
      · rw [← ne_eq, ih (by omega)]
        simp [hlt]
      · have hpast : readChildren trie (n+1)
            (labelEnd trie pos+1+(readUleb 0 (trie.drop (labelEnd trie pos+1))).2) = none := by
          rw [readChildren, if_pos (by omega)]
        simp [hlt, hpast]

/-- The labels of a node's children end in the trie, but for the last. -/
def NodeClosed (trie : List UInt8) (node : ℕ) : Prop :=
  node < trie.length → ∀ nchildren, trie[(nodeHeader trie node).2]? = some nchildren →
    LabelsEnd trie nchildren.toNat ((nodeHeader trie node).2+1)

theorem child_nodes_some (trie : List UInt8) (node : ℕ) :
    childNodes trie node ≠ none ↔ NodeClosed trie node := by
  rw [childNodes, ne_eq, Option.map_eq_none_iff, readNode, NodeClosed]
  by_cases hn : trie.length ≤ node
  · simp [hn, not_lt.2 hn]
  · rw [if_neg hn]
    cases hc : trie[(nodeHeader trie node).2]? with
    | none => simp [hc]
    | some nchildren =>
      obtain ⟨hlt,_⟩ := List.getElem?_eq_some_iff.1 hc
      simp only [hc, Option.map_eq_none_iff, Option.some.injEq, forall_eq', not_le.1 hn,
        forall_const]
      exact read_children_some nchildren.toNat hlt

/-- The reader returns exactly where every node it reaches has labels that
end in the trie and none leads back to itself. -/
theorem returns_iff (trie : List UInt8) :
    Returns trie ↔
      (∀ node, Reach (childNodes trie) 0 node → NodeClosed trie node) ∧
      ∀ node, Reach (childNodes trie) 0 node →
        ¬ Relation.TransGen (Edge (childNodes trie)) node node := by
  have hfin : {node | Reach (childNodes trie) 0 node}.Finite := by
    apply reach_finite 0 (Set.finite_Iio trie.length)
    intro a b h
    exact child_nodes_edge h
  have hends : Returns trie ↔ Ends (expandNode trie) [(0,[])] := Iff.rfl
  rw [hends, ends_explored, explored_map (expand_child_nodes trie), explored_iff 0 hfin]
  simp only [child_nodes_some]

/-! Reading what was written. -/

/-- The flags word of a terminal. -/
def Export.flagsWord : Export → ℕ
  | .addr flags _ => flags
  | .reexport _ _ => flagsReexport

theorem last_group : ∀ b : UInt8, b &&& 0x80 = 0 ↔ b.toNat < 128 := by decide +kernel

theorem group_bits : ∀ b : UInt8, (b &&& 0x7f).toNat = b.toNat%128 := by decide +kernel

theorem shifted_group (b : UInt8) {shift : ℕ} (hs : shift < 64) (h : b.toNat%128*2^shift < 2^64) :
    ((b &&& 0x7f).toUInt64 <<< UInt64.ofNat (shift%64)).toNat = b.toNat%128*2^shift := by
  have hshift : (UInt64.ofNat shift).toNat = shift := by
    rw [UInt64.toNat_ofNat']
    omega
  rw [UInt64.toNat_shiftLeft, UInt8.toNat_toUInt64, group_bits, Nat.mod_eq_of_lt hs, hshift,
    Nat.mod_eq_of_lt hs, Nat.shiftLeft_eq, Nat.mod_eq_of_lt h]

/-- A number below `2^64` reads back, and takes the bytes written for it. -/
theorem read_uleb_encode (value shift : ℕ) (rest : List UInt8) (hs : shift < 64)
    (h : value*2^shift < 2^64) :
    (readUleb shift (encodeUleb value ++ rest)).1.toNat = value*2^shift ∧
      (readUleb shift (encodeUleb value ++ rest)).2 = (encodeUleb value).length := by
  induction value using Nat.strong_induction_on generalizing shift with
  | _ value ih =>
    by_cases hv : value < 128
    · have hb := group_toNat value hv
      rw [encode_uleb_last value hv, List.singleton_append]
      simp only [readUleb]
      rw [if_pos ((last_group _).2 (by rw [hb]; exact hv))]
      have hmod : value%128 = value := Nat.mod_eq_of_lt hv
      constructor
      · rw [shifted_group _ hs (by rw [hb, hmod]; exact h), hb, hmod]
      · rfl
    · have hb := more_toNat (value%128) (Nat.mod_lt _ (by decide))
      have hsplit : value*2^shift = value/128*2^(shift+7)+value%128*2^shift := by
        rw [pow_add, show (2:ℕ)^7 = 128 by decide, ← Nat.mul_assoc, Nat.mul_right_comm,
          ← Nat.add_mul]
        congr 1
        omega
      have hhigh : value/128*2^(shift+7) < 2^64 := by omega
      have hlow : value%128*2^shift < 2^(shift+7) := by
        rw [pow_add, Nat.mul_comm (2^shift)]
        exact Nat.mul_lt_mul_of_pos_right (Nat.mod_lt _ (by decide)) (Nat.two_pow_pos shift)
      have hs' : shift+7 < 64 := by
        by_contra hge
        have h1 : 2^64 ≤ 2^(shift+7) := Nat.pow_le_pow_right (by decide) (by omega)
        have h2 : 1 ≤ value/128 := by omega
        have h3 := Nat.mul_le_mul h2 h1
        omega
      obtain ⟨hval,hlen⟩ := ih (value/128) (by omega) (shift+7) hs' hhigh
      rw [encode_uleb_more value (by omega), List.cons_append]
      simp only [readUleb]
      rw [if_neg (by rw [last_group, hb]; omega)]
      have hgroup : (value%128+128)%128 = value%128 := by omega
      constructor
      · rw [UInt64.toNat_or, hval, shifted_group _ hs (by rw [hb, hgroup]; omega), hb, hgroup,
          Nat.or_comm, Nat.mul_comm (value/128), ← Nat.two_pow_add_eq_or_of_lt hlow, hsplit,
          Nat.mul_comm (value/128)]
      · rw [hlen, List.length_cons]

theorem read_child_records {trie : List UInt8} {offs : ℕ → ℕ} {children : List (Name × ℕ)}
    (hl : ∀ c ∈ children, (0 : UInt8) ∉ c.1) (ho : ∀ c ∈ children, offs c.2 < 2^64) {pos : ℕ}
    {tail : List UInt8} (hpos : pos ≤ trie.length)
    (h : trie.drop pos = children.flatMap (edgeBytes offs) ++ tail) :
    readChildren trie children.length pos = some (children.map fun c => (c.1,offs c.2)) := by
  induction children generalizing pos with
  | nil => rfl
  | cons c children ih =>
    have hlabel : (trie.drop pos).takeWhile (· ≠ 0) = c.1 := by
      rw [h, List.flatMap_cons, edgeBytes, List.append_assoc, List.append_assoc,
        List.takeWhile_append_of_pos]
      · simp
      · intro b hb
        have hne : b ≠ 0 := fun hz => hl c (by simp) (hz ▸ hb)
        simpa using hne
    have hstop : labelEnd trie pos = pos+c.1.length := by rw [labelEnd, hlabel]
    have hrest : trie.drop pos = (c.1 ++ [0]) ++
        (encodeUleb (offs c.2) ++ (children.flatMap (edgeBytes offs) ++ tail)) := by
      rw [h, List.flatMap_cons, edgeBytes]
      simp
    obtain ⟨hle,hoff⟩ := drop_next hpos hrest
    rw [List.length_append, List.length_singleton, ← Nat.add_assoc, ← hstop] at hle hoff
    obtain ⟨hval,hlen⟩ := read_uleb_encode (offs c.2) 0
      (children.flatMap (edgeBytes offs) ++ tail) (by decide) (by simpa using ho c (by simp))
    obtain ⟨hle',hnext⟩ := drop_next hle hoff
    rw [List.length_cons, readChildren, if_neg (not_lt.2 hpos)]
    simp only [hoff, hlen, hval, hlabel]
    rw [ih (fun d hd => hl d (by simp [hd])) (fun d hd => ho d (by simp [hd])) hle' hnext]
    simp

theorem payload_flags (e : Export) :
    ∃ rest, e.payload = encodeUleb (Export.flagsWord e) ++ rest := by
  cases e with
  | addr flags address => exact ⟨_,rfl⟩
  | reexport ordinal name =>
    refine ⟨encodeUleb ordinal ++ (name ++ [0]),?_⟩
    simp [Export.payload, Export.flagsWord]

theorem read_uleb_zero {value : ℕ} (rest : List UInt8) (h : value < 2^64) :
    (readUleb 0 (encodeUleb value ++ rest)).1 = UInt64.ofNat value ∧
      (readUleb 0 (encodeUleb value ++ rest)).2 = (encodeUleb value).length := by
  obtain ⟨hval,hlen⟩ := read_uleb_encode value 0 rest (by decide) (by simpa using h)
  refine ⟨?_,hlen⟩
  apply UInt64.toNat_inj.1
  rw [hval, UInt64.toNat_ofNat', Nat.mod_eq_of_lt h, pow_zero, Nat.mul_one]

/-- The child count follows the terminal. -/
theorem read_node_header {trie : List UInt8} {e : Option Export} {after : List UInt8}
    (hflags : ∀ x, e = some x → Export.flagsWord x < 2^64) {off : ℕ} (hoff : off ≤ trie.length)
    (hsmall : off+(terminalBytes e).length < 2^64)
    (h : trie.drop off = terminalBytes e ++ after) :
    nodeHeader trie off = (e.map fun x => UInt64.ofNat (Export.flagsWord x),
      off+(terminalBytes e).length) := by
  cases e with
  | none =>
    obtain ⟨hval,hlen⟩ := read_uleb_zero after (show (0 : ℕ) < 2^64 by decide)
    rw [encode_uleb_last 0 (by decide)] at hval hlen
    have hread : readUleb 0 (trie.drop off) = (0,1) := by
      rw [h]
      exact Prod.ext hval hlen
    rw [nodeHeader, hread]
    rfl
  | some x =>
    obtain ⟨rest,hrest⟩ := payload_flags x
    have hterminal : (terminalBytes (some x)).length =
        (encodeUleb x.terminalSize).length+x.terminalSize := by
      rw [terminalBytes, List.length_append, payload_length]
    rw [hterminal] at hsmall
    have hsize : x.terminalSize < 2^64 := by omega
    rw [terminalBytes, List.append_assoc] at h
    obtain ⟨hval,hlen⟩ := read_uleb_zero (x.payload ++ after) hsize
    obtain ⟨_,hpayload⟩ := drop_next hoff h
    rw [hrest, List.append_assoc] at hpayload
    obtain ⟨hfval,_⟩ := read_uleb_zero (rest ++ after) (hflags x rfl)
    have hnat : (UInt64.ofNat x.terminalSize).toNat = x.terminalSize := by
      rw [UInt64.toNat_ofNat', Nat.mod_eq_of_lt hsize]
    have hpos : UInt64.ofNat x.terminalSize > 0 := by
      rw [gt_iff_lt, UInt64.lt_iff_toNat_lt, hnat]
      exact Nat.pos_of_ne_zero (terminal_size_pos x)
    rw [nodeHeader, h]
    simp only [hval, hlen, hpos, if_true, hpayload, hfval, hnat, Option.map_some]
    rw [hterminal, Nat.mod_eq_of_lt (by omega), Nat.add_assoc]

/-- A node reads back from its bytes. -/
theorem read_node_bytes {trie : List UInt8} {offs : ℕ → ℕ} {node : Node}
    (hcount : node.children.length < 256) (hl : ∀ c ∈ node.children, (0 : UInt8) ∉ c.1)
    (ho : ∀ c ∈ node.children, offs c.2 < 2^64)
    (hflags : ∀ x, node.exported = some x → Export.flagsWord x < 2^64)
    {off : ℕ} {tail : List UInt8} (hoff : off ≤ trie.length)
    (hsmall : off+(nodeBytes offs node).length < 2^64) (h : trie.drop off = nodeBytes offs node ++ tail) :
    readNode trie off = some (node.exported.map fun x => UInt64.ofNat (Export.flagsWord x),
      node.children.map fun c => (c.1,offs c.2)) := by
  rw [nodeBytes, List.append_assoc] at h
  rw [nodeBytes, List.length_append] at hsmall
  have hheader := read_node_header hflags hoff (by omega) h
  obtain ⟨hle,hcountAt⟩ := drop_next hoff h
  have hget : trie[off+(terminalBytes node.exported).length]? =
      some node.children.length.toUInt8 := by
    have := congrArg List.head? hcountAt
    simpa using this
  obtain ⟨hle',hrecords⟩ := drop_next (a := [node.children.length.toUInt8]) hle hcountAt
  have hlt := (List.getElem?_eq_some_iff.1 hget).1
  have hnat : node.children.length.toUInt8.toNat = node.children.length := by
    simp [Nat.mod_eq_of_lt hcount]
  rw [readNode, if_neg (by omega)]
  simp only [hheader, hget, hnat]
  rw [List.length_singleton] at hrecords hle'
  rw [read_child_records hl ho hle' hrecords, Option.map_some]

/-! Reading a trie's tree. -/

/-- A trie that holds each node's bytes at its offset. -/
structure Written (trie : List UInt8) (offs : ℕ → ℕ) (nodes : List Node) : Prop where
  bytes : ∀ (i : ℕ) (node : Node), nodes[i]? = some node →
    ∃ tail, trie.drop (offs i) = nodeBytes offs node ++ tail
  inside : ∀ (i : ℕ) (node : Node), nodes[i]? = some node → offs i ≤ trie.length
  small : ∀ (i : ℕ) (node : Node), nodes[i]? = some node →
    offs i+(nodeBytes offs node).length < 2^64

theorem indexed_labels {f : Edges} {base : ℕ} {p : Name → Prop} (h : f.Labels p) :
    ∀ c ∈ indexed f base, p c.1 := by
  induction f generalizing base with
  | nil => simp [indexed]
  | edge label e below rest _ ihr =>
    intro c hc
    cases List.mem_cons.1 hc with
    | inl he => exact he ▸ h.1
    | inr hm => exact ihr h.2.2 c hm

theorem indexed_nodes {nodes : List Node} {f : Edges} {base : ℕ} (h : Holds nodes f base) :
    ∀ c ∈ indexed f base, ∃ node, nodes[c.2]? = some node := by
  induction f generalizing base with
  | nil => simp [indexed]
  | edge label e below rest _ ihr =>
    obtain ⟨hnode,_,hrest⟩ := holds_edge h
    intro c hc
    cases List.mem_cons.1 hc with
    | inl he =>
      rw [he]
      exact ⟨_,hnode⟩
    | inr hm => exact ihr hrest c hm

/-- An entry of the reader's stack for a child. -/
def childItem (offs : ℕ → ℕ) (pre : Name) (c : Name × ℕ) : ℕ × Name := (offs c.2,pre ++ c.1)

def namedFlags (pre : Name) (e : Name × Export) : Name × UInt64 :=
  (pre ++ e.1,UInt64.ofNat (Export.flagsWord e.2))

section Tree
variable {trie : List UInt8} {offs : ℕ → ℕ} {nodes : List Node}

theorem expand_written (hw : Written trie offs nodes) {i : ℕ} {e : Option Export} {f : Edges}
    {base : ℕ} (hnode : nodes[i]? = some ⟨e,indexed f base⟩) (hh : Holds nodes f base)
    (hf : f.Ordered) (hl : f.Labels fun label => (0 : UInt8) ∉ label)
    (hflags : ∀ x, e = some x → Export.flagsWord x < 2^64) (pre : Name) :
    expandNode trie (offs i,pre) =
      some (e.toList.map fun x => namedFlags pre ([],x),
        (indexed f base).map (childItem offs pre)) := by
  obtain ⟨tail,htail⟩ := hw.bytes i _ hnode
  have hoffs : ∀ c ∈ indexed f base, offs c.2 < 2^64 := by
    intro c hc
    obtain ⟨node,hn⟩ := indexed_nodes hh c hc
    have := hw.small c.2 node hn
    omega
  rw [expandNode, read_node_bytes (children_lt f base hf hl) (indexed_labels hl) hoffs hflags
    (hw.inside i _ hnode) (hw.small i _ hnode) htail]
  cases e with
  | none => simp [childItem, Function.comp_def]
  | some x => simp [childItem, namedFlags, Function.comp_def]

/-- Reading on from a node's children gives the names below it. -/
theorem forest_yields (hw : Written trie offs nodes) (f : Edges) (base : ℕ)
    (hh : Holds nodes f base) (hf : f.Ordered) (hl : f.Labels fun label => (0 : UInt8) ∉ label)
    (hflags : ∀ e ∈ f.entries, Export.flagsWord e.2 < 2^64) (pre : Name) :
    ∃ outs, List.Forall₂ (Yields (expandNode trie)) ((indexed f base).map (childItem offs pre))
        outs ∧ outs.flatten = f.entries.map (namedFlags pre) := by
  induction f generalizing base pre with
  | nil => exact ⟨[],List.Forall₂.nil,rfl⟩
  | edge label e below rest ihb ihr =>
    obtain ⟨hnode,hbelow,hrest⟩ := holds_edge hh
    have hflagsHere : ∀ x, e = some x → Export.flagsWord x < 2^64 := by
      intro x hx
      exact hflags (label,x) (by simp [Forest.entries, hx])
    have hflagsBelow : ∀ x ∈ below.entries, Export.flagsWord x.2 < 2^64 := by
      intro x hx
      apply hflags (label ++ x.1,x.2)
      simp only [Forest.entries, List.mem_append, List.mem_map]
      exact .inl (.inr ⟨x,hx,rfl⟩)
    obtain ⟨outs,ho,hflat⟩ := ihb (base+1) hbelow hf.2.1 hl.2.1 hflagsBelow (pre ++ label)
    obtain ⟨outs',ho',hflat'⟩ := ihr _ hrest hf.2.2 hl.2.2
      (fun x hx => hflags x (by simp [Forest.entries, hx])) pre
    have hexpand := expand_written hw hnode hbelow hf.2.1 hl.2.1 hflagsHere (pre ++ label)
    refine ⟨_,List.Forall₂.cons (yields_node hexpand ho) ho',?_⟩
    rw [List.flatten_cons, hflat, hflat', Forest.entries, List.map_append, List.map_append]
    congr 1
    congr 1
    · cases e with
      | none => rfl
      | some x => simp [namedFlags]
    · rw [List.map_map]
      apply List.map_congr_left
      intro x _
      simp [namedFlags]

end Tree

/-- An encoded trie and where its nodes are. -/
theorem encoded_written {exports : List (Name × Export)} (hne : exports ≠ [])
    (hsize : ∀ n ∈ trieSize exports, n < 2^32) :
    ∃ trie offs, encodeExportTrie exports = some trie ∧ offs 0 = 0 ∧
      Written trie offs (numberNodes (buildTrie exports 0)) := by
  have htotal : ∀ p, placeNodes (numberNodes (buildTrie exports 0)) = some p →
      p.total < 2^32 := by
    intro p hp
    exact hsize p.total (by simp [trieSize, hp])
  obtain ⟨p,buf,hplace,hwrite,h0,hat⟩ := written htotal
  obtain ⟨q,_,hplace',hlaid,_,hall,_⟩ := place_nodes_laid (buildTrie exports 0)
  rw [hplace, Option.some.injEq] at hplace'
  subst hplace'
  refine ⟨buf ++ List.replicate ((8-buf.length%8)%8) 0,p.offs,?_,h0,?_,?_,?_⟩
  · rw [encodeExportTrie, if_neg hne]
    simp [hplace, hwrite]
  · intro i node hnode
    obtain ⟨_,⟨tail,htail⟩,hle,_⟩ := hat i node hnode
    rw [List.drop_append_of_le_length hle, htail, List.append_assoc]
    exact ⟨_,rfl⟩
  · intro i node hnode
    obtain ⟨_,_,hle,_⟩ := hat i node hnode
    rw [List.length_append]
    omega
  · intro i node hnode
    have hfits := (hat i node hnode).1
    have hend := offs_lt hlaid (hall i node hnode)
    have hlt := htotal p hplace
    omega

/-- Reading a trie the linker wrote gives the exports back. -/
theorem entries_written {exports : List (Name × Export)} (hne : exports ≠ [])
    (hsorted : exports.Pairwise fun a b => a.1 < b.1) (hnul : ∀ e ∈ exports, (0 : UInt8) ∉ e.1)
    (hflags : ∀ e ∈ exports, Export.flagsWord e.2 < 2^64)
    (hsize : ∀ n ∈ trieSize exports, n < 2^32) :
    ∃ trie fuel names, encodeExportTrie exports = some trie ∧
      exportTrieEntries trie fuel = some (some names) ∧
      names.Perm (exports.map fun e => (e.1,UInt64.ofNat (Export.flagsWord e.2))) := by
  obtain ⟨trie,offs,hencode,h0,hw⟩ := encoded_written hne hsize
  have hasc : Ascending 0 exports := by simpa [Ascending] using hsorted
  obtain ⟨hsplit,hsplitAsc,hsplitLong⟩ := split_suffixes hasc (by simp)
  obtain ⟨hordered,hentries⟩ := build_entries _ 0 hsplitAsc hsplitLong
  have hsame : suffixes 0 exports = exports := by simp [suffixes]
  have hlabels := build_labels (splitTerminal 0 exports).2 0
    fun n hn => hnul n ((split_terminal_sublist 0 exports).mem hn)
  have hholds : Holds (numberNodes (buildTrie exports 0))
      (buildChildren (splitTerminal 0 exports).2 0) 1 := by
    have hn := holds_numbered (buildTrie exports 0)
    rwa [buildTrie, sort_ordered hordered] at hn
  have hroot : (numberNodes (buildTrie exports 0))[0]? = some ⟨(splitTerminal 0 exports).1,
      indexed (buildChildren (splitTerminal 0 exports).2 0) 1⟩ := by
    rw [numberNodes, buildTrie, sort_ordered hordered]
    rfl
  have hall : ((splitTerminal 0 exports).1.toList.map fun e => (([] : Name),e)) ++
      (buildChildren (splitTerminal 0 exports).2 0).entries = exports := by
    rw [hentries, ← hsplit, hsame]
  have hflagsAll : ∀ e ∈ ((splitTerminal 0 exports).1.toList.map fun e => (([] : Name),e)) ++
      (buildChildren (splitTerminal 0 exports).2 0).entries, Export.flagsWord e.2 < 2^64 := by
    rw [hall]
    exact hflags
  have hexpand := expand_written hw hroot hholds hordered hlabels
    (fun x hx => hflagsAll ([],x) (by simp [hx])) []
  rw [h0] at hexpand
  obtain ⟨outs,ho,hflat⟩ := forest_yields hw _ 1 hholds hordered hlabels
    (fun e he => hflagsAll e (List.mem_append_right _ he)) []
  obtain ⟨fuel,names,hread,hperm⟩ := yields_ends (yields_node hexpand ho)
  refine ⟨trie,fuel,names,hencode,hread,?_⟩
  have hmap : exports.map (fun e => (e.1,UInt64.ofNat (Export.flagsWord e.2))) =
      exports.map (namedFlags []) := rfl
  rw [hmap, ← hall, List.map_append, List.map_map]
  rw [hflat] at hperm
  exact hperm

/-- The reader returns without a slice out of range exactly on tries whose
reached nodes have labels that end in the trie and no cycle; of a trie the
linker writes it gives each export once with its flags and nothing else. -/
theorem export_trie_entries (slice : List UInt8) :
    (Returns slice ↔
      (∀ node, Reach (childNodes slice) 0 node → NodeClosed slice node) ∧
      ∀ node, Reach (childNodes slice) 0 node →
        ¬ Relation.TransGen (Edge (childNodes slice)) node node) ∧
    ∀ exports : List (Name × Export), exports ≠ [] → (exports.Pairwise fun a b => a.1 < b.1) →
      (∀ e ∈ exports, (0 : UInt8) ∉ e.1) → (∀ e ∈ exports, Export.flagsWord e.2 < 2^64) →
      (∀ n ∈ trieSize exports, n < 2^32) →
      ∃ trie fuel names, encodeExportTrie exports = some trie ∧
        exportTrieEntries trie fuel = some (some names) ∧
        names.Perm (exports.map fun e => (e.1,UInt64.ofNat (Export.flagsWord e.2))) := by
  constructor
  · exact returns_iff slice
  · intro exports hne hsorted hnul hflags hsize
    exact entries_written hne hsorted hnul hflags hsize

theorem export_trie_entries_two :
    ∃ trie fuel names, encodeExportTrie [([95, 97], .addr 4 0x4000), ([95, 97, 98], .reexport 1 [])] =
        some trie ∧ exportTrieEntries trie fuel = some (some names) ∧
      names.Perm [([95, 97],4), ([95, 97, 98],8)] := by
  have hsize : trieSize [([95, 97], .addr 4 0x4000), ([95, 97, 98], .reexport 1 [])] = some 24 := by
    decide +kernel
  exact (export_trie_entries []).2 [([95, 97], .addr 4 0x4000), ([95, 97, 98], .reexport 1 [])]
    (by decide) (by decide) (by decide) (by decide) (by rw [hsize]; decide)

/-- A child that points back at the root keeps the reader going, and a
first label that runs to the end has the second sliced from past it. -/
theorem export_trie_entries_malformed :
    (∀ fuel, exportTrieEntries [0, 1, 0, 0] fuel = none) ∧
    exportTrieEntries [0, 2, 97] 1 = some none := by
  constructor
  · intro fuel
    have hexpand : expandNode [0, 1, 0, 0] (0,[]) = some ([],[(0,[])]) := by decide
    rw [exportTrieEntries]
    induction fuel with
    | zero => rfl
    | succ fuel ih =>
      rw [walk, hexpand]
      exact ih
  · decide

end MoldMacho.ExportTrieEntries
