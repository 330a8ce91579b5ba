import Mathlib.Data.List.Nodup
import Mathlib.Data.List.Perm.Subperm
import MoldMacho.Util.Glob.AhoCorasick

/-!
# The words of the trie

Each node spells a word, that of its parent and its own letter. A letter added to a
node gives it a child, first of its siblings, or finds the one there is.
-/

set_option autoImplicit false

namespace MoldMacho.Globs.AhoCorasick
open MoldMacho.LongestSuffix

/-! ## Siblings -/

inductive Siblings (nodes : List TrieNode) : Option ℕ → List ℕ → Prop
  | nil : Siblings nodes none []
  | cons {i : ℕ} {node : TrieNode} {rest : List ℕ} : nodes[i]? = some node →
      Siblings nodes node.nextSibling rest → Siblings nodes (some i) (i::rest)

theorem Siblings.eq {nodes : List TrieNode} {first : Option ℕ} {kids : List ℕ}
    (h : Siblings nodes first kids) {fuel : ℕ} (hfuel : kids.length ≤ fuel) :
    siblings nodes fuel first = kids := by
  induction h generalizing fuel with
  | nil => cases fuel <;> rfl
  | @cons i node rest hnode _ ih =>
    cases fuel with
    | zero => cases hfuel
    | succ fuel =>
      rw [siblings, hnode]
      exact congrArg _ (ih (Nat.le_of_succ_le_succ hfuel))

theorem Siblings.frame {nodes nodes' : List TrieNode} {first : Option ℕ} {kids : List ℕ}
    (h : Siblings nodes first kids) (hframe : ∀ (i : ℕ) node, nodes[i]? = some node →
      ∃ node', nodes'[i]? = some node' ∧ node'.nextSibling = node.nextSibling) :
    Siblings nodes' first kids := by
  induction h with
  | nil => exact .nil
  | @cons i node rest hnode _ ih =>
    obtain ⟨node',hnode',hnext⟩ := hframe i node hnode
    exact .cons hnode' (hnext ▸ ih)

/-! ## Words -/

/-- The nodes' words and children. -/
structure Spelled (ac : AhoCorasick) (words : List (List UInt8)) (kids : List (List ℕ)) : Prop where
  words_length : words.length = ac.nodes.length
  kids_length : kids.length = ac.nodes.length
  siblings : ∀ (i : ℕ) node ks, ac.nodes[i]? = some node → kids[i]? = some ks →
    Siblings ac.nodes node.firstChild ks
  kids_nodup : ∀ ks ∈ kids, ks.Nodup
  mem_kids : ∀ (i : ℕ) w ks, words[i]? = some w → kids[i]? = some ks →
    ∀ j, j ∈ ks ↔ ∃ ch, words[j]? = some (w ++ [ch])
  ch : ∀ (j : ℕ) w ch node, words[j]? = some (w ++ [ch]) → ac.nodes[j]? = some node → node.ch = ch
  root_child : ∀ ch j, ac.rootChildren ch = some j ↔ words[j]? = some [ch]
  nodup : words.Nodup
  root : words[0]? = some []
  closed : PrefixClosed (· ∈ words)

section Spelled
variable {ac : AhoCorasick} {words : List (List UInt8)} {kids : List (List ℕ)}

theorem Spelled.index (h : Spelled ac words kids) {i j : ℕ} {w : List UInt8}
    (hi : words[i]? = some w) (hj : words[j]? = some w) : i = j :=
  (List.getElem?_inj (List.getElem?_eq_some_iff.1 hi).1 h.nodup).1 (hi.trans hj.symm)

theorem Spelled.node (h : Spelled ac words kids) {i : ℕ} {w : List UInt8}
    (hi : words[i]? = some w) : ∃ node ks, ac.nodes[i]? = some node ∧ kids[i]? = some ks := by
  have hlt : i < words.length := (List.getElem?_eq_some_iff.1 hi).1
  have hnode : i < ac.nodes.length := h.words_length ▸ hlt
  have hkids : i < kids.length := h.kids_length.symm ▸ hnode
  exact ⟨_,_,List.getElem?_eq_getElem hnode,List.getElem?_eq_getElem hkids⟩

theorem Spelled.children_eq (h : Spelled ac words kids) {i : ℕ} {w : List UInt8} {ks : List ℕ}
    (hi : words[i]? = some w) (hks : kids[i]? = some ks) : children ac.nodes i = ks := by
  obtain ⟨node,ks',hnode,-⟩ := h.node hi
  rw [children, hnode]
  apply (h.siblings i node ks hnode hks).eq
  have hsub : ks ⊆ List.range ac.nodes.length := by
    intro j hj
    obtain ⟨ch,hch⟩ := (h.mem_kids i w ks hi hks j).1 hj
    rw [List.mem_range, ← h.words_length]
    exact (List.getElem?_eq_some_iff.1 hch).1
  have hle := (List.subperm_of_subset (h.kids_nodup ks (List.mem_of_getElem? hks)) hsub).length_le
  rwa [List.length_range] at hle

theorem Spelled.mem_children (h : Spelled ac words kids) {i : ℕ} {w : List UInt8}
    (hi : words[i]? = some w) (j : ℕ) :
    j ∈ children ac.nodes i ↔ ∃ ch, words[j]? = some (w ++ [ch]) := by
  obtain ⟨node,ks,-,hks⟩ := h.node hi
  rw [h.children_eq hi hks]
  exact h.mem_kids i w ks hi hks j

theorem Spelled.children_nodup (h : Spelled ac words kids) {i : ℕ} {w : List UInt8}
    (hi : words[i]? = some w) : (children ac.nodes i).Nodup := by
  obtain ⟨node,ks,-,hks⟩ := h.node hi
  rw [h.children_eq hi hks]
  exact h.kids_nodup ks (List.mem_of_getElem? hks)

/-- A node's child by a letter is the node of its word with the letter. -/
theorem Spelled.find_child (h : Spelled ac words kids) {i : ℕ} {w : List UInt8}
    (hi : words[i]? = some w) (ch : UInt8) (j : ℕ) :
    ac.findChild i ch = some j ↔ words[j]? = some (w ++ [ch]) := by
  unfold findChild
  by_cases hzero : i = 0
  · have hroot : w = [] := by
      rw [hzero, h.root] at hi
      exact (Option.some.inj hi).symm
    rw [if_pos hzero, h.root_child, hroot]
    rfl
  · have hch {j : ℕ} (hj : j ∈ children ac.nodes i) :
        ((ac.nodes[j]?.map TrieNode.ch) == some ch) = true ↔ words[j]? = some (w ++ [ch]) := by
      obtain ⟨ch',hword⟩ := (h.mem_children hi j).1 hj
      obtain ⟨node,-,hnode,-⟩ := h.node hword
      rw [hnode, hword, beq_iff_eq, Option.map_some, h.ch j w ch' node hword hnode]
      simp
    rw [if_neg hzero]
    constructor
    · intro hfind
      have hfound := List.find?_some hfind
      exact (hch (List.mem_of_find?_eq_some hfind)).1 hfound
    · intro hword
      have hj : j ∈ children ac.nodes i := (h.mem_children hi j).2 ⟨ch,hword⟩
      obtain ⟨j',hj'⟩ : ∃ j', (children ac.nodes i).find?
          (fun i => (ac.nodes[i]?.map TrieNode.ch) == some ch) = some j' := by
        rw [← Option.isSome_iff_exists, List.find?_isSome]
        exact ⟨j,hj,(hch hj).2 hword⟩
      have hfound := List.find?_some hj'
      have hword' := (hch (List.mem_of_find?_eq_some hj')).1 hfound
      rw [hj', h.index hword hword']

theorem Spelled.find_child_none (h : Spelled ac words kids) {i : ℕ} {w : List UInt8}
    (hi : words[i]? = some w) (ch : UInt8) : ac.findChild i ch = none ↔ w ++ [ch] ∉ words := by
  rw [List.mem_iff_getElem?, Option.eq_none_iff_forall_not_mem, not_exists]
  exact forall_congr' fun j => not_congr (h.find_child hi ch j)

end Spelled

/-! ## A node more -/

theorem get_concat {α : Type} {l : List α} {a x : α} {i : ℕ} :
    (l ++ [a])[i]? = some x ↔ l[i]? = some x ∨ (i = l.length ∧ x = a) := by
  rcases Nat.lt_trichotomy i l.length with hlt | rfl | hgt
  · rw [List.getElem?_append_left hlt]
    simp [hlt.ne]
  · simp [eq_comm]
  · have hpast : (l ++ [a]).length ≤ i := by
      rw [List.length_append]
      exact hgt
    rw [List.getElem?_eq_none hpast, List.getElem?_eq_none hgt.le]
    simp [hgt.ne']

/-- The trie with a child more of a node. -/
def pushChild (ac : AhoCorasick) (node : ℕ) (ch : UInt8) : AhoCorasick :=
  let child := ac.nodes.length
  let nextSibling := ac.nodes[node]?.bind TrieNode.firstChild
  let added : TrieNode := { nextSibling, ch }
  { ac with
    nodes := (ac.nodes ++ [added]).modify node fun parent => { parent with firstChild := some child }
    rootChildren :=
      if node = 0 then Function.update ac.rootChildren ch (some child) else ac.rootChildren }

theorem add_child_eq (ac : AhoCorasick) (node : ℕ) (ch : UInt8) :
    ac.addChild node ch = match ac.findChild node ch with
      | some child => (ac,child)
      | none => (ac.pushChild node ch,ac.nodes.length) := rfl

section Push
variable {ac : AhoCorasick} {words : List (List UInt8)} {kids : List (List ℕ)} {node : ℕ}
  {w : List UInt8} {ch : UInt8}

theorem push_root : (ac.pushChild node ch).rootChildren =
    if node = 0 then Function.update ac.rootChildren ch (some ac.nodes.length)
    else ac.rootChildren := rfl

theorem push_node_old {i : ℕ} {old : TrieNode} (h : ac.nodes[i]? = some old) :
    (ac.pushChild node ch).nodes[i]? =
      some (if node = i then { old with firstChild := some ac.nodes.length } else old) := by
  have hlt : i < ac.nodes.length := (List.getElem?_eq_some_iff.1 h).1
  rw [pushChild, List.getElem?_modify, List.getElem?_append_left hlt, h]
  rfl

theorem push_node_new (h : node ≠ ac.nodes.length) :
    (ac.pushChild node ch).nodes[ac.nodes.length]? =
      some { nextSibling := ac.nodes[node]?.bind TrieNode.firstChild, ch } := by
  rw [pushChild, List.getElem?_modify, List.getElem?_concat_length, Option.map_eq_map,
    Option.map_some, if_neg h]

theorem push_node_cases {i : ℕ} {new : TrieNode}
    (h : (ac.pushChild node ch).nodes[i]? = some new) (hnode : node ≠ ac.nodes.length) :
    (∃ old, ac.nodes[i]? = some old ∧
        new = if node = i then { old with firstChild := some ac.nodes.length } else old) ∨
      (i = ac.nodes.length ∧
        new = { nextSibling := ac.nodes[node]?.bind TrieNode.firstChild, ch }) := by
  by_cases hi : i = ac.nodes.length
  · rw [hi, push_node_new hnode] at h
    exact .inr ⟨hi,(Option.some.inj h).symm⟩
  · cases hold : ac.nodes[i]? with
    | some old =>
      rw [push_node_old hold] at h
      exact .inl ⟨old,rfl,(Option.some.inj h).symm⟩
    | none =>
      have hge := List.getElem?_eq_none_iff.1 hold
      rw [pushChild, List.getElem?_modify,
        List.getElem?_eq_none (by rw [List.length_append, List.length_singleton]; omega)] at h
      cases h

theorem Spelled.push (h : Spelled ac words kids) (hw : words[node]? = some w)
    (hnew : w ++ [ch] ∉ words) :
    Spelled (ac.pushChild node ch) (words ++ [w ++ [ch]])
      (kids.modify node (ac.nodes.length::·) ++ [[]]) := by
  have hlt : node < ac.nodes.length := h.words_length ▸ (List.getElem?_eq_some_iff.1 hw).1
  have hne := hlt.ne
  obtain ⟨parent,siblings,hparent,hsiblings⟩ := h.node hw
  have hframe : ∀ (i : ℕ) old, ac.nodes[i]? = some old →
      ∃ new, (ac.pushChild node ch).nodes[i]? = some new ∧ new.nextSibling = old.nextSibling := by
    intro i old hold
    refine ⟨_,push_node_old hold,?_⟩
    split <;> rfl
  have hlast : words.length = ac.nodes.length := h.words_length
  have hkids {i : ℕ} {ks : List ℕ}
      (hks : (kids.modify node (ac.nodes.length::·) ++ [[]])[i]? = some ks) :
      (∃ old, kids[i]? = some old ∧ ks = if node = i then ac.nodes.length::old else old) ∨
        (i = ac.nodes.length ∧ ks = []) := by
    rcases get_concat.1 hks with hks | ⟨hi,hks⟩
    · rw [List.getElem?_modify] at hks
      obtain ⟨old,hold,hks⟩ := Option.map_eq_some_iff.1 hks
      exact .inl ⟨old,hold,hks.symm⟩
    · rw [List.length_modify, h.kids_length] at hi
      exact .inr ⟨hi,hks⟩
  refine ⟨?_,?_,?_,?_,?_,?_,?_,?_,?_,?_⟩
  · simp [pushChild, hlast]
  · simp [pushChild, h.kids_length]
  · intro i new ks hi hks
    rcases push_node_cases hi hne with ⟨old,hold,rfl⟩ | ⟨rfl,rfl⟩
    · rcases hkids hks with ⟨oldks,holdks,rfl⟩ | ⟨rfl,rfl⟩
      · have hsib := (h.siblings i old oldks hold holdks).frame hframe
        by_cases heq : node = i
        · have hnext : ac.nodes[node]?.bind TrieNode.firstChild = old.firstChild := by
            rw [heq, hold]
            rfl
          rw [if_pos heq, if_pos heq]
          apply Siblings.cons (push_node_new hne)
          show Siblings _ (ac.nodes[node]?.bind TrieNode.firstChild) oldks
          rwa [hnext]
        · rwa [if_neg heq, if_neg heq]
      · rw [List.getElem?_eq_none le_rfl] at hold
        cases hold
    · rcases hkids hks with ⟨oldks,holdks,-⟩ | ⟨-,rfl⟩
      · rw [List.getElem?_eq_none h.kids_length.le] at holdks
        cases holdks
      · exact .nil
  · intro ks hmem
    obtain ⟨i,hks⟩ := List.mem_iff_getElem?.1 hmem
    rcases hkids hks with ⟨old,hold,rfl⟩ | ⟨-,rfl⟩
    · have hnodup := h.kids_nodup old (List.mem_of_getElem? hold)
      split
      · next heq =>
        refine List.nodup_cons.2 ⟨fun hmem => ?_,hnodup⟩
        obtain ⟨ch',hch'⟩ := (h.mem_kids i w old (heq ▸ hw) hold _).1 hmem
        rw [List.getElem?_eq_none hlast.le] at hch'
        cases hch'
      · exact hnodup
    · exact List.nodup_nil
  · intro i wi ks hi hks j
    simp only [get_concat, exists_or]
    rcases get_concat.1 hi with hword | ⟨hlen,rfl⟩
    · have hilt : i < ac.nodes.length := h.words_length ▸ (List.getElem?_eq_some_iff.1 hword).1
      obtain ⟨old,hold,rfl⟩ : ∃ old, kids[i]? = some old ∧
          ks = if node = i then ac.nodes.length::old else old := by
        rcases hkids hks with hold | ⟨heq,-⟩
        · exact hold
        · exact (hilt.ne heq).elim
      rw [← h.mem_kids i wi old hword hold j]
      by_cases heq : node = i
      · have hwi : wi = w := Option.some.inj (hword.symm.trans (heq ▸ hw))
        rw [if_pos heq, List.mem_cons, or_comm, hlast, hwi]
        simp
      · have hother : ∀ ch', wi ++ [ch'] ≠ w ++ [ch] := by
          intro ch' hsame
          obtain ⟨rfl,-⟩ := List.append_inj' hsame rfl
          exact heq (h.index hw hword)
        rw [if_neg heq]
        simp [hother]
    · rcases hkids hks with ⟨old,hold,-⟩ | ⟨-,rfl⟩
      · rw [List.getElem?_eq_none (by rw [h.kids_length, hlen, hlast])] at hold
        cases hold
      · have hnone : ∀ ch', words[j]? ≠ some (w ++ [ch] ++ [ch']) := fun ch' hch' =>
          hnew (h.closed _ ch' (List.mem_of_getElem? hch'))
        simp only [hnone]
        simp
  · intro j w' ch' new hword hget
    rcases get_concat.1 hword with hword | ⟨rfl,heq⟩
    · rcases push_node_cases hget hne with ⟨old,hold,rfl⟩ | ⟨rfl,-⟩
      · have hch := h.ch j w' ch' old hword hold
        split <;> exact hch
      · rw [List.getElem?_eq_none hlast.le] at hword
        cases hword
    · rw [hlast, push_node_new hne] at hget
      obtain rfl := Option.some.inj hget
      exact (List.cons.inj (List.append_inj' heq rfl).2).1.symm
  · intro ch' j
    rw [get_concat, ← h.root_child, push_root]
    by_cases hzero : node = 0
    · have hwnil : w = [] := by
        rw [hzero, h.root] at hw
        exact (Option.some.inj hw).symm
      rw [if_pos hzero, hwnil, hlast]
      by_cases hch : ch' = ch
      · have hnone : ac.rootChildren ch = none := by
          rw [Option.eq_none_iff_forall_not_mem]
          intro k hk
          rw [hwnil] at hnew
          exact hnew (List.mem_of_getElem? ((h.root_child ch k).1 hk))
        rw [hch, Function.update_self, hnone]
        simp [eq_comm]
      · rw [Function.update_of_ne hch]
        simp [hch]
    · have hwne : w ≠ [] := by
        rintro rfl
        exact hzero (h.index hw h.root)
      have hlong : [ch'] ≠ w ++ [ch] := fun heq =>
        hwne (List.append_inj' (show [] ++ [ch'] = w ++ [ch] from heq) rfl).1.symm
      rw [if_neg hzero, or_iff_left fun h => hlong h.2]
  · apply h.nodup.append (List.nodup_singleton _)
    exact fun u hu hu' => hnew (List.mem_singleton.1 hu' ▸ hu)
  · exact get_concat.2 (.inl h.root)
  · intro u c hmem
    rcases List.mem_append.1 hmem with hmem | hmem
    · exact List.mem_append_left _ (h.closed u c hmem)
    · obtain ⟨rfl,-⟩ := List.append_inj' (List.mem_singleton.1 hmem) rfl
      exact List.mem_append_left _ (List.mem_of_getElem? hw)

end Push

/-! ## The words added -/

/-- The trie has the words of the dictionary, and each node the largest value of its
word. -/
structure Holds (ac : AhoCorasick) (words : List (List UInt8)) (kids : List (List ℕ))
    (dict : Set (List UInt8 × ℤ)) : Prop where
  spelled : Spelled ac words kids
  root_link : ac.linkOf 0 = none
  value : ∀ (i : ℕ) w, words[i]? = some w → Best {v | (w,v) ∈ dict} (ac.valueOf i)
  word : ∀ w v, (w,v) ∈ dict → w ∈ words ∧ w ≠ [] ∧ v ≤ ac.maxValue

theorem value_of_some {ac : AhoCorasick} {i : ℕ} {node : TrieNode} (h : ac.nodes[i]? = some node) :
    ac.valueOf i = node.value := by
  rw [valueOf, h]
  rfl

theorem link_of_some {ac : AhoCorasick} {i : ℕ} {node : TrieNode} (h : ac.nodes[i]? = some node) :
    ac.linkOf i = node.suffixLink := by
  rw [linkOf, h]
  rfl

section Add
variable {ac : AhoCorasick} {words : List (List UInt8)} {kids : List (List ℕ)}
  {dict : Set (List UInt8 × ℤ)}

/-- A letter is added: the node led to spells the word with it. -/
theorem Holds.add_child (h : Holds ac words kids dict) {node : ℕ} {w : List UInt8}
    (hw : words[node]? = some w) (ch : UInt8) :
    ∃ words' kids', Holds (ac.addChild node ch).1 words' kids' dict ∧
      (ac.addChild node ch).1.maxValue = ac.maxValue ∧
      words'[(ac.addChild node ch).2]? = some (w ++ [ch]) := by
  rw [add_child_eq]
  cases hfind : ac.findChild node ch with
  | some child => exact ⟨words,kids,h,rfl,(h.spelled.find_child hw ch child).1 hfind⟩
  | none =>
    have hnew := (h.spelled.find_child_none hw ch).1 hfind
    have hlen : ac.nodes.length = words.length := h.spelled.words_length.symm
    have hne : node ≠ ac.nodes.length := by
      rw [hlen]
      exact (List.getElem?_eq_some_iff.1 hw).1.ne
    refine ⟨_,_,⟨h.spelled.push hw hnew,?_,?_,?_⟩,rfl,?_⟩
    · obtain ⟨root,-,hroot,-⟩ := h.spelled.node h.spelled.root
      have hlink := h.root_link
      rw [link_of_some hroot] at hlink
      rw [link_of_some (push_node_old hroot)]
      split <;> exact hlink
    · intro i u hi
      rcases get_concat.1 hi with hi | ⟨rfl,rfl⟩
      · obtain ⟨old,-,hold,-⟩ := h.spelled.node hi
        have hvalue := h.value i u hi
        rw [value_of_some hold] at hvalue
        rw [value_of_some (push_node_old hold)]
        split <;> exact hvalue
      · have hempty : {v | (w ++ [ch],v) ∈ dict} = ∅ := by
          ext v
          exact iff_of_false (fun hv => hnew (h.word _ v hv).1) (Set.notMem_empty v)
        rw [← hlen, value_of_some (push_node_new hne), hempty]
        exact best_empty
    · intro u v hv
      obtain ⟨hmem,hne,hle⟩ := h.word u v hv
      exact ⟨List.mem_append_left _ hmem,hne,hle⟩
    · rw [hlen]
      exact List.getElem?_concat_length

theorem Holds.add_letters (h : Holds ac words kids dict) {node : ℕ} {w : List UInt8}
    (hw : words[node]? = some w) (letters : List UInt8) :
    ∃ words' kids', Holds (letters.foldl (fun added c => added.1.addChild added.2 c) (ac,node)).1
        words' kids' dict ∧
      (letters.foldl (fun added c => added.1.addChild added.2 c) (ac,node)).1.maxValue =
        ac.maxValue ∧
      words'[(letters.foldl (fun added c => added.1.addChild added.2 c) (ac,node)).2]? =
        some (w ++ letters) := by
  induction letters generalizing ac words kids node w with
  | nil => exact ⟨words,kids,h,rfl,(List.append_nil w).symm ▸ hw⟩
  | cons c letters ih =>
    obtain ⟨words',kids',h',hmax',hw'⟩ := h.add_child hw c
    obtain ⟨words'',kids'',h'',hmax'',hw''⟩ := ih h' hw'
    rw [List.append_assoc] at hw''
    exact ⟨words'',kids'',h'',hmax''.trans hmax',hw''⟩

/-- What is changed of a node but its place in the trie leaves the words. -/
theorem Spelled.modify (h : Spelled ac words kids) (i : ℕ) (f : TrieNode → TrieNode)
    (hf : ∀ node, (f node).firstChild = node.firstChild ∧
      (f node).nextSibling = node.nextSibling ∧ (f node).ch = node.ch) :
    Spelled { ac with nodes := ac.nodes.modify i f } words kids := by
  have hget {j : ℕ} {new : TrieNode} (hnew : (ac.nodes.modify i f)[j]? = some new) :
      ∃ old, ac.nodes[j]? = some old ∧ new.firstChild = old.firstChild ∧
        new.nextSibling = old.nextSibling ∧ new.ch = old.ch := by
    rw [List.getElem?_modify] at hnew
    obtain ⟨old,hold,rfl⟩ := Option.map_eq_some_iff.1 hnew
    refine ⟨old,hold,?_⟩
    split
    · exact hf old
    · exact ⟨rfl,rfl,rfl⟩
  have hframe : ∀ (j : ℕ) old, ac.nodes[j]? = some old →
      ∃ new, (ac.nodes.modify i f)[j]? = some new ∧ new.nextSibling = old.nextSibling := by
    intro j old hold
    refine ⟨if i = j then f old else old,?_,?_⟩
    · rw [List.getElem?_modify, hold]
      rfl
    · split
      · exact (hf old).2.1
      · rfl
  refine { h with
    words_length := h.words_length.trans (List.length_modify _ _ _).symm
    kids_length := h.kids_length.trans (List.length_modify _ _ _).symm, siblings := ?_, ch := ?_ }
  · intro j new ks hnew hks
    obtain ⟨old,hold,hfirst,-⟩ := hget hnew
    rw [hfirst]
    exact (h.siblings j old ks hold hks).frame hframe
  · intro j w c new hword hnew
    obtain ⟨old,hold,-,-,hch⟩ := hget hnew
    exact hch.trans (h.ch j w c old hword hold)

/-- The dictionary with a word more. -/
theorem Holds.add_word (h : Holds ac words kids dict) {i : ℕ} {w : List UInt8}
    (hw : words[i]? = some w) (hne : w ≠ []) {value : ℤ}
    (hle : value ≤ ac.maxValue) :
    Holds { ac with nodes :=
        ac.nodes.modify i fun node => { node with value := max node.value value } } words kids
      (insert (w,value) dict) := by
  refine ⟨h.spelled.modify i _ fun _ => ⟨rfl,rfl,rfl⟩,?_,?_,?_⟩
  · have hlink := h.root_link
    rw [linkOf] at hlink ⊢
    rw [List.getElem?_modify]
    cases hroot : ac.nodes[0]? with
    | none => rfl
    | some root =>
      rw [hroot] at hlink
      rw [Option.map_eq_map, Option.map_some]
      split <;> exact hlink
  · intro j u hu
    obtain ⟨old,-,hold,-⟩ := h.spelled.node hu
    have hbest := h.value j u hu
    rw [value_of_some hold] at hbest
    have hget : (ac.nodes.modify i fun node => { node with value := max node.value value })[j]? =
        some (if i = j then { old with value := max old.value value } else old) := by
      rw [List.getElem?_modify, hold]
      rfl
    rw [value_of_some hget]
    by_cases heq : i = j
    · obtain rfl : u = w := Option.some.inj (hu.symm.trans (heq ▸ hw))
      have hset : {v | (u,v) ∈ insert (u,value) dict} = {v | (u,v) ∈ dict} ∪ {value} := by
        ext v
        simp
      rw [if_pos heq, hset]
      exact hbest.add_value value
    · have hset : {v | (u,v) ∈ insert (w,value) dict} = {v | (u,v) ∈ dict} := by
        ext v
        have hother : u ≠ w := by
          rintro rfl
          exact heq (h.spelled.index hw hu)
        simp [hother]
      rwa [if_neg heq, hset]
  · intro u v huv
    rcases Set.mem_insert_iff.1 huv with heq | huv
    · obtain ⟨rfl,rfl⟩ := Prod.mk.inj heq
      exact ⟨List.mem_of_getElem? hw,hne,hle⟩
    · exact h.word u v huv

/-- The trie of a dictionary: none yet for an empty one. -/
def Covers (ac : AhoCorasick) (dict : Set (List UInt8 × ℤ)) : Prop :=
  (ac.nodes = [] ∧ dict = ∅) ∨ ∃ words kids, Holds ac words kids dict

theorem holds_root (maxValue : ℤ) :
    Holds { rootChildren := fun _ => none, nodes := [{}], maxValue } [[]] [[]] ∅ := by
  have hnone (j : ℕ) (w : List UInt8) (ch : UInt8) : ([[]] : List (List UInt8))[j]? ≠
      some (w ++ [ch]) := by
    intro h
    have hmem := List.mem_of_getElem? h
    simp at hmem
  refine ⟨⟨rfl,rfl,?_,by simp,?_,?_,?_,by simp,rfl,?_⟩,rfl,?_,?_⟩
  · intro i node ks hnode hks
    obtain rfl := List.mem_singleton.1 (List.mem_of_getElem? hnode)
    obtain rfl := List.mem_singleton.1 (List.mem_of_getElem? hks)
    exact .nil
  · intro i w ks _ hks j
    obtain rfl := List.mem_singleton.1 (List.mem_of_getElem? hks)
    exact iff_of_false (List.not_mem_nil) fun ⟨ch,hch⟩ => hnone j w ch hch
  · intro j w ch node hword
    exact (hnone j w ch hword).elim
  · intro ch j
    exact iff_of_false (by simp) (hnone j [] ch)
  · intro u c hmem
    simp at hmem
  · intro i w hi
    have hi : i = 0 := by
      have := (List.getElem?_eq_some_iff.1 hi).1
      simpa using this
    rw [hi]
    exact best_empty
  · intro w v hv
    exact hv.elim

theorem Holds.max (h : Holds ac words kids dict) {m : ℤ} (hm : ac.maxValue ≤ m) :
    Holds { ac with maxValue := m } words kids dict :=
  ⟨{ h.spelled with },h.root_link,h.value,fun w v hv =>
    ⟨(h.word w v hv).1,(h.word w v hv).2.1,(h.word w v hv).2.2.trans hm⟩⟩

theorem add_covers (h : Covers ac dict) {pat : List UInt8} (hne : anchored pat ≠ []) (value : ℤ) :
    Covers (ac.add pat value) (insert (anchored pat,value) dict) := by
  obtain ⟨words,kids,hstart⟩ : ∃ words kids,
      Holds (if ac.nodes.isEmpty then
          { ac with maxValue := max ac.maxValue value, rootChildren := fun _ => none, nodes := [{}] }
        else { ac with maxValue := max ac.maxValue value }) words kids dict := by
    obtain ⟨hnodes,rfl⟩ | ⟨words,kids,hholds⟩ := h
    · rw [hnodes]
      exact ⟨_,_,holds_root _⟩
    · have hsome : ac.nodes.isEmpty = false := by
        have hlen := hholds.spelled.words_length
        have hroot := (List.getElem?_eq_some_iff.1 hholds.spelled.root).1
        rw [List.isEmpty_eq_false_iff, ← List.length_pos_iff]
        omega
      rw [hsome]
      exact ⟨words,kids,hholds.max (le_max_left _ _)⟩
  obtain ⟨words',kids',hadded,hmax,hword⟩ := hstart.add_letters hstart.spelled.root (anchored pat)
  refine .inr ⟨words',kids',hadded.add_word hword hne ?_⟩
  rw [hmax]
  split <;> exact le_max_right _ _

end Add

end MoldMacho.Globs.AhoCorasick
