import MoldMacho.Util.Glob.TrieWords

/-!
# The links of the trie

Breadth first, each node is linked once all that are no deeper than its parent are:
its link and the largest value below it come from those.
-/

set_option autoImplicit false

namespace MoldMacho.Globs.AhoCorasick
open MoldMacho.LongestSuffix

/-- The values of the words that `w` ends with. -/
def suffixValues (dict : Set (List UInt8 × ℤ)) (w : List UInt8) : Set ℤ :=
  {v | ∃ u, (u,v) ∈ dict ∧ u <:+ w}

/-- The node's link is the longest proper suffix in the trie, and its value that of all
its suffixes. -/
structure LinkedAt (ac : AhoCorasick) (words : List (List UInt8)) (dict : Set (List UInt8 × ℤ))
    (node : ℕ) (w : List UInt8) : Prop where
  ne_nil : w ≠ []
  link : ∃ suffix u, ac.linkOf node = some suffix ∧ words[suffix]? = some u ∧
    IsLongest (· ∈ words) w.tail u
  value : Best (suffixValues dict w) (ac.valueOf node)

/-- Some nodes are linked, and the others' values are those of their words. -/
structure Linking (ac : AhoCorasick) (words : List (List UInt8)) (kids : List (List ℕ))
    (dict : Set (List UInt8 × ℤ)) (linked : List ℕ) : Prop where
  spelled : Spelled ac words kids
  root_link : ac.linkOf 0 = none
  word : ∀ w v, (w,v) ∈ dict → w ∈ words ∧ w ≠ [] ∧ v ≤ ac.maxValue
  done : ∀ j ∈ linked, ∀ w, words[j]? = some w → LinkedAt ac words dict j w
  rest : ∀ j ∉ linked, ∀ w, words[j]? = some w → Best {v | (w,v) ∈ dict} (ac.valueOf j)

section Links
variable {ac : AhoCorasick} {words : List (List UInt8)} {kids : List (List ℕ)}
  {dict : Set (List UInt8 × ℤ)} {linked : List ℕ}

theorem Holds.linking (h : Holds ac words kids dict) : Linking ac words kids dict [] :=
  ⟨h.spelled,h.root_link,h.word,by simp,fun j _ => h.value j⟩

theorem prefix_mem (hclosed : PrefixClosed (· ∈ words)) {u v : List UInt8} (h : u ++ v ∈ words) :
    u ∈ words := by
  induction v using List.reverseRecOn with
  | nil => rwa [List.append_nil] at h
  | append_singleton v c ih =>
    rw [← List.append_assoc] at h
    exact ih (hclosed _ c h)

/-- A word has fewer letters than there are nodes, one for each of its prefixes. -/
theorem Spelled.length_lt (h : Spelled ac words kids) {w : List UInt8} (hw : w ∈ words) :
    w.length < ac.nodes.length := by
  have hnodup : ((List.range (w.length+1)).map fun n => w.take n).Nodup := by
    apply List.Nodup.map_on _ List.nodup_range
    intro n hn m hm heq
    have hlen := congrArg List.length heq
    rw [List.mem_range] at hn hm
    rw [List.length_take, List.length_take] at hlen
    omega
  have hsub : ((List.range (w.length+1)).map fun n => w.take n) ⊆ words := by
    intro u hu
    obtain ⟨n,-,rfl⟩ := List.mem_map.1 hu
    apply prefix_mem h.closed (v := w.drop n)
    rwa [List.take_append_drop]
  have hle := (List.subperm_of_subset hnodup hsub).length_le
  rw [List.length_map, List.length_range, h.words_length] at hle
  exact hle

/-- All nodes of words up to a length are linked. -/
def LinkedUpTo (words : List (List UInt8)) (linked : List ℕ) (n : ℕ) : Prop :=
  ∀ (j : ℕ) w, words[j]? = some w → w ≠ [] → w.length ≤ n → j ∈ linked

theorem Linking.root_mem (h : Linking ac words kids dict linked) : [] ∈ words :=
  List.mem_of_getElem? h.spelled.root

theorem IsLongest.tail_length_lt {w u : List UInt8} (h : IsLongest (· ∈ words) w.tail u)
    (hne : w ≠ []) : u.length < w.length := by
  have hle := h.suffix.length_le
  have hpos := List.length_pos_iff.2 hne
  rw [List.length_tail] at hle
  omega

/-- Going back along the links keeps what the longest suffix past the letter is. -/
theorem Linking.back_to (h : Linking ac words kids dict linked) (ch : UInt8) {fuel suffix : ℕ}
    {u : List UInt8} (hu : words[suffix]? = some u) (hfuel : u.length < fuel)
    (hlinked : LinkedUpTo words linked u.length) :
    ∃ u', words[ac.backTo ch fuel suffix]? = some u' ∧ u'.length ≤ u.length ∧
      (∀ x, IsLongest (· ∈ words) (u ++ [ch]) x ↔ IsLongest (· ∈ words) (u' ++ [ch]) x) ∧
      (u' = [] ∨ u' ++ [ch] ∈ words) := by
  induction fuel generalizing suffix u with
  | zero => exact (Nat.not_lt_zero _ hfuel).elim
  | succ fuel ih =>
    rw [backTo]
    split
    · next hback =>
      obtain ⟨hzero,hnone⟩ := hback
      have hne : u ≠ [] := by
        rintro rfl
        exact hzero (h.spelled.index hu h.spelled.root)
      have hout := (h.spelled.find_child_none hu ch).1 hnone
      obtain ⟨suffix',u',hlink,hu',hlongest⟩ :=
        (h.done suffix (hlinked suffix u hu hne le_rfl) u hu).link
      have hless := IsLongest.tail_length_lt hlongest hne
      rw [hlink, Option.getD_some]
      obtain ⟨u'',hu'',hle,hsame,hend⟩ := ih hu' (by omega)
        fun j w hw hwne hwle => hlinked j w hw hwne (hwle.trans hless.le)
      refine ⟨u'',hu'',hle.trans hless.le,?_,hend⟩
      intro x
      rw [← hsame x]
      exact hlongest.back h.spelled.closed hout hne
    · next hstop =>
      refine ⟨u,hu,le_rfl,fun _ => Iff.rfl,?_⟩
      rw [not_and_or, not_not] at hstop
      rcases hstop with rfl | hsome
      · rw [h.spelled.root] at hu
        exact .inl (Option.some.inj hu).symm
      · rw [h.spelled.find_child_none hu ch, not_not] at hsome
        exact .inr hsome

/-- The child by the letter of the node gone back to is that of the longest suffix. -/
theorem Linking.found (h : Linking ac words kids dict linked) {ch : UInt8} {suffix : ℕ}
    {u : List UInt8} (hu : words[suffix]? = some u) (hend : u = [] ∨ u ++ [ch] ∈ words) :
    ∃ x, words[(ac.findChild suffix ch).getD suffix]? = some x ∧
      IsLongest (· ∈ words) (u ++ [ch]) x := by
  cases hfind : ac.findChild suffix ch with
  | some next =>
    have hnext := (h.spelled.find_child hu ch next).1 hfind
    exact ⟨_,hnext,IsLongest.self (List.mem_of_getElem? hnext)⟩
  | none =>
    have hout := (h.spelled.find_child_none hu ch).1 hfind
    have hnil := hend.resolve_right hout
    rw [hnil] at hu hout ⊢
    exact ⟨[],hu,IsLongest.nil h.root_mem hout⟩

/-- The value of a node of no more letters than are linked is that of its suffixes. -/
theorem Linking.suffix_value (h : Linking ac words kids dict linked) {j n : ℕ} {w : List UInt8}
    (hw : words[j]? = some w) (hlinked : LinkedUpTo words linked n) (hle : w.length ≤ n) :
    Best (suffixValues dict w) (ac.valueOf j) := by
  by_cases hnil : w = []
  · have hroot : j ∉ linked := fun hj => (h.done j hj w hw).ne_nil hnil
    have hset : suffixValues dict w = {v | (w,v) ∈ dict} := by
      ext v
      rw [hnil]
      constructor
      · rintro ⟨u,hu,hsuffix⟩
        rwa [List.suffix_nil.1 hsuffix] at hu
      · intro hv
        exact ⟨[],hv,List.suffix_refl []⟩
    rw [hset]
    exact h.rest j hroot w hw
  · exact (h.done j (hlinked j w hw hnil hle) w hw).value

/-- The words that a node's word ends with: itself, and those its link ends with. -/
theorem suffix_values_link (h : Linking ac words kids dict linked) {w u : List UInt8} (hne : w ≠ [])
    (hlink : IsLongest (· ∈ words) w.tail u) :
    suffixValues dict w = {v | (w,v) ∈ dict} ∪ suffixValues dict u := by
  ext v
  simp only [suffixValues, Set.mem_ofPred_eq, Set.mem_union]
  have hsuffix {x : List UInt8} (hx : x ∈ words) : x <:+ w ↔ x = w ∨ x <:+ u := by
    rw [← hlink.suffix_iff hx]
    obtain ⟨c,rest,rfl⟩ := List.exists_cons_of_ne_nil hne
    exact List.suffix_cons_iff
  constructor
  · rintro ⟨x,hx,hxw⟩
    rcases (hsuffix (h.word x v hx).1).1 hxw with rfl | hxu
    · exact .inl hx
    · exact .inr ⟨x,hx,hxu⟩
  · rintro (hv | ⟨x,hx,hxu⟩)
    · exact ⟨w,hv,List.suffix_refl w⟩
    · exact ⟨x,hx,(hsuffix (h.word x v hx).1).2 (.inr hxu)⟩

/-! ## One node -/

theorem Linking.link_node (h : Linking ac words kids dict linked) {child suffix : ℕ}
    {w u : List UInt8} (hw : words[child]? = some w) (hne : w ≠ [])
    (hu : words[suffix]? = some u) (hlongest : IsLongest (· ∈ words) w.tail u)
    {f : TrieNode → TrieNode} (hf : ∀ node, (f node).firstChild = node.firstChild ∧
      (f node).nextSibling = node.nextSibling ∧ (f node).ch = node.ch)
    (hlink : ∀ node, (f node).suffixLink = some suffix)
    (hvalue : ∀ node, ac.nodes[child]? = some node → Best (suffixValues dict w) (f node).value) :
    Linking { ac with nodes := ac.nodes.modify child f } words kids dict (linked ++ [child]) := by
  obtain ⟨node,-,hnode,-⟩ := h.spelled.node hw
  have hother {j : ℕ} (hj : child ≠ j) : (ac.nodes.modify child f)[j]? = ac.nodes[j]? := by
    rw [List.getElem?_modify]
    simp [hj]
  have hself : (ac.nodes.modify child f)[child]? = some (f node) := by
    rw [List.getElem?_modify, hnode]
    simp
  have hroot : child ≠ 0 := by
    rintro rfl
    exact hne (Option.some.inj (hw.symm.trans h.spelled.root))
  refine ⟨h.spelled.modify child f hf,?_,h.word,?_,?_⟩
  · rw [linkOf, hother hroot]
    exact h.root_link
  · intro j hj w' hw'
    by_cases heq : child = j
    · obtain rfl : w' = w := Option.some.inj (hw'.symm.trans (heq ▸ hw))
      rw [← heq]
      refine ⟨hne,⟨suffix,u,?_,hu,hlongest⟩,?_⟩
      · rw [link_of_some hself, hlink]
      · rw [value_of_some hself]
        exact hvalue node hnode
    · have hmem : j ∈ linked := by
        rcases List.mem_append.1 hj with hj | hj
        · exact hj
        · exact (heq (List.mem_singleton.1 hj).symm).elim
      obtain ⟨hne',⟨suffix',u',hlink',hu',hlongest'⟩,hvalue'⟩ := h.done j hmem w' hw'
      refine ⟨hne',⟨suffix',u',?_,hu',hlongest'⟩,?_⟩
      · rw [linkOf, hother heq]
        exact hlink'
      · rw [valueOf, hother heq]
        exact hvalue'
  · intro j hj w' hw'
    rw [List.mem_append, not_or, List.mem_singleton] at hj
    rw [valueOf, hother (Ne.symm hj.2)]
    exact h.rest j hj.1 w' hw'

/-- A child is linked once all nodes no deeper than its parent are. -/
theorem Linking.link_child (h : Linking ac words kids dict linked) {idx child : ℕ} {w : List UInt8}
    {ch : UInt8} (hidx : words[idx]? = some w) (hne : w ≠ []) (hmem : idx ∈ linked)
    (hchild : words[child]? = some (w ++ [ch])) (hnew : child ∉ linked)
    (hlinked : LinkedUpTo words linked w.length) :
    Linking (linkChild idx ac child) words kids dict (linked ++ [child]) := by
  obtain ⟨node,-,hnode,-⟩ := h.spelled.node hchild
  obtain ⟨suffix,u,hlink,hu,hlongest⟩ := (h.done idx hmem w hidx).link
  have hless := IsLongest.tail_length_lt hlongest hne
  have hch : (ac.nodes[child]?.map TrieNode.ch).getD 0 = ch := by
    rw [hnode]
    exact h.spelled.ch child w ch node hchild hnode
  have hfuel : u.length < ac.nodes.length := h.spelled.length_lt (List.mem_of_getElem? hu)
  obtain ⟨u',hu',hle,hsame,hend⟩ := h.back_to ch hu hfuel
    fun j x hx hxne hxle => hlinked j x hx hxne (hxle.trans hless.le)
  obtain ⟨x,hx,hxlongest⟩ := h.found hu' hend
  have htail : (w ++ [ch]).tail = w.tail ++ [ch] := List.tail_append_of_ne_nil hne
  have hlongest' : IsLongest (· ∈ words) (w ++ [ch]).tail x := by
    rw [htail, hlongest.concat_iff h.spelled.closed]
    exact (hsame x).2 hxlongest
  have hxle : x.length ≤ w.length := by
    have hlen := hxlongest.suffix.length_le
    rw [List.length_append, List.length_singleton] at hlen
    omega
  unfold linkChild
  rw [hch, hlink, Option.getD_some]
  dsimp only [linkTo]
  refine h.link_node hchild (by simp) hx hlongest' (fun _ => ⟨rfl,rfl,rfl⟩) (fun _ => rfl) ?_
  intro node' hnode'
  have hown := h.rest child hnew _ hchild
  rw [value_of_some hnode'] at hown
  rw [suffix_values_link h (by simp) hlongest']
  exact hown.union (h.suffix_value hx hlinked hxle)

theorem Linking.link_children (h : Linking ac words kids dict linked) {idx : ℕ} {w : List UInt8}
    (hidx : words[idx]? = some w) (hne : w ≠ []) (hmem : idx ∈ linked)
    (hlinked : LinkedUpTo words linked w.length) {children : List ℕ}
    (hchildren : ∀ j ∈ children, ∃ ch, words[j]? = some (w ++ [ch])) (hnodup : children.Nodup)
    (hnew : ∀ j ∈ children, j ∉ linked) :
    Linking (children.foldl (linkChild idx) ac) words kids dict (linked ++ children) := by
  induction children generalizing ac linked with
  | nil => rwa [List.append_nil]
  | cons child children ih =>
    obtain ⟨ch,hchild⟩ := hchildren child (by simp)
    obtain ⟨hnot,hnodup⟩ := List.nodup_cons.1 hnodup
    have hstep := h.link_child hidx hne hmem hchild (hnew child (by simp)) hlinked
    have hrest := ih hstep (by simp [hmem])
      (fun j x hx hxne hxle => List.mem_append_left _ (hlinked j x hx hxne hxle))
      (fun j hj => hchildren j (by simp [hj])) hnodup (by
        intro j hj hmem
        rcases List.mem_append.1 hmem with hold | hsame
        · exact hnew j (by simp [hj]) hold
        · exact hnot (List.mem_singleton.1 hsame ▸ hj))
    rwa [List.append_assoc] at hrest

/-- The root's children link to the root. -/
theorem Linking.link_roots (h : Linking ac words kids dict linked) {children : List ℕ}
    (hchildren : ∀ j ∈ children, ∃ ch, words[j]? = some [ch]) (hnodup : children.Nodup)
    (hnew : ∀ j ∈ children, j ∉ linked) :
    Linking (children.foldl linkRoot ac) words kids dict (linked ++ children) := by
  induction children generalizing ac linked with
  | nil => rwa [List.append_nil]
  | cons child children ih =>
    obtain ⟨ch,hchild⟩ := hchildren child (by simp)
    obtain ⟨hnot,hnodup⟩ := List.nodup_cons.1 hnodup
    have hlongest : IsLongest (· ∈ words) [ch].tail [] := IsLongest.self h.root_mem
    have hstep : Linking (linkRoot ac child) words kids dict (linked ++ [child]) := by
      refine h.link_node hchild (by simp) h.spelled.root hlongest (fun _ => ⟨rfl,rfl,rfl⟩)
        (fun _ => rfl) ?_
      intro node hnode
      have hown := h.rest child (hnew child (by simp)) _ hchild
      have hroot : suffixValues dict [] = ∅ := by
        ext v
        refine iff_of_false ?_ (Set.notMem_empty v)
        rintro ⟨u,hu,hsuffix⟩
        exact (h.word u v hu).2.1 (List.suffix_nil.1 hsuffix)
      rw [suffix_values_link h (by simp) hlongest, hroot, Set.union_empty]
      rwa [value_of_some hnode] at hown
    have hrest := ih hstep (fun j hj => hchildren j (by simp [hj])) hnodup (by
      intro j hj hmem
      rcases List.mem_append.1 hmem with hold | hsame
      · exact hnew j (by simp [hj]) hold
      · exact hnot (List.mem_singleton.1 hsame ▸ hj))
    rwa [List.append_assoc] at hrest

end Links

/-! ## Breadth first -/

def depth (words : List (List UInt8)) (node : ℕ) : ℕ := (words[node]?.getD []).length

theorem depth_of {words : List (List UInt8)} {node : ℕ} {w : List UInt8}
    (h : words[node]? = some w) : depth words node = w.length := by
  rw [depth, h]
  rfl

/-- The queue: below the root and the nodes taken off, all are linked; what is queued
is by depth, of two depths at most. -/
structure Queued (ac : AhoCorasick) (words : List (List UInt8)) (kids : List (List ℕ))
    (dict : Set (List UInt8 × ℤ)) (popped queue : List ℕ) : Prop where
  linking : Linking ac words kids dict (popped ++ queue)
  nodup : (popped ++ queue).Nodup
  below : ∀ (i j : ℕ) w ch, words[i]? = some w → words[j]? = some (w ++ [ch]) →
    w = [] ∨ i ∈ popped → j ∈ popped ++ queue
  parent : ∀ j ∈ popped ++ queue, ∃ i w ch, words[i]? = some w ∧ words[j]? = some (w ++ [ch]) ∧
    (w = [] ∨ i ∈ popped)
  sorted : queue.Pairwise fun a b => depth words a ≤ depth words b ∧ depth words b ≤ depth words a+1

section Queue
variable {ac : AhoCorasick} {words : List (List UInt8)} {kids : List (List ℕ)}
  {dict : Set (List UInt8 × ℤ)} {popped queue : List ℕ} {idx : ℕ}

/-- All nodes no deeper than the first of the queue are linked. -/
theorem Queued.linked_up_to (h : Queued ac words kids dict popped (idx::queue)) {w : List UInt8}
    (hw : words[idx]? = some w) : LinkedUpTo words (popped ++ idx::queue) w.length := by
  intro j u hu hne hle
  induction hn : u.length generalizing j u with
  | zero => exact (hne (List.length_eq_zero_iff.1 hn)).elim
  | succ n ih =>
    obtain ⟨u',ch,rfl⟩ := List.eq_nil_or_concat' u |>.resolve_left hne
    obtain ⟨i,hi⟩ := List.mem_iff_getElem?.1
      (h.linking.spelled.closed u' ch (List.mem_of_getElem? hu))
    rw [List.length_append, List.length_singleton] at hle hn
    by_cases hnil : u' = []
    · exact h.below i j u' ch hi hu (.inl hnil)
    · have hmem := ih i u' hi hnil (by omega) (by omega)
      rcases List.mem_append.1 hmem with hpopped | hqueue
      · exact h.below i j u' ch hi hu (.inr hpopped)
      · exfalso
        have hshallow : depth words i < depth words idx := by
          rw [depth_of hi, depth_of hw]
          omega
        rcases List.mem_cons.1 hqueue with rfl | hqueue
        · exact lt_irrefl _ hshallow
        · have := ((List.pairwise_cons.1 h.sorted).1 i hqueue).1
          omega

/-- The first of the queue is taken off, and its children are queued. -/
theorem Queued.pop (h : Queued ac words kids dict popped (idx::queue)) :
    Queued ((children ac.nodes idx).foldl (linkChild idx) ac) words kids dict (popped ++ [idx])
      (queue ++ children ac.nodes idx) := by
  obtain ⟨i,w,ch,hi,hidx,-⟩ := h.parent idx (by simp)
  have hspelled := h.linking.spelled
  have hmem := hspelled.mem_children hidx
  have hnew : ∀ j ∈ children ac.nodes idx, j ∉ popped ++ idx::queue := by
    intro j hj hold
    obtain ⟨ch',hword⟩ := (hmem j).1 hj
    obtain ⟨i',w',ch'',hi',hword',hparent⟩ := h.parent j hold
    rw [hword] at hword'
    obtain ⟨rfl,-⟩ := List.append_inj' (Option.some.inj hword') rfl
    rcases hparent with hnil | hpopped
    · simp at hnil
    · rw [hspelled.index hi' hidx] at hpopped
      have hdisjoint := (List.nodup_append.1 h.nodup).2.2
      exact hdisjoint idx hpopped idx (by simp) rfl
  have hassoc : popped ++ [idx] ++ (queue ++ children ac.nodes idx) =
      popped ++ idx::queue ++ children ac.nodes idx := by simp
  refine ⟨?_,?_,?_,?_,?_⟩
  · rw [hassoc]
    exact h.linking.link_children hidx (by simp) (by simp) (h.linked_up_to hidx)
      (fun j hj => (hmem j).1 hj) (hspelled.children_nodup hidx) hnew
  · rw [hassoc]
    refine h.nodup.append (hspelled.children_nodup hidx) ?_
    exact fun j hold hj => hnew j hj hold
  · intro i' j w' ch' hi' hj hparent
    rw [hassoc]
    by_cases heq : i' = idx
    · obtain rfl : w' = w ++ [ch] := Option.some.inj (hi'.symm.trans (heq ▸ hidx))
      exact List.mem_append_right _ ((hmem j).2 ⟨ch',hj⟩)
    · apply List.mem_append_left
      apply h.below i' j w' ch' hi' hj
      simpa [heq] using hparent
  · intro j hj
    rw [hassoc] at hj
    rcases List.mem_append.1 hj with hj | hj
    · obtain ⟨i',w',ch',hi',hj',hparent⟩ := h.parent j hj
      exact ⟨i',w',ch',hi',hj',hparent.imp_right fun hp => List.mem_append_left _ hp⟩
    · obtain ⟨ch',hj'⟩ := (hmem j).1 hj
      exact ⟨idx,_,ch',hidx,hj',.inr (by simp)⟩
  · have hdepth : ∀ j ∈ children ac.nodes idx, depth words j = depth words idx+1 := by
      intro j hj
      obtain ⟨ch',hj'⟩ := (hmem j).1 hj
      rw [depth_of hj', depth_of hidx]
      exact List.length_append
    obtain ⟨hfront,hsorted⟩ := List.pairwise_cons.1 h.sorted
    rw [List.pairwise_append]
    refine ⟨hsorted,?_,?_⟩
    · apply List.pairwise_of_forall_mem_list
      intro a ha b hb
      rw [hdepth a ha, hdepth b hb]
      exact ⟨le_rfl,Nat.le_succ _⟩
    · intro a ha b hb
      have := hfront a ha
      rw [hdepth b hb]
      omega

/-- Once the queue is empty all nodes but the root are linked. -/
theorem Queued.all (h : Queued ac words kids dict popped []) {j : ℕ} {u : List UInt8}
    (hu : words[j]? = some u) (hne : u ≠ []) : j ∈ popped := by
  induction hn : u.length generalizing j u with
  | zero => exact (hne (List.length_eq_zero_iff.1 hn)).elim
  | succ n ih =>
    obtain ⟨u',ch,rfl⟩ := List.eq_nil_or_concat' u |>.resolve_left hne
    obtain ⟨i,hi⟩ := List.mem_iff_getElem?.1
      (h.linking.spelled.closed u' ch (List.mem_of_getElem? hu))
    rw [List.length_append, List.length_singleton] at hn
    have hmem := h.below i j u' ch hi hu
    rw [List.append_nil] at hmem
    by_cases hnil : u' = []
    · exact hmem (.inl hnil)
    · exact hmem (.inr (ih hi hnil (by omega)))

theorem Queued.length_lt (h : Queued ac words kids dict popped queue) :
    (popped ++ queue).length < ac.nodes.length := by
  have hroot : 0 ∉ popped ++ queue := by
    intro hmem
    exact (h.linking.done 0 hmem [] h.linking.spelled.root).ne_nil rfl
  have hsub : 0::(popped ++ queue) ⊆ List.range ac.nodes.length := by
    intro j hj
    rw [List.mem_range, ← h.linking.spelled.words_length]
    rcases List.mem_cons.1 hj with rfl | hj
    · exact (List.getElem?_eq_some_iff.1 h.linking.spelled.root).1
    · obtain ⟨-,w,ch,-,hword,-⟩ := h.parent j hj
      exact (List.getElem?_eq_some_iff.1 hword).1
  have hle := (List.subperm_of_subset (List.nodup_cons.2 ⟨hroot,h.nodup⟩) hsub).length_le
  rwa [List.length_range, List.length_cons] at hle

theorem Queued.run (h : Queued ac words kids dict popped queue) (fuel : ℕ)
    (hfuel : ac.nodes.length ≤ popped.length+fuel) :
    ∃ popped', Queued (linkQueued fuel ac queue) words kids dict popped' [] := by
  induction fuel generalizing ac popped queue with
  | zero =>
    have hlen := h.length_lt
    rw [List.length_append] at hlen
    omega
  | succ fuel ih =>
    cases queue with
    | nil => exact ⟨popped,h⟩
    | cons idx queue =>
      have hpop := h.pop
      have hlen := hpop.linking.spelled.words_length
      rw [h.linking.spelled.words_length] at hlen
      apply ih hpop
      rw [← hlen, List.length_append, List.length_singleton]
      omega

end Queue

/-! ## The automaton -/

/-- All nodes but the root are linked. -/
def Compiled (ac : AhoCorasick) (words : List (List UInt8)) (kids : List (List ℕ))
    (dict : Set (List UInt8 × ℤ)) : Prop :=
  ∃ linked, Linking ac words kids dict linked ∧
    ∀ (j : ℕ) u, words[j]? = some u → u ≠ [] → j ∈ linked

section Compiled
variable {ac : AhoCorasick} {words : List (List UInt8)} {kids : List (List ℕ)}
  {dict : Set (List UInt8 × ℤ)}

theorem Holds.compile (h : Holds ac words kids dict) : Compiled ac.compile words kids dict := by
  have hspelled := h.spelled
  have hmem := hspelled.mem_children hspelled.root
  have hnodup := hspelled.children_nodup hspelled.root
  have hne : ac.nodes.isEmpty = false := by
    have hlt := (List.getElem?_eq_some_iff.1 hspelled.root).1
    rw [hspelled.words_length] at hlt
    rw [List.isEmpty_eq_false_iff, ← List.length_pos_iff]
    exact hlt
  have hroots := h.linking.link_roots (fun j hj => (hmem j).1 hj) hnodup (by simp)
  have hdepth : ∀ j ∈ children ac.nodes 0, depth words j = 1 := by
    intro j hj
    obtain ⟨ch,hch⟩ := (hmem j).1 hj
    exact depth_of hch
  have hqueued : Queued ((children ac.nodes 0).foldl linkRoot ac) words kids dict []
      (children ac.nodes 0) := by
    refine ⟨hroots,hnodup,?_,?_,?_⟩
    · intro i j w ch hi hj hparent
      obtain rfl := hparent.resolve_right List.not_mem_nil
      exact (hmem j).2 ⟨ch,hj⟩
    · intro j hj
      obtain ⟨ch,hch⟩ := (hmem j).1 hj
      exact ⟨0,[],ch,hspelled.root,hch,.inl rfl⟩
    · apply List.pairwise_of_forall_mem_list
      intro a ha b hb
      rw [hdepth a ha, hdepth b hb]
      exact ⟨le_rfl,Nat.le_succ _⟩
  obtain ⟨popped,hdone⟩ := hqueued.run ac.nodes.length (by
    rw [← hroots.spelled.words_length, hspelled.words_length]
    exact Nat.le_add_left _ _)
  have hlinking := hdone.linking
  rw [List.append_nil] at hlinking
  rw [AhoCorasick.compile, hne, if_neg Bool.false_ne_true]
  exact ⟨popped,hlinking,fun j u hu hune => hdone.all hu hune⟩

/-- A letter leads to the node of the longest suffix past it. -/
theorem Compiled.walk_from (h : Compiled ac words kids dict) (c : UInt8) {fuel node : ℕ}
    {u : List UInt8} (hu : words[node]? = some u) (hfuel : u.length < fuel) :
    ∃ x, IsLongest (· ∈ words) (u ++ [c]) x ∧
      ((x = [] ∧ ac.walkFrom c fuel (some node) = none) ∨
        ∃ child, ac.walkFrom c fuel (some node) = some child ∧ words[child]? = some x) := by
  obtain ⟨linked,hlinking,hall⟩ := h
  induction fuel generalizing node u with
  | zero => exact (Nat.not_lt_zero _ hfuel).elim
  | succ fuel ih =>
    rw [walkFrom]
    cases hfind : ac.findChild node c with
    | some child =>
      have hchild := (hlinking.spelled.find_child hu c child).1 hfind
      exact ⟨_,IsLongest.self (List.mem_of_getElem? hchild),.inr ⟨child,rfl,hchild⟩⟩
    | none =>
      have hout := (hlinking.spelled.find_child_none hu c).1 hfind
      rw [Option.none_or]
      by_cases hnil : u = []
      · rw [hnil] at hu hout ⊢
        rw [hlinking.spelled.index hu hlinking.spelled.root, hlinking.root_link]
        refine ⟨[],IsLongest.nil hlinking.root_mem hout,.inl ⟨rfl,?_⟩⟩
        cases fuel <;> rfl
      · obtain ⟨suffix,v,hlink,hv,hlongest⟩ := (hlinking.done node (hall node u hu hnil) u hu).link
        have hless := IsLongest.tail_length_lt hlongest hnil
        rw [hlink]
        obtain ⟨x,hx,hfound⟩ := ih hv (by omega)
        exact ⟨x,(hlongest.back hlinking.spelled.closed hout hnil).2 hx,hfound⟩

/-- The text is read: the node is that of its longest suffix, and the value the largest
of the words in it. -/
structure Reached (words : List (List UInt8)) (dict : Set (List UInt8 × ℤ)) (text : List UInt8)
    (place : ℕ × ℤ) : Prop where
  node : ∃ u, words[place.1]? = some u ∧ IsLongest (· ∈ words) text u
  value : Best {v | ∃ u, (u,v) ∈ dict ∧ u <:+: text} place.2

theorem Compiled.walk (h : Compiled ac words kids dict) {text : List UInt8} {place : ℕ × ℤ}
    (hplace : Reached words dict text place) (c : UInt8) :
    Reached words dict (text ++ [c]) (ac.walk c place) := by
  obtain ⟨linked,hlinking,hall⟩ := id h
  obtain ⟨⟨u,hu,hlongest⟩,hvalue⟩ := hplace
  have hfuel := hlinking.spelled.length_lt (List.mem_of_getElem? hu)
  obtain ⟨x,hx,hfound⟩ := h.walk_from c hu hfuel
  have hread := (hlongest.concat_iff hlinking.spelled.closed).2 hx
  have hset : {v | ∃ u, (u,v) ∈ dict ∧ u <:+: text ++ [c]} =
      {v | ∃ u, (u,v) ∈ dict ∧ u <:+: text} ∪ suffixValues dict x := by
    ext v
    simp only [Set.mem_union, Set.mem_ofPred_eq, suffixValues, ← exists_or, ← and_or_left]
    apply exists_congr
    intro w
    apply and_congr_right
    intro hw
    rw [List.infix_concat_iff, or_comm, hread.suffix_iff (hlinking.word w v hw).1]
  rw [AhoCorasick.walk]
  rcases hfound with ⟨rfl,hnone⟩ | ⟨child,hsome,hchild⟩
  · have hempty : suffixValues dict [] = ∅ := by
      ext v
      refine iff_of_false ?_ (Set.notMem_empty v)
      rintro ⟨w,hw,hsuffix⟩
      exact (hlinking.word w v hw).2.1 (List.suffix_nil.1 hsuffix)
    rw [hnone]
    refine ⟨⟨[],hlinking.spelled.root,hread⟩,?_⟩
    rwa [hset, hempty, Set.union_empty]
  · rw [hsome]
    refine ⟨⟨x,hchild,hread⟩,?_⟩
    rw [hset]
    exact hvalue.union (hlinking.suffix_value hchild (fun j w hw hne _ => hall j w hw hne) le_rfl)

theorem Compiled.find_from (h : Compiled ac words kids dict) {text s : List UInt8}
    {place : ℕ × ℤ} (hplace : Reached words dict text place) :
    Best {v | ∃ u, (u,v) ∈ dict ∧ u <:+: text ++ s ++ [0]} (ac.findFrom place s) := by
  induction s generalizing text place with
  | nil =>
    rw [List.append_nil]
    exact (h.walk hplace 0).value
  | cons c s ih =>
    have hstep := h.walk hplace c
    rw [findFrom]
    split
    · next hmax =>
      obtain ⟨linked,hlinking,-⟩ := h
      have hbest := hstep.value
      rw [hmax] at hbest
      have hall := hbest.union_of_le (b := {v | ∃ u, (u,v) ∈ dict ∧ u <:+: text ++ c::s ++ [0]}) (by
        rintro v ⟨u,hu,-⟩
        exact (hlinking.word u v hu).2.2)
      have hset : {v | ∃ u, (u,v) ∈ dict ∧ u <:+: text ++ [c]} ∪
          {v | ∃ u, (u,v) ∈ dict ∧ u <:+: text ++ c::s ++ [0]} =
          {v | ∃ u, (u,v) ∈ dict ∧ u <:+: text ++ c::s ++ [0]} := by
        apply Set.union_eq_right.2
        rintro v ⟨u,hu,hin⟩
        exact ⟨u,hu,hin.trans ⟨[],s ++ [0],by simp⟩⟩
      rwa [hset] at hall
    · have hrest := ih hstep
      rwa [List.append_assoc text, List.singleton_append] at hrest

end Compiled

/-- What is found in a string is the largest value of a word in it, its ends marked. -/
theorem find_best {ac : AhoCorasick} {dict : Set (List UInt8 × ℤ)} (h : Covers ac dict)
    (s : List UInt8) :
    Best {v | ∃ u, (u,v) ∈ dict ∧ u <:+: 0::(s ++ [0])} (ac.compile.find s) := by
  obtain ⟨hnodes,rfl⟩ | ⟨words,kids,hholds⟩ := h
  · have hcompile : ac.compile = ac := by
      rw [compile, hnodes]
      rfl
    rw [hcompile, find, hnodes]
    simpa using best_empty
  · have hcompiled := hholds.compile
    obtain ⟨linked,hlinking,-⟩ := id hcompiled
    have hne : ac.compile.nodes.isEmpty = false := by
      have hlt := (List.getElem?_eq_some_iff.1 hlinking.spelled.root).1
      rw [hlinking.spelled.words_length] at hlt
      rw [List.isEmpty_eq_false_iff, ← List.length_pos_iff]
      exact hlt
    have hstart : Reached words dict [] (0,-1) := by
      refine ⟨⟨[],hlinking.spelled.root,IsLongest.self hlinking.root_mem⟩,?_⟩
      have hempty : {v | ∃ u, (u,v) ∈ dict ∧ u <:+: []} = ∅ := by
        ext v
        refine iff_of_false ?_ (Set.notMem_empty v)
        rintro ⟨w,hw,hin⟩
        exact (hlinking.word w v hw).2.1 (List.infix_nil.1 hin)
      rw [hempty]
      exact best_empty
    rw [find, hne, if_neg Bool.false_ne_true]
    exact hcompiled.find_from (hcompiled.walk hstart 0)

end MoldMacho.Globs.AhoCorasick
