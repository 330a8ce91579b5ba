import Mathlib.Data.FinEnum
import Mathlib.Data.Fintype.Card
import MoldMacho.Chunks.ExportTriePlacement

/-!
# Walking the export trie

dyld looks a name up by matching edge labels from the root and following
child offsets. Walking an encoded trie finds for each exported name its
payload, and nothing for any other name.
-/

set_option autoImplicit false

namespace MoldMacho.ExportTrie
open MoldMacho.RadixTree MoldMacho.Leb128

/-! The walk. `none` is a malformed trie. -/

/-- Scans an edge label to its NUL. The symbol is `none` once the edge is
a wrong one; the result is what is left of it and of the bytes. -/
def matchEdge : List UInt8 → Option Name → Option (Option Name × List UInt8)
  | [], _ => none
  | c::rest, symbol =>
    if c = 0 then some (symbol, rest)
    else
      matchEdge rest (symbol.bind fun
        | [] => none
        | b::symbol => if c = b then some symbol else none)

def skipUleb : List UInt8 → Option (List UInt8)
  | [] => none
  | b::rest => if b < 0x80 then some rest else skipUleb rest

/-- The offset of the child whose edge the symbol follows, if there is
one, with the symbol past the edge. -/
def findChild : ℕ → List UInt8 → Name → Option (Option (ℕ × Name))
  | 0, _, _ => some none
  | n+1, bytes, symbol => do
    let (matched, bytes) ← matchEdge bytes (some symbol)
    match matched with
    | some symbol => do
      let (off, _) ← decodeUleb bytes
      some (some (off, symbol))
    | none => findChild n (← skipUleb bytes) symbol

/-- `trieWalk` from the node at `off`, through at most `fuel` nodes: the
bytes of the symbol's payload, if it has one. -/
def trieWalk (trie : List UInt8) : ℕ → ℕ → Name → Option (Option (List UInt8))
  | 0, _, _ => none
  | fuel+1, off, symbol => do
    let (terminalSize, bytes) ← decodeUleb (trie.drop off)
    if symbol = [] ∧ terminalSize ≠ 0 then some (some (bytes.take terminalSize))
    else
      match bytes.drop terminalSize with
      | [] => none
      | n::bytes => do
        match ← findChild n.toNat bytes symbol with
        | none => some none
        | some (off, symbol) =>
          if off = 0 ∨ trie.length < off then none else trieWalk trie fuel off symbol

/-- What dyld reads in a payload. -/
def readPayload (bytes : List UInt8) : Option Export := do
  let (flags, bytes) ← decodeUleb bytes
  if flags &&& flagsReexport ≠ 0 then do
    let (ordinal, bytes) ← decodeUleb bytes
    some (.reexport ordinal (bytes.takeWhile (· ≠ 0)))
  else do
    let (address, _) ← decodeUleb bytes
    some (.addr flags address)

/-! Payloads. -/

/-- An export dyld can tell from a re-export, or back from one. -/
def Export.Readable : Export → Prop
  | .addr flags _ => flags &&& flagsReexport = 0
  | .reexport _ name => (0 : UInt8) ∉ name

theorem read_payload (e : Export) (h : e.Readable) : readPayload e.payload = some e := by
  cases e with
  | addr flags address =>
    have hd := decode_encode_uleb address []
    rw [List.append_nil] at hd
    have hflags : flags &&& flagsReexport = 0 := h
    simp [readPayload, Export.payload, decode_encode_uleb, hd, hflags]
  | reexport ordinal name =>
    have hname : (name ++ [0]).takeWhile (· ≠ 0) = name := by
      rw [List.takeWhile_append_of_pos]
      · simp
      · intro a ha
        have : a ≠ 0 := fun hz => h (hz ▸ ha)
        simpa using this
    have hflags : flagsReexport &&& flagsReexport ≠ 0 := by decide
    simp only [readPayload, Export.payload, List.append_assoc, decode_encode_uleb,
      Option.bind_eq_bind, Option.bind_some, hflags, ne_eq, not_false_eq_true, if_true, hname]

theorem payload_length (e : Export) : e.payload.length = e.terminalSize := by
  cases e with
  | addr flags address => simp [Export.payload, Export.terminalSize, encode_uleb_length]
  | reexport ordinal name =>
    simp [Export.payload, Export.terminalSize, encode_uleb_length]
    omega

theorem terminal_size_pos (e : Export) : e.terminalSize ≠ 0 := by
  cases e with
  | addr flags address =>
    rw [Export.terminalSize, ulebSize]
    split
    · omega
    · omega
  | reexport ordinal name =>
    rw [Export.terminalSize]
    omega

/-! Edges. -/

theorem skip_encode_uleb (value : ℕ) (rest : List UInt8) :
    skipUleb (encodeUleb value ++ rest) = some rest := by
  induction value using Nat.strong_induction_on with
  | _ value ih =>
    by_cases h : value < 128
    · rw [encode_uleb_last value h]
      have := group_toNat value h
      simp [skipUleb, UInt8.lt_iff_toNat_lt, this, h]
    · rw [encode_uleb_more value (by omega)]
      have := more_toNat (value%128) (Nat.mod_lt _ (by decide))
      simp [skipUleb, UInt8.lt_iff_toNat_lt, this, ih (value/128) (by omega)]

theorem match_wrong (label rest : List UInt8) (h : (0 : UInt8) ∉ label) :
    matchEdge (label ++ 0::rest) none = some (none, rest) := by
  induction label with
  | nil => simp [matchEdge]
  | cons c label ih =>
    have hc : c ≠ 0 := fun hz => h (by simp [hz])
    simp [matchEdge, hc, ih fun hm => h (by simp [hm])]

theorem match_strip (label rest : List UInt8) (h : (0 : UInt8) ∉ label) (symbol : Name) :
    matchEdge (label ++ 0::rest) (some symbol) = some (strip label symbol, rest) := by
  induction label generalizing symbol with
  | nil => simp [matchEdge, strip]
  | cons c label ih =>
    have hc : c ≠ 0 := fun hz => h (by simp [hz])
    have hl : (0 : UInt8) ∉ label := fun hm => h (by simp [hm])
    cases symbol with
    | nil => simp [matchEdge, hc, strip, match_wrong label rest hl]
    | cons b symbol =>
      by_cases hb : c = b
      · simp [matchEdge, strip, hb, ← ih hl symbol]
        simp [← hb, hc]
      · simp [matchEdge, hc, strip, hb, match_wrong label rest hl]

/-- The child whose edge the symbol follows. -/
def pick : Edges → ℕ → Name → Option (ℕ × Name)
  | .nil, _, _ => none
  | .edge label _ below rest, base, symbol =>
    match strip label symbol with
    | some symbol => some (base, symbol)
    | none => pick rest (base+1+size below) symbol

theorem find_child_pick (offs : ℕ → ℕ) (f : Edges) (base : ℕ)
    (h : f.Labels fun label => (0 : UInt8) ∉ label) (symbol : Name) (tail : List UInt8) :
    findChild (indexed f base).length ((indexed f base).flatMap (edgeBytes offs) ++ tail) symbol =
      some ((pick f base symbol).map fun (i, symbol) => (offs i, symbol)) := by
  induction f generalizing base with
  | nil => rfl
  | edge label e below rest _ ihr =>
    simp only [indexed, List.length_cons, findChild, List.flatMap_cons, edgeBytes,
      List.append_assoc, List.cons_append, match_strip label _ h.1, Option.bind_eq_bind,
      Option.bind_some]
    cases hs : strip label symbol with
    | some symbol' => simp [pick, hs, decode_encode_uleb]
    | none => simp [pick, hs, skip_encode_uleb, ihr _ h.2.2]

theorem pick_none {f : Edges} {base : ℕ} {symbol : Name} (h : pick f base symbol = none) :
    f.scan symbol = none := by
  induction f generalizing base with
  | nil => rfl
  | edge label e below rest _ ihr =>
    cases hs : strip label symbol with
    | some symbol' => simp [pick, hs] at h
    | none =>
      simp only [pick, hs] at h
      simp only [Forest.scan, hs]
      exact ihr h

theorem pick_length {f : Edges} (hf : f.Ordered) {base i : ℕ} {symbol symbol' : Name}
    (h : pick f base symbol = some (i, symbol')) : symbol'.length < symbol.length := by
  induction f generalizing base with
  | nil => simp [pick] at h
  | edge label e below rest _ ihr =>
    cases hs : strip label symbol with
    | some suffix =>
      obtain ⟨⟨a,ha,_⟩,_⟩ := hf
      simp only [pick, hs, Option.some.injEq, Prod.mk.injEq] at h
      have hkey := congrArg List.length ((strip_some_iff label symbol suffix).1 hs)
      have hpos : 0 < label.length := by
        cases label with
        | nil => simp at ha
        | cons => simp
      rw [List.length_append, h.2] at hkey
      omega
    | none =>
      simp only [pick, hs] at h
      exact ihr hf.2.2 h

/-- A node's edges start with distinct bytes other than 0, so their count
fits its byte. -/
theorem children_lt (f : Edges) (base : ℕ) (hf : f.Ordered)
    (hl : f.Labels fun label => (0 : UInt8) ∉ label) : (indexed f base).length < 256 := by
  have hlen : (indexed f base).length = f.heads.length := by
    clear hl
    induction f generalizing base with
    | nil => rfl
    | edge label e below rest _ ihr =>
      obtain ⟨⟨a,ha,_⟩,_,hr⟩ := hf
      simp [indexed, Forest.heads, ha, ihr _ hr, Nat.add_comm]
  have hzero : (0 : UInt8) ∉ f.heads := by
    clear hlen
    induction f with
    | nil => simp [Forest.heads]
    | edge label e below rest _ ihr =>
      simp only [Forest.heads, List.mem_append, not_or]
      constructor
      · intro hm
        rw [Option.mem_toList] at hm
        exact hl.1 (List.mem_of_mem_head? hm)
      · exact ihr hf.2.2 hl.2.2
  have hnodup : ((0 : UInt8)::f.heads).Nodup := List.nodup_cons.2 ⟨hzero,ordered_heads_nodup hf⟩
  have hcard := hnodup.length_le_card
  have h256 : Fintype.card UInt8 = 256 := by
    rw [Fintype.card_congr
      (⟨UInt8.toFin,UInt8.ofFin,fun b => by simp,fun b => by simp⟩ : UInt8 ≃ Fin 256)]
    simp
  rw [h256, List.length_cons] at hcard
  omega

/-- One node of the walk. -/
theorem walk_node {trie : List UInt8} {off : ℕ} {offs : ℕ → ℕ} {e : Option Export} {f : Edges}
    {base : ℕ} {tail : List UInt8}
    (h : trie.drop off = nodeBytes offs ⟨e, indexed f base⟩ ++ tail) (hf : f.Ordered)
    (hl : f.Labels fun label => (0 : UInt8) ∉ label) (fuel : ℕ) (symbol : Name) :
    trieWalk trie (fuel+1) off symbol =
      if symbol = [] ∧ e.isSome then some (e.map Export.payload)
      else
        match pick f base symbol with
        | none => some none
        | some (i, symbol) =>
          if offs i = 0 ∨ trie.length < offs i then none
          else trieWalk trie fuel (offs i) symbol := by
  have hcount : ((indexed f base).length.toUInt8).toNat = (indexed f base).length := by
    simp [Nat.mod_eq_of_lt (children_lt f base hf hl)]
  have hfind := find_child_pick offs f base hl symbol tail
  cases e with
  | none =>
    have hd : decodeUleb (0 :: ((indexed f base).length.toUInt8 ::
        ((indexed f base).flatMap (edgeBytes offs) ++ tail))) =
        some (0, (indexed f base).length.toUInt8 ::
          ((indexed f base).flatMap (edgeBytes offs) ++ tail)) := by
      have := decode_encode_uleb 0 ((indexed f base).length.toUInt8 ::
        ((indexed f base).flatMap (edgeBytes offs) ++ tail))
      rwa [encode_uleb_last 0 (by decide)] at this
    rw [trieWalk, h]
    simp only [nodeBytes, terminalBytes, List.cons_append, List.nil_append, hd,
      Option.bind_eq_bind, Option.bind_some, List.drop_zero, ne_eq, not_true_eq_false, and_false,
      if_false, Option.isSome_none, Bool.false_eq_true, hcount, hfind]
    cases pick f base symbol with
    | none => rfl
    | some c => rfl
  | some x =>
    have hpos : x.payload.length ≠ 0 := by
      rw [payload_length]
      exact terminal_size_pos x
    rw [trieWalk, h]
    simp only [nodeBytes, terminalBytes, List.append_assoc, List.cons_append, decode_encode_uleb,
      Option.bind_eq_bind, Option.bind_some, Option.isSome_some, ← payload_length, hpos, ne_eq,
      not_false_eq_true, and_true, List.take_left, List.drop_left, hcount, hfind]
    cases pick f base symbol with
    | none => rfl
    | some c => rfl

/-- Walking on from the child the symbol's edge leads to finds what a
search of the edges finds. -/
theorem walk_pick {trie : List UInt8} {offs : ℕ → ℕ} {nodes : List Node}
    (hw : ∀ i node, nodes[i]? = some node →
      (∃ tail, trie.drop (offs i) = nodeBytes offs node ++ tail) ∧ offs i ≤ trie.length ∧
        (i ≠ 0 → offs i ≠ 0))
    (f : Edges) (base : ℕ) (hbase : base ≠ 0) (hh : Holds nodes f base) (hf : f.Ordered)
    (hl : f.Labels fun label => (0 : UInt8) ∉ label) {symbol symbol' : Name} {i : ℕ}
    (h : pick f base symbol = some (i, symbol')) (fuel : ℕ) (hfuel : symbol'.length < fuel) :
    ¬ (offs i = 0 ∨ trie.length < offs i) ∧
      trieWalk trie fuel (offs i) symbol' = some ((f.scan symbol).map Export.payload) := by
  induction f generalizing base symbol symbol' i fuel with
  | nil => simp [pick] at h
  | edge label e below rest ihb ihr =>
    obtain ⟨hnode,hbelow,hrest⟩ := holds_edge hh
    cases hs : strip label symbol with
    | none =>
      simp only [pick, hs] at h
      simp only [Forest.scan, hs]
      exact ihr _ (by omega) hrest hf.2.2 hl.2.2 h fuel hfuel
    | some suffix =>
      simp only [pick, hs, Option.some.injEq, Prod.mk.injEq] at h
      obtain ⟨rfl,rfl⟩ := h
      obtain ⟨⟨tail,htail⟩,hle,hne⟩ := hw base _ hnode
      constructor
      · have := hne hbase
        omega
      · obtain ⟨fuel,rfl⟩ : ∃ k, fuel = k+1 := ⟨fuel-1,by omega⟩
        rw [walk_node htail hf.2.1 hl.2.1]
        simp only [Forest.scan, hs]
        cases hp : pick below (base+1) suffix with
        | none =>
          have hscan := pick_none hp
          cases suffix with
          | nil => cases e with
            | none => rfl
            | some x => rfl
          | cons b suffix => simp [hscan]
        | some c =>
          obtain ⟨j,symbol''⟩ := c
          have hlen := pick_length hf.2.1 hp
          have hi := ihb (base+1) (by omega) hbelow hf.2.1 hl.2.1 hp fuel (by omega)
          cases suffix with
          | nil => simp at hlen
          | cons b suffix => simp [hi.1, hi.2]

/-- Walking from the root finds what the list of exports has. -/
theorem walk_root {exports : List (Name × Export)}
    (hsorted : exports.Pairwise fun a b => a.1 < b.1) (hnul : ∀ n ∈ exports, (0 : UInt8) ∉ n.1)
    {trie : List UInt8} {offs : ℕ → ℕ} (h0 : offs 0 = 0)
    (hw : ∀ i node, (numberNodes (buildTrie exports 0))[i]? = some node →
      (∃ tail, trie.drop (offs i) = nodeBytes offs node ++ tail) ∧ offs i ≤ trie.length ∧
        (i ≠ 0 → offs i ≠ 0))
    (symbol : Name) {fuel : ℕ} (hfuel : symbol.length < fuel) :
    trieWalk trie fuel 0 symbol = some ((exports.lookup symbol).map Export.payload) := by
  have hasc : Ascending 0 exports := by simpa [Ascending] using hsorted
  obtain ⟨hsplit,hsplitAsc,hsplitLong⟩ := split_suffixes hasc (by simp)
  obtain ⟨hordered,hentries⟩ := build_entries _ 0 hsplitAsc hsplitLong
  have hsame : suffixes 0 exports = exports := by simp [suffixes]
  have hlabels := build_labels (splitTerminal 0 exports).2 0
    fun n hn => hnul n ((split_terminal_sublist 0 exports).mem hn)
  have hsort := sort_ordered hordered
  have hholds : Holds (numberNodes (buildTrie exports 0))
      (buildChildren (splitTerminal 0 exports).2 0) 1 := by
    have := holds_numbered (buildTrie exports 0)
    rwa [buildTrie, hsort] at this
  have hroot : (numberNodes (buildTrie exports 0))[0]? = some ⟨(splitTerminal 0 exports).1,
      indexed (buildChildren (splitTerminal 0 exports).2 0) 1⟩ := by
    rw [numberNodes, buildTrie, hsort]
    rfl
  obtain ⟨⟨tail,htail⟩,_⟩ := hw 0 _ hroot
  obtain ⟨fuel,rfl⟩ : ∃ k, fuel = k+1 := ⟨fuel-1,by omega⟩
  rw [h0] at htail
  rw [walk_node htail hordered hlabels]
  have hlookup : exports.lookup symbol =
      (((splitTerminal 0 exports).1.toList.map fun e => (([] : Name), e)).lookup symbol).or
        ((buildChildren (splitTerminal 0 exports).2 0).scan symbol) := by
    rw [scan_entries (ordered_radix hordered), hentries, ← List.lookup_append, ← hsplit, hsame]
  rw [hlookup]
  cases hp : pick (buildChildren (splitTerminal 0 exports).2 0) 1 symbol with
  | none =>
    rw [pick_none hp]
    cases symbol with
    | nil => cases (splitTerminal 0 exports).1 with
      | none => rfl
      | some e => rfl
    | cons b symbol => cases (splitTerminal 0 exports).1 with
      | none => rfl
      | some e => rfl
  | some c =>
    obtain ⟨i,symbol'⟩ := c
    have hlen := pick_length hordered hp
    have hi := walk_pick hw _ 1 (by decide) hholds hordered hlabels hp fuel (by omega)
    cases symbol with
    | nil => simp at hlen
    | cons b symbol => cases (splitTerminal 0 exports).1 with
      | none => simp [hi.1, hi.2]
      | some e => simp [hi.1, hi.2, List.lookup_cons]

/-- The size of the trie before it is padded. -/
def trieSize (exports : List (Name × Export)) : Option ℕ :=
  (placeNodes (numberNodes (buildTrie exports 0))).map Placement.total

/-- The encoded trie of a sorted list of exports holds each node in the
slice placed for it, and walking it finds the payload of each name listed
and none for any other. -/
theorem export_trie_walk (exports : List (Name × Export)) (hne : exports ≠ [])
    (hsorted : exports.Pairwise fun a b => a.1 < b.1) (hnul : ∀ n ∈ exports, (0 : UInt8) ∉ n.1)
    (hsize : ∀ n ∈ trieSize exports, n < 2^32) :
    ∃ p trie, placeNodes (numberNodes (buildTrie exports 0)) = some p ∧
      encodeExportTrie exports = some trie ∧
      (∀ (i : ℕ) (node : Node), (numberNodes (buildTrie exports 0))[i]? = some node →
        (nodeBytes p.offs node).length ≤ p.sizes i) ∧
      (∀ (symbol : Name) (fuel : ℕ), symbol.length < fuel →
        trieWalk trie fuel 0 symbol = some ((exports.lookup symbol).map Export.payload)) ∧
      ∀ e : Export, e.Readable → readPayload e.payload = some e := by
  have htotal : ∀ p, placeNodes (numberNodes (buildTrie exports 0)) = some p → p.total < 2^32 := by
    intro p hp
    exact hsize p.total (by simp [trieSize, hp])
  obtain ⟨p,buf,hplace,hwrite,h0,hat⟩ := written htotal
  refine ⟨p,buf ++ List.replicate ((8-buf.length%8)%8) 0,hplace,?_,?_,?_,read_payload⟩
  · rw [encodeExportTrie, if_neg hne]
    simp [hplace, hwrite]
  · intro i node hnode
    exact (hat i node hnode).1
  · intro symbol fuel hfuel
    apply walk_root hsorted hnul h0 _ symbol hfuel
    intro i node hnode
    obtain ⟨_,⟨tail,htail⟩,hle,hi⟩ := hat i node hnode
    constructor
    · constructor
      · rw [List.drop_append_of_le_length hle, htail, List.append_assoc]
    · exact ⟨by rw [List.length_append]; omega,hi⟩

/-- A name, a name it is a prefix of, and a re-export under another name. -/
theorem export_trie_walk_three :
    let exports : List (Name × Export) :=
      [([95, 97], .addr 0 0x4000), ([95, 97, 98], .addr 4 300), ([95, 98], .reexport 1 [95, 113])]
    ∃ trie, encodeExportTrie exports = some trie ∧
      trieWalk trie 4 0 [95, 97] = some (some (Export.addr 0 0x4000).payload) ∧
      trieWalk trie 4 0 [95] = some none := by
  intro exports
  have hsize : trieSize exports = some 38 := by decide +kernel
  obtain ⟨p,trie,_,htrie,_,hwalk,_⟩ := export_trie_walk exports (by decide) (by decide)
    (by decide) (by rw [hsize]; decide)
  exact ⟨trie,htrie,hwalk [95, 97] 4 (by decide),hwalk [95] 4 (by decide)⟩

end MoldMacho.ExportTrie
