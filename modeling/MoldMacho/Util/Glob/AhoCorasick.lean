import Mathlib.Logic.Function.Basic
import MoldMacho.Lib.LongestSuffix
import MoldMacho.Util.Glob.Nfa

/-!
# Many words at once

A trie of words with, at each node, a link to that of the longest suffix of its
word that is in the trie, and the largest value of a word that its word ends with.
A text is read a letter at a time, the node always that of its longest suffix.
-/

set_option autoImplicit false

namespace MoldMacho.Globs
open MoldMacho.LongestSuffix

structure TrieNode where
  value : ℤ := -1
  suffixLink : Option ℕ := none
  firstChild : Option ℕ := none
  nextSibling : Option ℕ := none
  ch : UInt8 := 0

structure AhoCorasick where
  rootChildren : UInt8 → Option ℕ := fun _ => none
  nodes : List TrieNode := []
  maxValue : ℤ := 0

namespace AhoCorasick

/-- Whether but for a star at each end the pattern is a word. -/
def canHandle (pat : List UInt8) : Bool :=
  let pat := if [0x2a].isPrefixOf pat then pat.drop 1 else pat
  let pat := if [0x2a].isSuffixOf pat then pat.dropLast else pat
  !pat.isEmpty && !pat.any fun c => c == 0x2a || c == 0x3f || c == 0x5b || c == 0x5c

/-- The nodes from one on, each the next sibling of the one before. -/
def siblings (nodes : List TrieNode) : ℕ → Option ℕ → List ℕ
  | fuel+1, some i => i::siblings nodes fuel (nodes[i]?.bind TrieNode.nextSibling)
  | _, _ => []

def children (nodes : List TrieNode) (node : ℕ) : List ℕ :=
  siblings nodes nodes.length (nodes[node]?.bind TrieNode.firstChild)

def findChild (ac : AhoCorasick) (node : ℕ) (ch : UInt8) : Option ℕ :=
  if node = 0 then ac.rootChildren ch
  else (children ac.nodes node).find? fun i => (ac.nodes[i]?.map TrieNode.ch) == some ch

def addChild (ac : AhoCorasick) (node : ℕ) (ch : UInt8) : AhoCorasick × ℕ :=
  match ac.findChild node ch with
  | some child => (ac,child)
  | none =>
    let child := ac.nodes.length
    let nextSibling := ac.nodes[node]?.bind TrieNode.firstChild
    let added : TrieNode := { nextSibling, ch }
    let nodes := (ac.nodes ++ [added]).modify node
      fun parent => { parent with firstChild := some child }
    ({ ac with
        nodes
        rootChildren :=
          if node = 0 then Function.update ac.rootChildren ch (some child) else ac.rootChildren },
      child)

/-- The word of a pattern, a NUL where it is anchored. -/
def anchored (pat : List UInt8) : List UInt8 :=
  (if [0x2a].isPrefixOf pat then [] else [0]) ++ pat.filter (· != 0x2a) ++
    if [0x2a].isSuffixOf pat then [] else [0]

def add (ac : AhoCorasick) (pat : List UInt8) (value : ℤ) : AhoCorasick :=
  let ac := { ac with maxValue := max ac.maxValue value }
  let ac := if ac.nodes.isEmpty then { ac with rootChildren := fun _ => none, nodes := [{}] } else ac
  let added := (anchored pat).foldl (fun added c => added.1.addChild added.2 c) (ac,0)
  { added.1 with nodes :=
      added.1.nodes.modify added.2 fun node => { node with value := max node.value value } }

def linkOf (ac : AhoCorasick) (node : ℕ) : Option ℕ := ac.nodes[node]?.bind TrieNode.suffixLink

def valueOf (ac : AhoCorasick) (node : ℕ) : ℤ := (ac.nodes[node]?.map TrieNode.value).getD (-1)

/-- Along the links, the first node with a child by the letter, or the root. -/
def backTo (ac : AhoCorasick) (ch : UInt8) : ℕ → ℕ → ℕ
  | fuel+1, suffix =>
    if suffix ≠ 0 ∧ ac.findChild suffix ch = none then
      backTo ac ch fuel ((ac.linkOf suffix).getD 0)
    else suffix
  | 0, suffix => suffix

def linkTo (ac : AhoCorasick) (child suffix : ℕ) (value : ℤ) : AhoCorasick :=
  { ac with nodes := ac.nodes.modify child fun node =>
      { node with suffixLink := some suffix, value := max node.value value } }

def linkChild (idx : ℕ) (ac : AhoCorasick) (child : ℕ) : AhoCorasick :=
  let ch := (ac.nodes[child]?.map TrieNode.ch).getD 0
  let suffix := ac.backTo ch ac.nodes.length ((ac.linkOf idx).getD 0)
  let suffix := (ac.findChild suffix ch).getD suffix
  ac.linkTo child suffix (ac.valueOf suffix)

/-- Links the nodes below those queued, breadth first. -/
def linkQueued : ℕ → AhoCorasick → List ℕ → AhoCorasick
  | fuel+1, ac, idx::queue =>
    linkQueued fuel ((children ac.nodes idx).foldl (linkChild idx) ac)
      (queue ++ children ac.nodes idx)
  | _, ac, _ => ac

def linkRoot (ac : AhoCorasick) (child : ℕ) : AhoCorasick :=
  { ac with nodes := ac.nodes.modify child fun node => { node with suffixLink := some 0 } }

def compile (ac : AhoCorasick) : AhoCorasick :=
  if ac.nodes.isEmpty then ac
  else
    linkQueued ac.nodes.length ((children ac.nodes 0).foldl linkRoot ac) (children ac.nodes 0)

/-- The node the letter leads to from `node`, along the links. -/
def walkFrom (ac : AhoCorasick) (c : UInt8) : ℕ → Option ℕ → Option ℕ
  | fuel+1, some node => (ac.findChild node c).or (walkFrom ac c fuel (ac.linkOf node))
  | _, _ => none

/-- Reads a letter: the node it leads to, and the largest value so far. -/
def walk (ac : AhoCorasick) (c : UInt8) (place : ℕ × ℤ) : ℕ × ℤ :=
  match ac.walkFrom c ac.nodes.length (some place.1) with
  | some child => (child,max place.2 (ac.valueOf child))
  | none => (0,place.2)

/-- Reads a string, up to where the largest value of all is found. -/
def findFrom (ac : AhoCorasick) : ℕ × ℤ → List UInt8 → ℤ
  | place, [] => (ac.walk 0 place).2
  | place, c::s =>
    if (ac.walk c place).2 = ac.maxValue then ac.maxValue else ac.findFrom (ac.walk c place) s

def find (ac : AhoCorasick) (s : List UInt8) : ℤ :=
  if ac.nodes.isEmpty then -1 else ac.findFrom (ac.walk 0 (0,-1)) s

end AhoCorasick

end MoldMacho.Globs
