import Mathlib.Data.Prod.Lex
import MoldMacho.Lib.Counted
import MoldMacho.Util.Align
import MoldMacho.Util.Leb128

/-!
# Split info

The references an image makes between its sections, grouped by section pair,
target offset and kind, the offsets delta-coded (LC_SEGMENT_SPLIT_INFO, V2).
What the encoder writes of sorted references reads back as they were.
-/

set_option autoImplicit false

namespace MoldMacho.SplitInfo
open Leb128 Counted Align

structure Entry where
  fromSect : UInt8
  toSect : UInt8
  toOff : UInt64
  kind : UInt8
  fromOff : UInt64
  deriving DecidableEq

/-- The order of entries, field by field. -/
def Entry.key (e : Entry) : ℕ ×ₗ ℕ ×ₗ ℕ ×ₗ ℕ ×ₗ ℕ :=
  toLex (e.fromSect.toNat,toLex (e.toSect.toNat,toLex (e.toOff.toNat,
    toLex (e.kind.toNat,e.fromOff.toNat))))

def Sorted (entries : List Entry) : Prop := entries.Pairwise fun a b => a.key ≤ b.key

section Encode

def headOff (target : List Entry) : UInt64 := (target.head?.map Entry.toOff).getD 0

def encodeFrom (lastFrom : UInt64) (e : Entry) : List UInt8 := encodeUleb (e.fromOff-lastFrom).toNat

def encodeKind : List Entry → List UInt8
  | [] => []
  | e::kind => encodeUleb e.kind.toNat ++ encodeUleb (e::kind).length ++
      write encodeFrom (fun _ e => e.fromOff) 0 (e::kind)

def encodeTarget (lastTo : UInt64) : List Entry → List UInt8
  | [] => []
  | e::target =>
    let kinds := groups Entry.kind (e::target)
    encodeUleb (e.toOff-lastTo).toNat ++ encodeUleb kinds.length ++
      write (fun _ => encodeKind) (fun _ _ => ()) () kinds

def encodeSect : List Entry → List UInt8
  | [] => []
  | e::sect =>
    let targets := groups Entry.toOff (e::sect)
    encodeUleb e.fromSect.toNat ++ encodeUleb e.toSect.toNat ++ encodeUleb targets.length ++
      write encodeTarget (fun _ target => headOff target) 0 targets

def encode (entries : List Entry) : List UInt8 :=
  let sects := groups (fun e => (e.fromSect,e.toSect)) entries
  let buf := 0x7f :: encodeUleb sects.length ++ write (fun _ => encodeSect) (fun _ _ => ()) () sects ++ [0]
  buf ++ List.replicate (alignTo buf.length 8-buf.length) 0

end Encode

section Decode

def asByte (n : ℕ) : Option UInt8 := if n < 2^8 then some n.toUInt8 else none

def asWord (n : ℕ) : Option UInt64 := if n < 2^64 then some n.toUInt64 else none

/-- An offset, by its distance from the last. -/
def decodeOff (last : UInt64) (bytes : List UInt8) : Option (UInt64 × List UInt8) :=
  (decodeUleb bytes).bind fun (delta,bytes) => (asWord (last.toNat+delta)).map fun off => (off,bytes)

def decodeFrom (fromSect toSect : UInt8) (toOff : UInt64) (kind : UInt8) (lastFrom : UInt64)
    (bytes : List UInt8) : Option ((UInt64 × Entry) × List UInt8) :=
  (decodeOff lastFrom bytes).map fun (off,bytes) => ((off,⟨fromSect,toSect,toOff,kind,off⟩),bytes)

def decodeKind (fromSect toSect : UInt8) (toOff : UInt64) (_ : Unit) (bytes : List UInt8) :
    Option ((Unit × List Entry) × List UInt8) :=
  (decodeUleb bytes).bind fun (kind,bytes) => (asByte kind).bind fun kind =>
  (decodeUleb bytes).bind fun (count,bytes) =>
  (read (decodeFrom fromSect toSect toOff kind) count 0 bytes).map fun (entries,bytes) =>
    (((),entries),bytes)

def decodeTarget (fromSect toSect : UInt8) (lastTo : UInt64) (bytes : List UInt8) :
    Option ((UInt64 × List Entry) × List UInt8) :=
  (decodeOff lastTo bytes).bind fun (toOff,bytes) => (decodeUleb bytes).bind fun (count,bytes) =>
  (read (decodeKind fromSect toSect toOff) count () bytes).map fun (kinds,bytes) =>
    ((toOff,kinds.flatten),bytes)

def decodeSect (_ : Unit) (bytes : List UInt8) : Option ((Unit × List Entry) × List UInt8) :=
  (decodeUleb bytes).bind fun (fromSect,bytes) => (asByte fromSect).bind fun fromSect =>
  (decodeUleb bytes).bind fun (toSect,bytes) => (asByte toSect).bind fun toSect =>
  (decodeUleb bytes).bind fun (count,bytes) =>
  (read (decodeTarget fromSect toSect) count 0 bytes).map fun (targets,bytes) =>
    (((),targets.flatten),bytes)

/-- The references of V2 split info, and the bytes after them. -/
def decode : List UInt8 → Option (List Entry × List UInt8)
  | [] => none
  | format::bytes =>
    if format = 0x7f then
      (decodeUleb bytes).bind fun (count,bytes) =>
      (read decodeSect count () bytes).map fun (sects,bytes) => (sects.flatten,bytes)
    else none

end Decode

/-! Each level reads back what it wrote. -/

theorem as_byte_to_nat (b : UInt8) : asByte b.toNat = some b := by
  rw [asByte, if_pos b.toNat_lt]
  exact congrArg some UInt8.ofNat_toNat

theorem as_word_to_nat (w : UInt64) : asWord w.toNat = some w := by
  rw [asWord, if_pos w.toNat_lt]
  exact congrArg some UInt64.ofNat_toNat

theorem decode_off {last off : UInt64} (h : last ≤ off) (rest : List UInt8) :
    decodeOff last (encodeUleb (off-last).toNat ++ rest) = some (off,rest) := by
  have hsum : last.toNat+(off-last).toNat = off.toNat := by
    have hle := UInt64.le_iff_toNat_le.mp h
    rw [UInt64.toNat_sub_of_le _ _ h]
    omega
  rw [decodeOff, decode_encode_uleb, Option.bind_some]
  dsimp only
  rw [hsum, as_word_to_nat]
  rfl

section Levels
variable {fromSect toSect kind : UInt8} {toOff : UInt64}

theorem key_le_from {a b : Entry} (h : a.key ≤ b.key) (hf : a.fromSect = b.fromSect)
    (ht : a.toSect = b.toSect) (ho : a.toOff = b.toOff) (hk : a.kind = b.kind) :
    a.fromOff ≤ b.fromOff := by
  simpa [Entry.key, Prod.Lex.toLex_le_toLex, hf, ht, ho, hk, UInt64.le_iff_toNat_le] using h

theorem key_le_to {a b : Entry} (h : a.key ≤ b.key) (hf : a.fromSect = b.fromSect)
    (ht : a.toSect = b.toSect) : a.toOff ≤ b.toOff := by
  rw [Entry.key, Entry.key, Prod.Lex.toLex_le_toLex, hf, ht] at h
  simp only [lt_irrefl, true_and, false_or, Prod.Lex.toLex_le_toLex] at h
  rw [UInt64.le_iff_toNat_le]
  omega

theorem decode_from (lastFrom : UInt64) (e : Entry) (rest : List UInt8)
    (h : lastFrom ≤ e.fromOff ∧ e.fromSect = fromSect ∧ e.toSect = toSect ∧ e.toOff = toOff ∧
      e.kind = kind) :
    decodeFrom fromSect toSect toOff kind lastFrom (encodeFrom lastFrom e ++ rest) =
      some ((e.fromOff,e),rest) := by
  obtain ⟨hle,rfl,rfl,rfl,rfl⟩ := h
  rw [encodeFrom, decodeFrom, decode_off hle]
  rfl

/-- What a group of entries of one kind must be. -/
structure OneKind (fromSect toSect : UInt8) (toOff : UInt64) (group : List Entry) : Prop where
  ne_nil : group ≠ []
  sorted : Sorted group
  place : ∀ e ∈ group, e.fromSect = fromSect ∧ e.toSect = toSect ∧ e.toOff = toOff
  kind : ∀ a ∈ group, ∀ b ∈ group, a.kind = b.kind

theorem decode_kind (s : Unit) (group : List Entry) (rest : List UInt8)
    (h : OneKind fromSect toSect toOff group) :
    decodeKind fromSect toSect toOff s (encodeKind group ++ rest) = some (((),group),rest) := by
  cases group with
  | nil => exact absurd rfl h.ne_nil
  | cons e group =>
    have hfirst : ∀ a ∈ e::group, 0 ≤ a.fromOff ∧ a.fromSect = fromSect ∧ a.toSect = toSect ∧
        a.toOff = toOff ∧ a.kind = e.kind := by
      intro a ha
      obtain ⟨hf,ht,ho⟩ := h.place a ha
      exact ⟨UInt64.le_iff_toNat_le.mpr (Nat.zero_le _),hf,ht,ho,h.kind a ha e (by simp)⟩
    have hnext : (e::group).Pairwise fun a b => a.fromOff ≤ b.fromOff ∧ b.fromSect = fromSect ∧
        b.toSect = toSect ∧ b.toOff = toOff ∧ b.kind = e.kind := by
      refine h.sorted.imp_of_mem fun {a b} ha hb hle => ?_
      obtain ⟨hf,ht,ho⟩ := h.place a ha
      obtain ⟨hf',ht',ho'⟩ := h.place b hb
      exact ⟨key_le_from hle (hf.trans hf'.symm) (ht.trans ht'.symm) (ho.trans ho'.symm)
        (h.kind a ha b hb),hf',ht',ho',h.kind b hb e (by simp)⟩
    rw [encodeKind, decodeKind, List.append_assoc, List.append_assoc, decode_encode_uleb,
      Option.bind_some]
    dsimp only
    rw [as_byte_to_nat, Option.bind_some, decode_encode_uleb, Option.bind_some]
    dsimp only
    rw [read_back decode_from hfirst hnext]
    rfl

/-- What a group of entries of one target must be. -/
structure OneTarget (fromSect toSect : UInt8) (group : List Entry) : Prop where
  ne_nil : group ≠ []
  sorted : Sorted group
  place : ∀ e ∈ group, e.fromSect = fromSect ∧ e.toSect = toSect
  target : ∀ a ∈ group, ∀ b ∈ group, a.toOff = b.toOff

theorem OneTarget.kinds {e : Entry} {group : List Entry} (h : OneTarget fromSect toSect (e::group)) :
    ∀ kind ∈ groups Entry.kind (e::group), OneKind fromSect toSect e.toOff kind := by
  intro kind hkind
  refine ⟨group_ne_nil hkind,(groups_pairwise h.sorted).1 kind hkind,fun a ha => ?_,
    groups_same hkind⟩
  have hmem := mem_of_group hkind ha
  exact ⟨(h.place a hmem).1,(h.place a hmem).2,h.target a hmem e (by simp)⟩

theorem decode_target (lastTo : UInt64) (group : List Entry) (rest : List UInt8)
    (h : lastTo ≤ headOff group ∧ OneTarget fromSect toSect group) :
    decodeTarget fromSect toSect lastTo (encodeTarget lastTo group ++ rest) =
      some ((headOff group,group),rest) := by
  obtain ⟨hle,h⟩ := h
  cases group with
  | nil => exact absurd rfl h.ne_nil
  | cons e group =>
    replace hle : lastTo ≤ e.toOff := hle
    have hnext : (groups Entry.kind (e::group)).Pairwise fun _ kind =>
        OneKind fromSect toSect e.toOff kind :=
      List.pairwise_of_forall_mem_list fun _ _ kind hkind => h.kinds kind hkind
    rw [encodeTarget, decodeTarget, List.append_assoc, List.append_assoc, decode_off hle,
      Option.bind_some]
    dsimp only
    rw [decode_encode_uleb, Option.bind_some]
    dsimp only
    rw [headOff, List.head?_cons, Option.map_some, Option.getD_some,
      read_back decode_kind h.kinds hnext, Option.map_some, groups_flatten]

/-- What a group of entries of one section pair must be. -/
structure OneSect (group : List Entry) : Prop where
  ne_nil : group ≠ []
  sorted : Sorted group
  place : ∀ a ∈ group, ∀ b ∈ group, (a.fromSect,a.toSect) = (b.fromSect,b.toSect)

theorem OneSect.targets {e : Entry} {group : List Entry} (h : OneSect (e::group)) :
    ∀ target ∈ groups Entry.toOff (e::group), OneTarget e.fromSect e.toSect target := by
  intro target htarget
  refine ⟨group_ne_nil htarget,(groups_pairwise h.sorted).1 target htarget,fun a ha => ?_,
    groups_same htarget⟩
  exact Prod.mk.inj (h.place a (mem_of_group htarget ha) e (by simp))

/-- The targets of a section pair come in the order of their offsets. -/
theorem OneSect.target_order {group : List Entry} (h : OneSect group) :
    (groups Entry.toOff group).Pairwise fun a b => headOff a ≤ headOff b := by
  refine (groups_pairwise h.sorted).2.imp_of_mem fun {a b} ha hb hle => ?_
  obtain ⟨x,a,rfl⟩ := List.exists_cons_of_ne_nil (group_ne_nil ha)
  obtain ⟨y,b,rfl⟩ := List.exists_cons_of_ne_nil (group_ne_nil hb)
  have hx := mem_of_group ha (List.mem_cons_self (a := x))
  have hy := mem_of_group hb (List.mem_cons_self (a := y))
  obtain ⟨hf,ht⟩ := Prod.mk.inj (h.place x hx y hy)
  exact key_le_to (hle x (by simp) y (by simp)) hf ht

theorem decode_sect (s : Unit) (group : List Entry) (rest : List UInt8) (h : OneSect group) :
    decodeSect s (encodeSect group ++ rest) = some (((),group),rest) := by
  cases group with
  | nil => exact absurd rfl h.ne_nil
  | cons e group =>
    have hfirst : ∀ target ∈ groups Entry.toOff (e::group),
        0 ≤ headOff target ∧ OneTarget e.fromSect e.toSect target := fun target htarget =>
      ⟨UInt64.le_iff_toNat_le.mpr (Nat.zero_le _),h.targets target htarget⟩
    have hnext : (groups Entry.toOff (e::group)).Pairwise fun a b =>
        headOff a ≤ headOff b ∧ OneTarget e.fromSect e.toSect b :=
      h.target_order.imp_of_mem fun _ hb hle => ⟨hle,h.targets _ hb⟩
    rw [encodeSect, decodeSect, List.append_assoc, List.append_assoc, List.append_assoc,
      decode_encode_uleb, Option.bind_some]
    dsimp only
    rw [as_byte_to_nat, Option.bind_some, decode_encode_uleb, Option.bind_some]
    dsimp only
    rw [as_byte_to_nat, Option.bind_some, decode_encode_uleb, Option.bind_some]
    dsimp only
    rw [read_back decode_target hfirst hnext, Option.map_some, groups_flatten]

end Levels

section Stream
variable {entries : List Entry}

theorem Sorted.sects (hs : Sorted entries) :
    ∀ sect ∈ groups (fun e => (e.fromSect,e.toSect)) entries, OneSect sect := fun sect hsect =>
  ⟨group_ne_nil hsect,(groups_pairwise hs).1 sect hsect,groups_same hsect⟩

/-- Sorted references come back, and after them only the padding to a
multiple of 8 bytes. -/
theorem split_info_round_trip (hs : Sorted entries) :
    8 ∣ (encode entries).length ∧
      ∃ n, 1 ≤ n ∧ n ≤ 8 ∧ decode (encode entries) = some (entries,List.replicate n 0) := by
  have hnext : (groups (fun e : Entry => (e.fromSect,e.toSect)) entries).Pairwise fun _ sect =>
      OneSect sect := List.pairwise_of_forall_mem_list fun _ _ sect hsect => hs.sects sect hsect
  rw [encode]
  generalize hbuf : 0x7f :: encodeUleb _ ++ _ ++ [0] = buf
  have hle := le_align_to buf.length 8
  refine ⟨?_,1+(alignTo buf.length 8-buf.length),by omega,?_,?_⟩
  · rw [List.length_append, List.length_replicate, Nat.add_sub_cancel' hle]
    exact align_to_dvd (by decide) _
  · rw [alignTo, if_neg (by decide)]
    omega
  · rw [← hbuf, List.cons_append, List.cons_append, List.cons_append, decode, if_pos rfl,
      List.append_assoc, List.append_assoc, List.append_assoc, decode_encode_uleb, Option.bind_some]
    dsimp only
    rw [read_back decode_sect hs.sects hnext, Option.map_some, groups_flatten, List.replicate_add]
    rfl

/-- A reference made twice, and one from another place to the same target. -/
theorem split_info_twice :
    let entries : List Entry := [⟨1,2,0x10,3,8⟩,⟨1,2,0x10,3,8⟩,⟨1,2,0x10,4,0⟩]
    Sorted entries ∧ 8 ∣ (encode entries).length ∧
      ∃ n, 1 ≤ n ∧ n ≤ 8 ∧ decode (encode entries) = some (entries,List.replicate n 0) := by
  have hs : Sorted [⟨1,2,0x10,3,8⟩,⟨1,2,0x10,3,8⟩,⟨1,2,0x10,4,0⟩] := by
    simp [Sorted, Entry.key, Prod.Lex.toLex_le_toLex]
  exact ⟨hs,split_info_round_trip hs⟩

end Stream

end MoldMacho.SplitInfo
