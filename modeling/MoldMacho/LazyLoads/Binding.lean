import MoldMacho.LazyLoads.Tables

/-!
# Binding the slots

dyld loads a lazy dylib by its record, and binds its slots by their chain, each to the
name that the record has at the slot's ordinal.
-/

set_option autoImplicit false

namespace MoldMacho.LazyLoads

open Symbols Chunks Bytes Rows Pieces MoldMacho.Lists

/-- A bind of the symbol of an index, and the distance to the next slot in strides of
four bytes. -/
def chainWord (n i : ℕ) : ℕ := (1 <<< 63) ||| ((if i+1 < n then 2 else 0) <<< 51) ||| i

def chainWords (r : LazyDylib) : List ℕ := (List.range r.syms.length).map (chainWord r.syms.length)

def copyChain (buf : List UInt8) (r : LazyDylib) : Option (List UInt8) :=
  ((chainWords r).zipIdx r.gotStart).foldlM (fun buf e => put buf (e.2*8) (toLe 8 e.1)) buf

def copyGot (dylibs : List LazyDylib) (buf : List UInt8) : Option (List UInt8) :=
  dylibs.foldlM copyChain buf

/-! ## The reader -/

def cstrAt (buf : List UInt8) (off : ℕ) : Option Name :=
  if 0 ∈ buf.drop off then some ((buf.drop off).takeWhile (· != 0)) else none

/-- The binds of a chain from a position of the slots on, of at most a number of slots:
each slot's position and name. -/
def bindChain (record got : List UInt8) (names : ℕ) : ℕ → ℕ → Option (List (ℕ × Name))
  | 0, _ => none
  | fuel+1, pos => do
    let word ← readLe 8 got pos
    if word / 2^63 % 2 = 1 then
      let off ← readLe 4 record (names+word%2^24*4)
      let name ← cstrAt record off
      let next := word / 2^51 % 2^12
      if next = 0 then some [(pos,name)]
      else
        let rest ← bindChain record got names fuel (pos+next*4)
        some ((pos,name)::rest)
    else none

/-- The name of the dylib of a record, and the binds of its slots. -/
def bindDylib (a : Addresses) (got record : List UInt8) : Option (Name × List (ℕ × Name)) := do
  let strs ← readLe 4 record 0
  let install ← cstrAt record strs
  let first ← readLe 4 record 12
  let nsyms ← readLe 4 record 16
  let names ← readLe 4 record 20
  let binds ← bindChain record got names nsyms (a.base+first-a.lazyLoadGot)
  some (install,binds)

/-- All the records that the load commands place, and their binds. -/
def bindAll (a : Addresses) (dylibs : List LazyDylib) (info got : List UInt8) :
    Option (List (Name × List (ℕ × Name))) :=
  dylibs.mapM fun r => (bytesAt info r.offset r.size).bind (bindDylib a got)

/-! ## The chains -/

theorem chain_words_length (r : LazyDylib) : (chainWords r).length = r.syms.length := by
  rw [chainWords, List.length_map, List.length_range]

theorem chain_words_get {r : LazyDylib} {i : ℕ} (hi : i < r.syms.length) :
    (chainWords r)[i]? = some (chainWord r.syms.length i) := by
  rw [chainWords, List.getElem?_map, List.getElem?_range hi]
  rfl

theorem copy_got {l : List LazyDylib} {lo hi : ℕ}
    (h : Tiles LazyDylib.gotStart (fun r => r.syms.length) lo l hi) (front : List UInt8)
    (hfront : front.length = lo*8) :
    copyGot l (front ++ zeros ((hi-lo)*8)) = some (front ++ (l.flatMap chainWords).flatMap (toLe 8)) := by
  induction l generalizing lo front with
  | nil =>
    obtain rfl : lo = hi := h
    simp [copyGot, zeros]
  | cons r l ih =>
    obtain ⟨rfl,hrest⟩ := h
    have hle : r.gotStart+r.syms.length ≤ hi := hrest.in_row.le
    have hzeros : zeros ((hi-r.gotStart)*8) =
        zeros ((chainWords r).length*8) ++ zeros ((hi-(r.gotStart+r.syms.length))*8) := by
      rw [← zeros_add, chain_words_length]
      congr 1
      omega
    have hstep : copyChain (front ++ zeros ((hi-r.gotStart)*8)) r =
        some (front ++ (chainWords r).flatMap (toLe 8) ++
          zeros ((hi-(r.gotStart+r.syms.length))*8)) := by
      rw [hzeros, ← List.append_assoc]
      exact put_words 8 _ hfront
    have hlen : (front ++ (chainWords r).flatMap (toLe 8)).length = (r.gotStart+r.syms.length)*8 := by
      rw [List.length_append, hfront, ← chain_words_length r, Nat.add_mul]
      congr 1
      simp [List.length_flatMap, Nat.mul_comm]
    have hnext := ih hrest _ hlen
    rw [copyGot] at hnext
    rw [copyGot, List.foldlM_cons, hstep, Option.bind_eq_bind, Option.bind_some, hnext,
      List.flatMap_cons, List.flatMap_append, List.append_assoc]

/-- The fields of a chain's word. -/
theorem chain_word_fields {n i : ℕ} (hi : i < 2^24) :
    chainWord n i < 2^64 ∧ chainWord n i / 2^63 % 2 = 1 ∧ chainWord n i % 2^24 = i ∧
      chainWord n i / 2^51 % 2^12 = if i+1 < n then 2 else 0 := by
  have hnext : (if i+1 < n then 2 else 0) < 2^12 := by split <;> decide
  rw [chainWord]
  generalize (if i+1 < n then 2 else 0) = next at hnext ⊢
  have hword : (1 <<< 63) ||| (next <<< 51) ||| i = i+2^51*next+2^63*1 := by
    rw [Nat.or_comm, Nat.or_comm (1 <<< 63), ← Nat.or_assoc, Bytes.or_shift (m := 51) (by omega),
      Bytes.or_shift (m := 63) (by omega)]
  rw [hword]
  omega

theorem cstr_at {buf : List UInt8} {off : ℕ} {name : Name} (hnull : 0 ∉ name)
    (h : bytesAt buf off (name.length+1) = some (name ++ [0])) : cstrAt buf off = some name := by
  obtain ⟨-,hdrop⟩ := bytes_at_drop h
  rw [cstrAt, hdrop, if_pos (by simp), List.append_assoc, List.takeWhile_append_of_pos]
  · simp
  · intro b hb
    have hne : b ≠ 0 := fun h0 => hnull (h0 ▸ hb)
    simpa using hne

/-! ## The binds -/

/-- The binds of a dylib's slots, by the symbols that its record lists. -/
def slotBinds (ctx : Context) (r : LazyDylib) : List (ℕ × Name) :=
  (r.syms.zipIdx r.gotStart).map fun e => (e.2*8,ctx.names e.1)

variable {ctx : Context} {a : Addresses} {r : LazyDylib} {record got : List UInt8}

/-- The words of a record's slots as the section has them. -/
def HasChain (r : LazyDylib) (got : List UInt8) : Prop :=
  ∀ i < r.syms.length, readLe 8 got ((r.gotStart+i)*8) = some (chainWord r.syms.length i)

/-- From a slot on, the chain binds those that are left. -/
theorem bind_chain (hreads : RecordReads ctx a r record) (hchain : HasChain r got)
    (hsyms : r.syms.length ≤ 2^24) (hnull : ∀ id ∈ r.syms, 0 ∉ ctx.names id) {i fuel : ℕ}
    (hi : i < r.syms.length) (hfuel : r.syms.length ≤ i+fuel) :
    bindChain record got 24 fuel ((r.gotStart+i)*8) =
      some (((r.syms.drop i).zipIdx (r.gotStart+i)).map fun e => (e.2*8,ctx.names e.1)) := by
  induction fuel generalizing i with
  | zero => omega
  | succ fuel ih =>
    obtain ⟨-,hbind,hord,hnext⟩ := chain_word_fields (n := r.syms.length) (i := i) (by omega)
    have hget : r.syms[i]? = some r.syms[i] := List.getElem?_eq_getElem hi
    obtain ⟨off,hoff,hname⟩ := hreads.names i _ hget
    have hcstr := cstr_at (hnull _ (List.getElem_mem hi)) hname
    rw [bindChain, hchain i hi, Option.bind_eq_bind, Option.bind_some, if_pos hbind, hord, hoff,
      Option.bind_some, hcstr, Option.bind_eq_bind, Option.bind_some, hnext,
      List.drop_eq_getElem_cons hi, List.zipIdx_cons, List.map_cons]
    by_cases hlast : i+1 < r.syms.length
    · have hrest := ih hlast (by omega)
      have hpos : (r.gotStart+i)*8+2*4 = (r.gotStart+(i+1))*8 := by omega
      rw [if_pos hlast]
      dsimp only
      rw [if_neg (by decide), hpos, hrest]
      rfl
    · have hnil : r.syms.drop (i+1) = [] := List.drop_eq_nil_of_le (by omega)
      rw [if_neg hlast, hnil]
      rfl

/-- A record leads dyld to its dylib and to its slots' binds. -/
theorem bind_dylib (hreads : RecordReads ctx a r record) (hchain : HasChain r got)
    (hne : r.syms ≠ []) (hsyms : r.syms.length ≤ 2^24)
    (hinstall : 0 ∉ ctx.installName r.dylib) (hnull : ∀ id ∈ r.syms, 0 ∉ ctx.names id)
    (hbase : a.base ≤ a.lazyLoadGot) (hreach : a.slotAddr r.gotStart-a.base < 2^32) :
    bindDylib a got record = some (ctx.installName r.dylib,slotBinds ctx r) := by
  obtain ⟨strs,hstrs,hname⟩ := hreads.install
  have hcstr := cstr_at hinstall hname
  have hfirst : readLe 4 record 12 = some (a.slotAddr r.gotStart-a.base) := by
    have h := hreads.words 3 _ rfl
    rwa [Nat.mod_eq_of_lt hreach] at h
  have hnsyms : readLe 4 record 16 = some r.syms.length := by
    have h := hreads.words 4 _ rfl
    rwa [Nat.mod_eq_of_lt (by omega)] at h
  have hnames : readLe 4 record 20 = some 24 := hreads.words 5 _ rfl
  have hpos : a.base+(a.slotAddr r.gotStart-a.base)-a.lazyLoadGot = (r.gotStart+0)*8 := by
    rw [Addresses.slotAddr]
    omega
  have hbinds := bind_chain hreads hchain hsyms hnull (List.length_pos_of_ne_nil hne)
    (Nat.le_add_left r.syms.length 0)
  rw [bindDylib, hstrs, Option.bind_eq_bind, Option.bind_some, hcstr, Option.bind_eq_bind,
    Option.bind_some, hfirst, Option.bind_some, hnsyms, Option.bind_some, hnames, Option.bind_some,
    hpos, hbinds]
  rfl

/-- The symbols of the slots are those of the records. -/
theorem slot_syms (E : Target) (ctx : Context) (uses : List LazyUseSite) :
    (createLazyLoadSlots E ctx uses).slots.map Prod.fst =
      (createLazyLoadSlots E ctx uses).dylibs.flatMap LazyDylib.syms := by
  have hs := create_slots_of E ctx uses
  have hsyms : (createLazyLoadSlots E ctx uses).dylibs.flatMap LazyDylib.syms =
      (createLazyLoadSlots E ctx uses).dylibs.flatMap fun r =>
        ((gather E ctx uses).byDylib r.dylib).map Prod.fst :=
    List.flatMap_congr hs.syms_eq
  rw [hsyms, ← List.map_flatMap, ← List.flatMap_map, hs.dylibs_eq, hs.have_slots.slots_eq,
    List.map_map]
  rfl

/-- The binds of all dylibs are of all slots, in order. -/
theorem slot_binds_all (E : Target) (ctx : Context) (uses : List LazyUseSite) :
    (createLazyLoadSlots E ctx uses).dylibs.flatMap (slotBinds ctx) =
      (createLazyLoadSlots E ctx uses).slots.zipIdx.map fun e => (e.2*8,ctx.names e.1.1) := by
  have htiles := (create_slots_of E ctx uses).got_tiles
  have hzip := tiles_zip_idx htiles
  rw [← slot_syms, List.zipIdx_map] at hzip
  have hbinds : (createLazyLoadSlots E ctx uses).dylibs.flatMap (slotBinds ctx) =
      ((createLazyLoadSlots E ctx uses).dylibs.flatMap fun r => r.syms.zipIdx r.gotStart).map
        fun e => (e.2*8,ctx.names e.1) := List.map_flatMap.symm
  rw [hbinds, hzip, List.map_map]
  rfl

/-- No name of a record has a zero in it, and the section and the ordinals are in reach
of the record's and the chain's fields. -/
structure Bindable (ctx : Context) (a : Addresses) (s : Slots) : Prop where
  installs : ∀ r ∈ s.dylibs, 0 ∉ ctx.installName r.dylib
  names : ∀ r ∈ s.dylibs, ∀ id ∈ r.syms, 0 ∉ ctx.names id
  ordinals : ∀ r ∈ s.dylibs, r.syms.length ≤ 2^24
  base : a.base ≤ a.lazyLoadGot
  reach : a.slotAddr s.slots.length-a.base < 2^32

theorem has_chain {s : Slots} (h : Tiles LazyDylib.gotStart (fun r => r.syms.length) 0 s.dylibs
    s.slots.length) {got : List UInt8} (hgot : got = (s.dylibs.flatMap chainWords).flatMap (toLe 8))
    (hsyms : ∀ r ∈ s.dylibs, r.syms.length ≤ 2^24) (hr : r ∈ s.dylibs) : HasChain r got := by
  intro i hi
  obtain ⟨-,hget⟩ := tiles_get h (fun x _ => chain_words_length x) hr (chain_words_get hi)
  rw [Nat.sub_zero] at hget
  have hhold := holds_mid [] ((s.dylibs.flatMap chainWords).flatMap (toLe 8)) []
  rw [List.nil_append, List.append_nil, ← hgot] at hhold
  have hword := holds_word ((hgot ▸ hhold).row (fun _ _ => to_le_length 8 _) hget)
  have hle := hsyms r hr
  have hlt := (chain_word_fields (n := r.syms.length) (i := i) (by omega)).1
  rwa [List.length_nil, Nat.zero_add, Nat.mod_eq_of_lt (by omega), ← hgot] at hword

/-- dyld reads the records of whatever tables the pass makes, follows each one's chain, and
binds each slot once, in order, to the symbol that the tables have there. -/
theorem dyld_binds_slots (E : Target) (ctx : Context) (uses : List LazyUseSite) (a : Addresses)
    (hsizes : SizesFit ctx (createLazyLoadSlots E ctx uses))
    (hbind : Bindable ctx a (createLazyLoadSlots E ctx uses)) :
    ∃ info got binds,
      copyBuf ctx a (createLazyLoadSlots E ctx uses).dylibs
        (zeros (createLazyLoadSlots E ctx uses).offset) = some info ∧
      copyGot (createLazyLoadSlots E ctx uses).dylibs
        (zeros ((createLazyLoadSlots E ctx uses).slots.length*8)) = some got ∧
      bindAll a (createLazyLoadSlots E ctx uses).dylibs info got = some binds ∧
      binds.map Prod.fst = (createLazyLoadSlots E ctx uses).dylibs.map
        (fun r => ctx.installName r.dylib) ∧
      binds.flatMap Prod.snd =
        (createLazyLoadSlots E ctx uses).slots.zipIdx.map fun e => (e.2*8,ctx.names e.1.1) := by
  have hs := create_slots_of E ctx uses
  have hg := gather_of E ctx uses
  obtain ⟨info,hinfo,-,hrecords⟩ := (records_line_up hsizes).reads a
  have hgot := copy_got hs.got_tiles [] rfl
  rw [List.nil_append, List.nil_append, Nat.sub_zero] at hgot
  -- each record is read on its own, and its chain is in the section
  have heach : ∀ r ∈ (createLazyLoadSlots E ctx uses).dylibs,
      (bytesAt info r.offset r.size).bind (bindDylib a
        (((createLazyLoadSlots E ctx uses).dylibs.flatMap chainWords).flatMap (toLe 8))) =
      some (ctx.installName r.dylib,slotBinds ctx r) := by
    intro r hr
    obtain ⟨record,hrecord,hreads⟩ := hrecords r hr
    have hne : r.syms ≠ [] := by
      have hused : r.dylib ∈ (gather E ctx uses).used := hs.dylibs_eq ▸ List.mem_map_of_mem hr
      rw [hs.syms_eq r hr, ne_eq, List.map_eq_nil_iff]
      exact (hg.used_iff _).1 hused
    have hreach : a.slotAddr r.gotStart-a.base < 2^32 := by
      have hle := (hs.got_tiles.in_row.bounds hr).2.2
      have htotal := hbind.reach
      rw [Addresses.slotAddr] at htotal ⊢
      omega
    rw [hrecord, Option.bind_some]
    exact bind_dylib hreads (has_chain hs.got_tiles rfl hbind.ordinals hr) hne
      (hbind.ordinals r hr) (hbind.installs r hr) (hbind.names r hr) hbind.base hreach
  refine ⟨info,_,_,hinfo,hgot,mapM_some heach,?_,?_⟩
  · rw [List.map_map]
    rfl
  · rw [List.flatMap_map]
    exact slot_binds_all E ctx uses

def threeSlots : Slots := createLazyLoadSlots x86 oneLoad threeUses

/-- The slots at 0x2000 in an image at 0x1000. -/
def nearSlots : Addresses := { base := 0x1000, isecAddr := fun _ => 0x3000, lazyLoadGot := 0x2000 }

theorem dyld_binds_slots_three_uses :
    ∃ info got binds,
      copyBuf oneLoad nearSlots threeSlots.dylibs (zeros threeSlots.offset) = some info ∧
      copyGot threeSlots.dylibs (zeros (threeSlots.slots.length*8)) = some got ∧
      bindAll nearSlots threeSlots.dylibs info got = some binds ∧
      binds.map Prod.fst = threeSlots.dylibs.map (fun r => oneLoad.installName r.dylib) ∧
      binds.flatMap Prod.snd = threeSlots.slots.zipIdx.map fun e => (e.2*8,oneLoad.names e.1.1) :=
  dyld_binds_slots x86 oneLoad threeUses nearSlots
    (by
      intro r hr
      fin_cases hr
      decide)
    (by
      constructor
      case installs =>
        intro r hr
        fin_cases hr
        decide
      case names =>
        intro r hr
        fin_cases hr
        decide
      case ordinals =>
        intro r hr
        fin_cases hr
        decide
      case base => decide
      case reach => decide)

end MoldMacho.LazyLoads
