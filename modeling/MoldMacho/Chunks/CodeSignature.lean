import Mathlib.Algebra.Order.BigOperators.Group.List
import MoldMacho.Chunks.Header
import MoldMacho.Lib.Bytes
import MoldMacho.Lib.Lists
import MoldMacho.Util.Align

/-!
# The ad-hoc code signature

Hashes of the pages of the file before the signature, in a code directory or
two. The kernel finds the directories by the superblob's index and the
hashes by each directory's own fields, big-endian words of 32 bits. A code
limit of 64 bits has a field of its own, which is written as zero.
-/

set_option autoImplicit false

namespace MoldMacho.CodeSignature
open MoldMacho.Bytes MoldMacho.Chunks MoldMacho.Align

/-- The hash functions. -/
structure Hashes where
  sha256 : List UInt8 → List UInt8
  sha1 : List UInt8 → List UInt8
  sha256_length : ∀ data, (sha256 data).length = 32
  sha1_length : ∀ data, (sha1 data).length = 20

/-- What the signature is made of besides the file's contents. -/
structure Context where
  platform : ℕ
  platformMinos : ℕ
  outputType : ℕ
  staticLink : Bool := false
  x86 : Bool := false
  installName : Option (List UInt8) := none
  finalOutput : Option (List UInt8) := none
  output : List UInt8
  segments : List Segment
  chunks : List ChunkHeader
  machHeader : ChunkHeader
  codeSignature : ChunkHeader

def csPageSize : ℕ := 4096

def encodeVersion (major minor patch : ℕ) : ℕ := (major <<< 16) ||| (minor <<< 8) ||| patch

/-- `has_sha1_directory`. The platforms are macOS, iOS, tvOS, firmware and
none. -/
def hasSha1Directory (ctx : Context) : Bool :=
  ctx.staticLink ||
    match ctx.platform with
    | 1 => decide (ctx.platformMinos < encodeVersion 10 11 4)
    | 2 | 3 => decide (ctx.platformMinos < encodeVersion 11 0 0)
    | 13 | 0 => ctx.x86
    | _ => false

/-- `u64::div_ceil` by the page size. -/
def numPages (len : ℕ) : ℕ := (len+csPageSize-1)/csPageSize

def directorySize (ident : List UInt8) (nblocks hashSize : ℕ) : ℕ :=
  88+ident.length+1+nblocks*hashSize

/-- `identifier`: what follows the last slash. -/
def identifier (ctx : Context) : List UInt8 :=
  let name := (ctx.installName.or ctx.finalOutput).getD ctx.output
  (name.reverse.takeWhile (· != 47)).reverse

def superblobSize (ctx : Context) (fileoff : ℕ) : ℕ :=
  let ident := identifier ctx
  let nblocks := numPages fileoff
  let size := 12+8+directorySize ident nblocks 32
  if hasSha1Directory ctx then size+8+directorySize ident nblocks 20 else size

def size (ctx : Context) (fileoff : ℕ) : ℕ := alignTo (superblobSize ctx fileoff) 8

/-- `par_chunks` of the page size. -/
def pages (data : List UInt8) : List (List UInt8) :=
  (List.range (numPages data.length)).map fun i => (data.drop (i*csPageSize)).take csPageSize

def pageHashes (H : Hashes) (data : List UInt8) : List (List UInt8) := (pages data).map H.sha256

/-- `rehash_pages`, of the bytes from `lo` to `hi`. -/
def rehashPages (H : Hashes) (data : List UInt8) (hashes : List (List UInt8)) (lo hi : ℕ) :
    List (List UInt8) :=
  let first := lo/csPageSize
  let last := min (numPages hi) hashes.length
  hashes.mapIdx fun i hash =>
    if first ≤ i ∧ i < last then H.sha256 ((data.drop (i*csPageSize)).take csPageSize) else hash

def csmagicEmbeddedSignature : ℕ := 0xfade0cc0
def csmagicCodedirectory : ℕ := 0xfade0c02
def csslotAlternate : ℕ := 0x1000
def csSupportsExecSeg : ℕ := 0x20400
def csFlags : ℕ := 0x2 ||| 0x20000
def mhExecute : ℕ := 2

/-- `__TEXT`'s place in the file, or that of the header's segment under
another name. -/
def execSegBase (ctx : Context) : ℕ :=
  ((ctx.segments.find? fun s => s.name == ctx.machHeader.segname).map fun s => s.fileoff).getD 0

def execSegLimit (ctx : Context) : ℕ :=
  ((ctx.chunks.find? fun hdr =>
    hdr.segname == bytes "__TEXT" && hdr.sectname == bytes "__text").map fun hdr => hdr.size).getD 0

/-- `push_code_directory`. -/
def pushCodeDirectory (ctx : Context) (hashType : ℕ) (hashes : List UInt8) (hashSize : ℕ) :
    List UInt8 :=
  let csOff := ctx.codeSignature.fileoff
  let ident := identifier ctx
  let identSize := ident.length+1
  let nblocks := numPages csOff
  toBe 4 csmagicCodedirectory ++ toBe 4 (directorySize ident nblocks hashSize) ++
    toBe 4 csSupportsExecSeg ++ toBe 4 csFlags ++ toBe 4 (88+identSize) ++ toBe 4 88 ++ toBe 4 0 ++
    toBe 4 nblocks ++ toBe 4 csOff ++ [hashSize.toUInt8,hashType.toUInt8,0,12] ++
    toBe 4 0 ++ toBe 4 0 ++ toBe 4 0 ++ toBe 4 0 ++ toBe 8 0 ++ toBe 8 (execSegBase ctx) ++
    toBe 8 (execSegLimit ctx) ++ toBe 8 (if ctx.outputType = mhExecute then 1 else 0) ++
    ident ++ [0] ++ hashes

/-- The superblob `write` makes of the contents and their hashes. -/
def superblob (H : Hashes) (ctx : Context) (buf : List UInt8) (hashes : List (List UInt8)) :
    List UInt8 :=
  let csOff := ctx.codeSignature.fileoff
  let ident := identifier ctx
  let sha1Hashes :=
    if hasSha1Directory ctx then some ((pages (buf.take csOff)).map H.sha1) else none
  toBe 4 csmagicEmbeddedSignature ++ toBe 4 (superblobSize ctx csOff) ++
    (match sha1Hashes with
      | some sha1 => toBe 4 2 ++ toBe 4 0 ++ toBe 4 28 ++ toBe 4 csslotAlternate ++
          toBe 4 (28+directorySize ident sha1.length 20) ++
          pushCodeDirectory ctx 1 sha1.flatten 20
      | none => toBe 4 1 ++ toBe 4 0 ++ toBe 4 20) ++
    pushCodeDirectory ctx 2 hashes.flatten 32

/-- `Vec::resize` with zeros. -/
def resize (bytes : List UInt8) (n : ℕ) : List UInt8 :=
  bytes.take n ++ List.replicate (n-bytes.length) 0

def write (H : Hashes) (ctx : Context) (buf : List UInt8) (hashes : List (List UInt8)) :
    List UInt8 :=
  writeAt buf ctx.codeSignature.fileoff
    (resize (superblob H ctx buf hashes) ctx.codeSignature.size)

/-! What the kernel checks. -/

/-- A kind of code directory: its slot in the index and its hash. -/
structure Kind where
  slot : ℕ
  hashType : ℕ
  hashSize : ℕ
  hash : List UInt8 → List UInt8

/-- The limit of 64 bits counts unless it is zero. -/
def codeLimit (out : List UInt8) (dir : ℕ) : Option ℕ := do
  let limit64 ← readBe 8 out (dir+56)
  if limit64 = 0 then readBe 4 out (dir+32) else some limit64

/-- A code directory of `len` bytes, with a hash of every page of the file
before `limit` and no more. -/
structure DirectoryAt (out : List UInt8) (limit : ℕ) (ident : List UInt8) (kind : Kind)
    (dir len : ℕ) : Prop where
  magic : readBe 4 out dir = some csmagicCodedirectory
  length : readBe 4 out (dir+4) = some len
  specials : readBe 4 out (dir+24) = some 0
  slots : readBe 4 out (dir+28) = some (pages (out.take limit)).length
  limited : codeLimit out dir = some limit
  hash : bytesAt out (dir+36) 4 = some [kind.hashSize.toUInt8,kind.hashType.toUInt8,0,12]
  content : ∃ identOff hashOff, readBe 4 out (dir+20) = some identOff ∧
    readBe 4 out (dir+16) = some hashOff ∧
    bytesAt out (dir+identOff) (ident.length+1) = some (ident ++ [0]) ∧
    identOff+ident.length+1 ≤ hashOff ∧
    hashOff+(pages (out.take limit)).length*kind.hashSize = len ∧
    ∀ (i : ℕ) (page : List UInt8), (pages (out.take limit))[i]? = some page →
      bytesAt out (dir+hashOff+i*kind.hashSize) kind.hashSize = some (kind.hash page)

/-- A superblob of `total` bytes at `limit` that consists of its header, the
index and the directories of the kinds, one after another. -/
structure Signed (out : List UInt8) (limit : ℕ) (ident : List UInt8) (kinds : List Kind)
    (total : ℕ) (starts : ℕ → ℕ) : Prop where
  magic : readBe 4 out limit = some csmagicEmbeddedSignature
  length : readBe 4 out (limit+4) = some total
  count : readBe 4 out (limit+8) = some kinds.length
  first : starts 0 = 12+8*kinds.length
  last : starts kinds.length = total
  slot : ∀ (k : ℕ) (kind : Kind), kinds[k]? = some kind →
    readBe 4 out (limit+12+k*8) = some kind.slot
  offset : ∀ (k : ℕ) (kind : Kind), kinds[k]? = some kind →
    readBe 4 out (limit+12+k*8+4) = some (starts k)
  directory : ∀ (k : ℕ) (kind : Kind), kinds[k]? = some kind → starts k ≤ starts (k+1) ∧
    DirectoryAt out limit ident kind (limit+starts k) (starts (k+1)-starts k)

/-- The file is signed, in the `size` bytes reserved from `limit` on. -/
def Verifies (out : List UInt8) (limit size : ℕ) (ident : List UInt8) (kinds : List Kind) : Prop :=
  limit+size ≤ out.length ∧ ∃ total starts, alignTo total 8 = size ∧
    Signed out limit ident kinds total starts

/-- The directories a signature has. -/
def kinds (H : Hashes) (ctx : Context) : List Kind :=
  if hasSha1Directory ctx then [⟨0,1,20,H.sha1⟩,⟨csslotAlternate,2,32,H.sha256⟩]
  else [⟨0,2,32,H.sha256⟩]

/-! Pages. -/

theorem pages_length (data : List UInt8) : (pages data).length = numPages data.length := by
  rw [pages, List.length_map, List.length_range]

theorem pages_get (data : List UInt8) {i : ℕ} (hi : i < numPages data.length) :
    (pages data)[i]? = some ((data.drop (i*csPageSize)).take csPageSize) := by
  rw [pages, List.getElem?_map, List.getElem?_range hi]
  rfl

/-- The pages are the whole of the data. -/
theorem pages_flatten (data : List UInt8) : (pages data).flatten = data := by
  rw [pages, List.flatten_eq_flatMap, List.flatMap_map]
  exact Lists.flatMap_pieces data (by decide : 0 < csPageSize)

/-- Hashing again the pages of the bytes that changed, all before `hi`, brings
the hashes up to date. -/
theorem rehash_pages (H : Hashes) {data data' : List UInt8} {hi : ℕ}
    (hlen : data'.length = data.length)
    (hframe : ∀ off n, hi ≤ off → bytesAt data' off n = bytesAt data off n) :
    rehashPages H data' (pageHashes H data) 0 hi = pageHashes H data' := by
  apply List.ext_getElem?
  intro i
  rw [rehashPages, List.getElem?_mapIdx, pageHashes, pageHashes, List.getElem?_map,
    List.getElem?_map]
  by_cases hi' : i < numPages data.length
  · rw [pages_get data hi', pages_get data' (hlen ▸ hi'), Option.map_some, Option.map_some,
      Option.map_some, List.length_map, pages_length]
    congr 1
    split
    case isTrue => rfl
    case isFalse h =>
      have hpast : hi ≤ i*csPageSize := by
        by_contra hlt
        apply h
        unfold numPages csPageSize at *
        omega
      have hstart : i*csPageSize < data.length := by
        unfold numPages csPageSize at *
        omega
      have hbytes := hframe (i*csPageSize) (min csPageSize (data.length-i*csPageSize)) hpast
      rw [bytesAt, bytesAt, hlen, if_pos (by omega), if_pos (by omega), Option.some.injEq] at hbytes
      have hmin : ∀ d : List UInt8, d.length = data.length →
          (d.drop (i*csPageSize)).take (min csPageSize (data.length-i*csPageSize)) =
            (d.drop (i*csPageSize)).take csPageSize := by
        intro d hd
        rw [← hd, ← List.length_drop, ← List.take_take, List.take_length]
      rw [hmin data rfl, hmin data' hlen] at hbytes
      rw [hbytes]
  · have hnone : (pages data)[i]? = none := List.getElem?_eq_none (by rw [pages_length]; omega)
    have hnone' : (pages data')[i]? = none :=
      List.getElem?_eq_none (by rw [pages_length, hlen]; omega)
    rw [hnone, hnone']
    rfl

/-! The bytes of a code directory. -/

section Directory
variable {H : Hashes} {ctx : Context} {out c : List UInt8} {dir : ℕ}

/-- The fields as they are read: numbers of more than 32 bits are cut. -/
structure Fields (ctx : Context) (hashType hashSize : ℕ) (hashes c out : List UInt8) (dir : ℕ) :
    Prop where
  magic : readBe 4 out dir = some csmagicCodedirectory
  length : readBe 4 out (dir+4) =
    some (directorySize (identifier ctx) (numPages ctx.codeSignature.fileoff) hashSize % 2^32)
  hashOff : readBe 4 out (dir+16) = some ((88+((identifier ctx).length+1)) % 2^32)
  identOff : readBe 4 out (dir+20) = some 88
  specials : readBe 4 out (dir+24) = some 0
  slots : readBe 4 out (dir+28) = some (numPages ctx.codeSignature.fileoff % 2^32)
  limit : readBe 4 out (dir+32) = some (ctx.codeSignature.fileoff % 2^32)
  hash : bytesAt out (dir+36) 4 = some [hashSize.toUInt8,hashType.toUInt8,0,12]
  limit64 : readBe 8 out (dir+56) = some 0
  ident : bytesAt out (dir+88) ((identifier ctx).length+1) = some (identifier ctx ++ [0])
  le : dir+88+((identifier ctx).length+1) ≤ out.length
  hashes : out.drop (dir+88+((identifier ctx).length+1)) = hashes ++ c

theorem directory_fields {hashType hashSize : ℕ} {hashes : List UInt8} (h0 : dir ≤ out.length)
    (h : out.drop dir = pushCodeDirectory ctx hashType hashes hashSize ++ c) :
    Fields ctx hashType hashSize hashes c out dir := by
  unfold pushCodeDirectory at h
  simp only [List.append_assoc] at h
  obtain ⟨hmagic,h1,d1⟩ := read_be_field h0 h
  obtain ⟨hlength,h2,d2⟩ := read_be_field h1 d1
  obtain ⟨-,h3,d3⟩ := read_be_field h2 d2
  obtain ⟨-,h4,d4⟩ := read_be_field h3 d3
  obtain ⟨hhashOff,h5,d5⟩ := read_be_field h4 d4
  obtain ⟨hidentOff,h6,d6⟩ := read_be_field h5 d5
  obtain ⟨hspecials,h7,d7⟩ := read_be_field h6 d6
  obtain ⟨hslots,h8,d8⟩ := read_be_field h7 d7
  obtain ⟨hlimit,h9,d9⟩ := read_be_field h8 d8
  have hhash := bytes_at_field h9 d9
  obtain ⟨h10,d10⟩ := drop_next h9 d9
  obtain ⟨-,h11,d11⟩ := read_be_field h10 d10
  obtain ⟨-,h12,d12⟩ := read_be_field h11 d11
  obtain ⟨-,h13,d13⟩ := read_be_field h12 d12
  obtain ⟨-,h14,d14⟩ := read_be_field h13 d13
  obtain ⟨hlimit64,h15,d15⟩ := read_be_field h14 d14
  obtain ⟨-,h16,d16⟩ := read_be_field h15 d15
  obtain ⟨-,h17,d17⟩ := read_be_field h16 d16
  obtain ⟨-,h18,d18⟩ := read_be_field h17 d17
  rw [← List.append_assoc (identifier ctx)] at d18
  have hident := bytes_at_field h18 d18
  obtain ⟨h19,d19⟩ := drop_next h18 d18
  have hlen : (identifier ctx ++ [0]).length = (identifier ctx).length+1 := by simp
  have hword : (256 : ℕ)^4 = 2^32 := by norm_num
  have hmod : csmagicCodedirectory % 2^32 = csmagicCodedirectory := by decide
  have hlist : [hashSize.toUInt8,hashType.toUInt8,0,12].length = 4 := rfl
  rw [hlist] at hhash hlimit64 hident h19 d19
  rw [hlen] at hident h19 d19
  rw [hword] at hmagic hlength hhashOff hslots hlimit
  rw [hmod] at hmagic
  simp only [Nat.add_assoc, Nat.reduceAdd] at hlength hhashOff hidentOff hspecials hslots
  simp only [Nat.add_assoc, Nat.reduceAdd] at hlimit hhash hlimit64
  simp only [Nat.add_assoc dir, Nat.reduceAdd] at hident h19 d19
  rw [← Nat.add_assoc dir 88] at h19 d19
  exact ⟨hmagic,hlength,hhashOff,hidentOff,hspecials,hslots,hlimit,hhash,hlimit64,hident,h19,d19⟩

variable {kind : Kind}

/-- The directory of a kind, of the file as it is. -/
def directoryBytes (ctx : Context) (out : List UInt8) (kind : Kind) : List UInt8 :=
  pushCodeDirectory ctx kind.hashType
    ((pages (out.take ctx.codeSignature.fileoff)).flatMap kind.hash) kind.hashSize

def kindSize (ctx : Context) (kind : Kind) : ℕ :=
  directorySize (identifier ctx) (numPages ctx.codeSignature.fileoff) kind.hashSize

theorem pages_before (hle : ctx.codeSignature.fileoff ≤ out.length) :
    (pages (out.take ctx.codeSignature.fileoff)).length = numPages ctx.codeSignature.fileoff := by
  rw [pages_length, List.length_take, Nat.min_eq_left hle]

theorem directory_length (hkind : ∀ data, (kind.hash data).length = kind.hashSize)
    (hle : ctx.codeSignature.fileoff ≤ out.length) :
    (directoryBytes ctx out kind).length = kindSize ctx kind := by
  have hconst : ∀ l : List (List UInt8), (l.flatMap kind.hash).length = l.length*kind.hashSize := by
    intro l
    induction l with
    | nil => simp
    | cons page l ih =>
      rw [List.flatMap_cons, List.length_append, hkind, ih, List.length_cons, Nat.succ_mul,
        Nat.add_comm]
  have hhashes := hconst (pages (out.take ctx.codeSignature.fileoff))
  rw [pages_before hle] at hhashes
  unfold directoryBytes pushCodeDirectory kindSize directorySize
  simp only [List.length_append, to_be_length, hhashes, List.length_cons, List.length_nil]

/-- A directory that fits the fields is what the kernel looks for. -/
theorem directory_at (hkind : ∀ data, (kind.hash data).length = kind.hashSize)
    (hle : ctx.codeSignature.fileoff ≤ out.length) (h0 : dir ≤ out.length)
    (h : out.drop dir = directoryBytes ctx out kind ++ c)
    (hlimit : ctx.codeSignature.fileoff < 2^32) (hsize : kindSize ctx kind < 2^32) :
    DirectoryAt out ctx.codeSignature.fileoff (identifier ctx) kind dir (kindSize ctx kind) := by
  have hf := directory_fields h0 h
  have hpages := pages_before hle
  have hsize' := hsize
  rw [kindSize, directorySize] at hsize'
  refine ⟨hf.magic,?_,hf.specials,?_,?_,hf.hash,88,88+((identifier ctx).length+1),hf.identOff,?_,
    hf.ident,by omega,?_,fun i page hpage => ?_⟩
  · rw [hf.length]
    exact congrArg some (Nat.mod_eq_of_lt hsize)
  · rw [hf.slots, hpages]
    congr 1
    apply Nat.mod_eq_of_lt
    unfold numPages csPageSize
    omega
  · rw [codeLimit, hf.limit64, Option.bind_eq_bind, Option.bind_some, if_pos rfl, hf.limit,
      Nat.mod_eq_of_lt hlimit]
  · rw [hf.hashOff, Nat.mod_eq_of_lt (by omega)]
  · rw [hpages]
    exact congrArg (· + numPages ctx.codeSignature.fileoff*kind.hashSize)
      (Nat.add_assoc 88 (identifier ctx).length 1).symm
  · obtain ⟨hin,c',hdrop⟩ := read_run_at hkind hpage hf.le hf.hashes
    rw [← Nat.add_assoc dir]
    have hbytes := bytes_at_field hin hdrop
    rwa [hkind] at hbytes

/-- What the kernel looks for fits the fields. -/
theorem directory_fits (hle : ctx.codeSignature.fileoff ≤ out.length) (h0 : dir ≤ out.length)
    (h : out.drop dir = directoryBytes ctx out kind ++ c) {len : ℕ}
    (hdir : DirectoryAt out ctx.codeSignature.fileoff (identifier ctx) kind dir len) :
    ctx.codeSignature.fileoff < 2^32 ∧ len = kindSize ctx kind := by
  have hf := directory_fields h0 h
  obtain ⟨identOff,hashOff,hident,hhash,-,hbefore,hend,-⟩ := hdir.content
  rw [hf.identOff, Option.some.injEq] at hident
  rw [hf.hashOff, Option.some.injEq] at hhash
  rw [pages_before hle] at hend
  have hlimit := hdir.limited
  rw [codeLimit, hf.limit64, Option.bind_eq_bind, Option.bind_some, if_pos rfl, hf.limit,
    Option.some.injEq] at hlimit
  constructor
  · rw [← hlimit]
    exact Nat.mod_lt _ (by decide)
  · have hcut := Nat.mod_le (88+((identifier ctx).length+1)) (2^32)
    rw [kindSize, directorySize, ← hend]
    omega

end Directory

/-! The superblob. -/

/-- The index of directories that follow one another from `start`. -/
def index (ctx : Context) : ℕ → List Kind → List UInt8
  | _, [] => []
  | start, kind::kinds => toBe 4 kind.slot ++ toBe 4 start ++ index ctx (start+kindSize ctx kind) kinds

/-- Where the `k`-th directory starts. -/
def startOf (ctx : Context) (kinds : List Kind) (k : ℕ) : ℕ :=
  12+8*kinds.length+((kinds.take k).map (kindSize ctx)).sum

/-- The superblob of directories of any kinds. -/
def blob (ctx : Context) (out : List UInt8) (kinds : List Kind) : List UInt8 :=
  toBe 4 csmagicEmbeddedSignature ++ toBe 4 (superblobSize ctx ctx.codeSignature.fileoff) ++
    toBe 4 kinds.length ++ index ctx (12+8*kinds.length) kinds ++
    kinds.flatMap (directoryBytes ctx out)

theorem kinds_start (H : Hashes) (ctx : Context) :
    startOf ctx (kinds H ctx) (kinds H ctx).length =
      superblobSize ctx ctx.codeSignature.fileoff := by
  unfold startOf kinds superblobSize
  cases hasSha1Directory ctx with
  | false => simp [kindSize]
  | true =>
    simp [kindSize]
    omega

/-- The superblob written is the one of the signature's kinds. -/
theorem superblob_blob (H : Hashes) (ctx : Context) {buf : List UInt8}
    (hle : ctx.codeSignature.fileoff ≤ buf.length) :
    superblob H ctx buf (pageHashes H (buf.take ctx.codeSignature.fileoff)) =
      blob ctx buf (kinds H ctx) := by
  have hpages := pages_before hle
  unfold superblob blob kinds pageHashes
  cases hasSha1Directory ctx with
  | false =>
    simp [index, directoryBytes, List.flatMap_def]
  | true =>
    simp [index, directoryBytes, List.flatMap_def, hpages, kindSize]

theorem index_length (ctx : Context) (start : ℕ) (kinds : List Kind) :
    (index ctx start kinds).length = 8*kinds.length := by
  induction kinds generalizing start with
  | nil => rfl
  | cons kind kinds ih =>
    rw [index, List.length_append, List.length_append, to_be_length, to_be_length, ih,
      List.length_cons]
    omega

theorem index_at {ctx : Context} {out c : List UInt8} {kinds : List Kind} {k off start : ℕ}
    {kind : Kind} (hk : kinds[k]? = some kind) (hoff : off ≤ out.length)
    (h : out.drop off = index ctx start kinds ++ c) :
    readBe 4 out (off+k*8) = some (kind.slot % 2^32) ∧
      readBe 4 out (off+k*8+4) =
        some ((start+((kinds.take k).map (kindSize ctx)).sum) % 2^32) := by
  induction kinds generalizing k off start with
  | nil => simp at hk
  | cons first kinds ih =>
    rw [index, List.append_assoc, List.append_assoc] at h
    obtain ⟨hslot,h1,d1⟩ := read_be_field hoff h
    obtain ⟨hstart,h2,d2⟩ := read_be_field h1 d1
    cases k with
    | zero =>
      obtain rfl := Option.some.inj hk
      exact ⟨hslot,hstart⟩
    | succ k =>
      obtain ⟨hslot',hstart'⟩ := ih hk h2 d2
      have hplace : off+4+4+k*8 = off+(k+1)*8 := by omega
      rw [hplace] at hslot' hstart'
      rw [List.take_succ_cons, List.map_cons, List.sum_cons, ← Nat.add_assoc start]
      exact ⟨hslot',hstart'⟩

def Kind.Lawful (kind : Kind) : Prop :=
  kind.slot < 2^32 ∧ ∀ data, (kind.hash data).length = kind.hashSize

theorem kinds_lawful (H : Hashes) (ctx : Context) : ∀ kind ∈ kinds H ctx, kind.Lawful := by
  have h1 : Kind.Lawful ⟨0,1,20,H.sha1⟩ := ⟨Nat.two_pow_pos 32,H.sha1_length⟩
  have h256 : ∀ slot < 2^32, Kind.Lawful ⟨slot,2,32,H.sha256⟩ := fun _ hs => ⟨hs,H.sha256_length⟩
  unfold kinds
  cases hasSha1Directory ctx with
  | false => simpa using h256 0 (by decide)
  | true => simpa using And.intro h1 (h256 csslotAlternate (by decide))

section Signed
variable {ctx : Context} {out c : List UInt8} {kinds : List Kind}

theorem directories_length (hkinds : ∀ kind ∈ kinds, kind.Lawful)
    (hle : ctx.codeSignature.fileoff ≤ out.length) :
    (kinds.flatMap (directoryBytes ctx out)).length = (kinds.map (kindSize ctx)).sum := by
  rw [List.length_flatMap,
    List.map_congr_left fun kind hk => directory_length (hkinds kind hk).2 hle]

theorem start_succ {k : ℕ} {kind : Kind} (hk : kinds[k]? = some kind) :
    startOf ctx kinds (k+1) = startOf ctx kinds k + kindSize ctx kind := by
  obtain ⟨hlt,hget⟩ := List.getElem?_eq_some_iff.1 hk
  rw [startOf, startOf, ← List.take_append_getElem hlt, hget, List.map_append, List.sum_append,
    List.map_singleton, List.sum_singleton]
  omega

theorem start_le {k j : ℕ} (h : k ≤ j) : startOf ctx kinds k ≤ startOf ctx kinds j := by
  have hsub : ((kinds.take k).map (kindSize ctx)).Sublist ((kinds.take j).map (kindSize ctx)) :=
    (List.take_sublist_take_left h).map _
  have hsum := hsub.sum_le_sum fun _ _ => Nat.zero_le _
  unfold startOf
  omega

/-- The parts of a superblob, each where its header or index says. -/
structure Parts (ctx : Context) (out : List UInt8) (kinds : List Kind) : Prop where
  magic : readBe 4 out ctx.codeSignature.fileoff = some csmagicEmbeddedSignature
  length : readBe 4 out (ctx.codeSignature.fileoff+4) =
    some (superblobSize ctx ctx.codeSignature.fileoff % 2^32)
  count : readBe 4 out (ctx.codeSignature.fileoff+8) = some (kinds.length % 2^32)
  entry : ∀ (k : ℕ) (kind : Kind), kinds[k]? = some kind →
    readBe 4 out (ctx.codeSignature.fileoff+12+k*8) = some kind.slot ∧
    readBe 4 out (ctx.codeSignature.fileoff+12+k*8+4) = some (startOf ctx kinds k % 2^32)
  directory : ∀ (k : ℕ) (kind : Kind), kinds[k]? = some kind →
    ctx.codeSignature.fileoff+startOf ctx kinds k ≤ out.length ∧
    ∃ c, out.drop (ctx.codeSignature.fileoff+startOf ctx kinds k) = directoryBytes ctx out kind ++ c

theorem blob_parts (hkinds : ∀ kind ∈ kinds, kind.Lawful)
    (hle : ctx.codeSignature.fileoff ≤ out.length)
    (h : out.drop ctx.codeSignature.fileoff = blob ctx out kinds ++ c) : Parts ctx out kinds := by
  unfold blob at h
  simp only [List.append_assoc] at h
  obtain ⟨hmagic,h4,d4⟩ := read_be_field hle h
  obtain ⟨hlength,h8,d8⟩ := read_be_field h4 d4
  obtain ⟨hcount,h12,d12⟩ := read_be_field h8 d8
  obtain ⟨hdirs,ddirs⟩ := drop_next h12 d12
  have hplace : ctx.codeSignature.fileoff+4+4+4 = ctx.codeSignature.fileoff+12 := rfl
  rw [index_length, hplace] at hdirs ddirs
  rw [hplace] at h12 d12
  refine ⟨hmagic,hlength,hcount,fun k kind hk => ?_,fun k kind hk => ?_⟩
  · obtain ⟨hslot,hstart⟩ := index_at hk h12 d12
    rw [Nat.mod_eq_of_lt (hkinds kind (List.mem_of_getElem? hk)).1] at hslot
    exact ⟨hslot,hstart⟩
  · obtain ⟨hin,c',hdrop⟩ := drop_item hk hdirs ddirs
    have hsum : ((kinds.take k).flatMap (directoryBytes ctx out)).length = _ :=
      directories_length (fun kind hm => hkinds kind (List.mem_of_mem_take hm)) hle
    have hstart : ctx.codeSignature.fileoff+12+8*kinds.length+
        ((kinds.take k).flatMap (directoryBytes ctx out)).length =
          ctx.codeSignature.fileoff+startOf ctx kinds k := by
      rw [hsum, startOf]
      omega
    rw [hstart] at hin hdrop
    exact ⟨hin,c',hdrop⟩

/-- The signature is right as long as its fields are wide enough. -/
theorem signed_of_fits (hkinds : ∀ kind ∈ kinds, kind.Lawful)
    (hle : ctx.codeSignature.fileoff ≤ out.length) (hparts : Parts ctx out kinds)
    (htotal : startOf ctx kinds kinds.length = superblobSize ctx ctx.codeSignature.fileoff)
    (hlimit : ctx.codeSignature.fileoff < 2^32)
    (hsize : superblobSize ctx ctx.codeSignature.fileoff < 2^32) :
    Signed out ctx.codeSignature.fileoff (identifier ctx) kinds
      (superblobSize ctx ctx.codeSignature.fileoff) (startOf ctx kinds) := by
  have hfirst : 12+8*kinds.length ≤ superblobSize ctx ctx.codeSignature.fileoff := by
    rw [← htotal, startOf]
    omega
  have hstart : ∀ k ≤ kinds.length, startOf ctx kinds k < 2^32 :=
    fun k hk => (start_le hk).trans_lt (htotal ▸ hsize)
  refine ⟨hparts.magic,?_,?_,by simp [startOf],htotal,fun k kind hk => (hparts.entry k kind hk).1,
    fun k kind hk => ?_,fun k kind hk => ?_⟩
  · rw [hparts.length, Nat.mod_eq_of_lt hsize]
  · rw [hparts.count, Nat.mod_eq_of_lt (by omega)]
  · have hlt := (List.getElem?_eq_some_iff.1 hk).1
    rw [(hparts.entry k kind hk).2, Nat.mod_eq_of_lt (hstart k hlt.le)]
  · have hlt := (List.getElem?_eq_some_iff.1 hk).1
    obtain ⟨hin,c',hdrop⟩ := hparts.directory k kind hk
    have hsucc : startOf ctx kinds (k+1) = _ := start_succ hk
    have hnext := hstart (k+1) hlt
    rw [hsucc, Nat.add_sub_cancel_left]
    exact ⟨Nat.le_add_right _ _,directory_at (hkinds kind (List.mem_of_getElem? hk)).2 hle hin hdrop
      hlimit (by omega)⟩

/-- A signature the kernel takes has its directories where they were put. -/
theorem signed_starts (hle : ctx.codeSignature.fileoff ≤ out.length) (hparts : Parts ctx out kinds)
    {total : ℕ} {starts : ℕ → ℕ}
    (h : Signed out ctx.codeSignature.fileoff (identifier ctx) kinds total starts) {k : ℕ}
    (hk : k ≤ kinds.length) : starts k = startOf ctx kinds k := by
  induction k with
  | zero => rw [h.first, startOf, List.take_zero, List.map_nil, List.sum_nil, Nat.add_zero]
  | succ k ih =>
    have hget := List.getElem?_eq_getElem (Nat.lt_of_succ_le hk)
    obtain ⟨hmono,hdir⟩ := h.directory k _ hget
    rw [ih (by omega)] at hdir hmono
    obtain ⟨hin,c',hdrop⟩ := hparts.directory k _ hget
    have hlen := (directory_fits hle hin hdrop hdir).2
    rw [start_succ hget]
    omega

theorem fits_of_signed (hle : ctx.codeSignature.fileoff ≤ out.length) (hparts : Parts ctx out kinds)
    (hsome : 0 < kinds.length)
    (htotal : startOf ctx kinds kinds.length = superblobSize ctx ctx.codeSignature.fileoff)
    {total : ℕ} {starts : ℕ → ℕ}
    (h : Signed out ctx.codeSignature.fileoff (identifier ctx) kinds total starts) :
    ctx.codeSignature.fileoff < 2^32 ∧ superblobSize ctx ctx.codeSignature.fileoff < 2^32 := by
  have hget := List.getElem?_eq_getElem hsome
  obtain ⟨hin,c',hdrop⟩ := hparts.directory 0 _ hget
  have hdir := (h.directory 0 _ hget).2
  rw [signed_starts hle hparts h (Nat.zero_le _)] at hdir
  refine ⟨(directory_fits hle hin hdrop hdir).1,?_⟩
  rw [← htotal, ← signed_starts hle hparts h (Nat.le_refl _), h.last]
  exact read_be_lt h.length

end Signed

/-! The signature in the file. -/

theorem blob_length {H : Hashes} {ctx : Context} {buf : List UInt8}
    (hle : ctx.codeSignature.fileoff ≤ buf.length) :
    (blob ctx buf (kinds H ctx)).length = superblobSize ctx ctx.codeSignature.fileoff := by
  rw [← kinds_start H ctx, startOf, List.take_length, ← directories_length (kinds_lawful H ctx) hle,
    ← index_length ctx (12+8*(kinds H ctx).length)]
  unfold blob
  simp only [List.length_append, to_be_length, index_length]

theorem resize_of_le {bytes : List UInt8} {n : ℕ} (h : bytes.length ≤ n) :
    resize bytes n = bytes ++ List.replicate (n-bytes.length) 0 := by
  rw [resize, List.take_of_length_le h]

/-- The signature takes the bytes reserved for it, after the contents that it
was made of. -/
theorem write_drop {H : Hashes} {ctx : Context} {buf : List UInt8}
    (hsize : ctx.codeSignature.size = size ctx ctx.codeSignature.fileoff)
    (hle : ctx.codeSignature.fileoff+ctx.codeSignature.size ≤ buf.length) :
    let out := write H ctx buf (pageHashes H (buf.take ctx.codeSignature.fileoff))
    out.length = buf.length ∧
      out.take ctx.codeSignature.fileoff = buf.take ctx.codeSignature.fileoff ∧
      ∃ c, out.drop ctx.codeSignature.fileoff = blob ctx out (kinds H ctx) ++ c := by
  intro out
  have hoff : ctx.codeSignature.fileoff ≤ buf.length := by omega
  have hlen := blob_length (H := H) hoff
  have hfits : (blob ctx buf (kinds H ctx)).length ≤ ctx.codeSignature.size := by
    rw [hlen, hsize]
    exact le_align_to _ _
  have hout : out = writeAt buf ctx.codeSignature.fileoff (blob ctx buf (kinds H ctx) ++
      List.replicate (ctx.codeSignature.size-(blob ctx buf (kinds H ctx)).length) 0) := by
    rw [← resize_of_le hfits, ← superblob_blob H ctx hoff]
    rfl
  have htake : out.take ctx.codeSignature.fileoff = buf.take ctx.codeSignature.fileoff := by
    rw [hout, writeAt, List.append_assoc, List.take_left' (by rw [List.length_take]; omega)]
  have hsame : blob ctx out (kinds H ctx) = blob ctx buf (kinds H ctx) := by
    unfold blob directoryBytes
    rw [htake]
  refine ⟨?_,htake,?_⟩
  · rw [hout]
    exact write_at_length (by rw [List.length_append, List.length_replicate]; omega)
  · rw [hsame, hout, writeAt, List.append_assoc, List.drop_left' (by rw [List.length_take]; omega),
      List.append_assoc]
    exact ⟨_,rfl⟩

/-- What `write` leaves verifies exactly if the signature's place and length
are 32-bit numbers. -/
theorem write_verifies_iff {H : Hashes} {ctx : Context} {buf : List UInt8}
    (hsize : ctx.codeSignature.size = size ctx ctx.codeSignature.fileoff)
    (hle : ctx.codeSignature.fileoff+ctx.codeSignature.size ≤ buf.length) :
    Verifies (write H ctx buf (pageHashes H (buf.take ctx.codeSignature.fileoff)))
        ctx.codeSignature.fileoff ctx.codeSignature.size (identifier ctx) (kinds H ctx) ↔
      ctx.codeSignature.fileoff < 2^32 ∧ superblobSize ctx ctx.codeSignature.fileoff < 2^32 := by
  obtain ⟨hlen,-,c,hdrop⟩ := write_drop (H := H) hsize hle
  have hoff : ctx.codeSignature.fileoff ≤
      (write H ctx buf (pageHashes H (buf.take ctx.codeSignature.fileoff))).length := by omega
  have hparts := blob_parts (kinds_lawful H ctx) hoff hdrop
  have htotal := kinds_start H ctx
  constructor
  · intro h
    obtain ⟨-,total,starts,-,hsigned⟩ := h
    have hsome : 0 < (kinds H ctx).length := by
      unfold kinds
      split <;> exact Nat.succ_pos _
    exact fits_of_signed hoff hparts hsome htotal hsigned
  · intro h
    exact ⟨by omega,_,_,hsize.symm,
      signed_of_fits (kinds_lawful H ctx) hoff hparts htotal h.1 h.2⟩

end MoldMacho.CodeSignature
