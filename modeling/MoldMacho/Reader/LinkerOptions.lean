import Mathlib.Tactic.FinCases
import MoldMacho.Chunks.Header

/-!
# Auto-link options

The words of an object's `LC_LINKER_OPTION` commands, read in a row as a command
line of library options. What is kept is one option to a command.
-/

set_option autoImplicit false

namespace MoldMacho.LinkerOptions
open MoldMacho.Chunks (bytes)

abbrev Word := List UInt8

theorem word_lawful : LawfulBEq Word := inferInstance

attribute [local instance] word_lawful

abbrev Command := List Word
abbrev Message := List UInt8

/-- The options that take the next word. -/
def argumentOptions : List Word :=
  ["-l","-framework","-needed_framework","-lazy_framework","-force_load","-needed_library",
    "-lazy_library","-weak_framework","-reexport_framework","-upward_framework","-weak_library",
    "-reexport_library","-upward_library","-syslibroot","-bundle_loader","-L","-F"].map bytes

def takesArgument (word : Word) : Bool := argumentOptions.contains word

def ignored (file : Word) (kind : String) (what : Word) : Message :=
  bytes kind ++ bytes " linker option from object file ignored: '" ++ what ++ bytes "' in " ++ file

def malformed (file opt : Word) : Message :=
  bytes "malformed linker option from object file ignored: '" ++ opt ++
    bytes "' missing argument, in " ++ file

/-- What is kept of an option, and what is warned of. -/
abbrev Reading := Option Command × Option Message

/-- Reads an option that takes the next word, which may be missing. An empty one
is. -/
def readArgument (file word : Word) (arg : Option Word) : Reading :=
  match arg.filter fun arg => arg ≠ [] with
  | none => (none,some (malformed file word))
  | some arg =>
    if word = bytes "-l" then (some [word ++ arg],none)
    else if word ∈ ["-weak_framework","-reexport_framework","-upward_framework"].map bytes then
      (none,some (ignored file "unexpected" (word ++ bytes " " ++ arg)))
    else if word ∈ ["-weak_library","-reexport_library","-upward_library"].map bytes then
      let kind := word.take (word.length - (bytes "_library").length)
      (none,some (ignored file "unexpected" (kind ++ bytes "-l" ++ arg)))
    else if word ∈ ["-syslibroot","-bundle_loader","-L","-F"].map bytes then (none,none)
    else (some [word,arg],none)

/-- The library options that take the name joined to them. -/
def joinedPrefix (word : Word) : Option String :=
  ["-needed-l","-lazy-l","-hidden-l","-weak-l","-reexport-l","-upward-l","-l","-L","-F"].find?
    fun name => (bytes name).isPrefixOf word

def readWord (file word : Word) : Reading :=
  if word ∈ ["-all_load","-ObjC","-search_paths_first","-search_dylibs_first"].map bytes then
    (none,none)
  else
    match joinedPrefix word with
    | some name =>
      if word.length = (bytes name).length then (none,some (malformed file (bytes name)))
      else if name ∈ ["-weak-l","-reexport-l","-upward-l"] then
        (none,some (ignored file "unexpected" word))
      else if name ∈ ["-L","-F"] then (none,none)
      else (some [word],none)
    | none => (none,some (ignored file "unknown" word))

/-- The options of the words: each one's word, and the word after it. -/
def options : List Word → List (Word × Option Word)
  | [] => []
  | [word] => [(word,none)]
  | word::next::rest =>
    if takesArgument word then (word,some next) :: options rest
    else (word,none) :: options (next::rest)

def readOption (file : Word) (option : Word × Option Word) : Reading :=
  if takesArgument option.1 then readArgument file option.1 option.2
  else readWord file option.1

/-- Reads the words of an object's commands. -/
def readLinkerOptions (opts : List Command) (file : Word) : List Command × List Message :=
  let read := (options opts.flatten).map (readOption file)
  (read.filterMap Prod.fst,read.filterMap Prod.snd)

/-! ## The words of an option -/

theorem options_plain {word : Word} (h : takesArgument word = false) (rest : List Word) :
    options (word::rest) = (word,none) :: options rest := by
  cases rest with
  | nil => rfl
  | cons next rest => rw [options, h, if_neg Bool.false_ne_true]

theorem options_argument {word : Word} (h : takesArgument word = true) (arg : Word)
    (rest : List Word) : options (word::arg::rest) = (word,some arg) :: options rest := by
  rw [options, if_pos h]

/-- A word that a joined one may be. -/
theorem append_mem {α : Type} [DecidableEq α] {a b : List α} {l : List (List α)} :
    a ++ b ∈ l ↔ b ∈ (l.filter a.isPrefixOf).map (List.drop a.length) := by
  rw [List.mem_map]
  constructor
  · intro h
    refine ⟨a ++ b,List.mem_filter.2 ⟨h,?_⟩,List.drop_left⟩
    rw [List.isPrefixOf_iff_prefix]
    exact List.prefix_append a b
  · rintro ⟨c,hc,rfl⟩
    obtain ⟨hmem,hstarts⟩ := List.mem_filter.1 hc
    obtain ⟨d,rfl⟩ := List.isPrefixOf_iff_prefix.1 hstarts
    rw [List.drop_left]
    exact hmem

/-- What a `-l` may be joined with to make an option that takes the next word. -/
theorem takes_joined (arg : Word) : takesArgument (bytes "-l" ++ arg) = true ↔
    arg ∈ ["","azy_framework","azy_library"].map bytes := by
  rw [takesArgument, List.contains_iff_mem, append_mem]
  rfl

theorem joined_library (arg : Word) : joinedPrefix (bytes "-l" ++ arg) =
    if (bytes "azy-l").isPrefixOf arg then some "-lazy-l" else some "-l" := by
  have hmatch : joinedPrefix (bytes "-l" ++ arg) =
      match (bytes "azy-l").isPrefixOf arg with
      | true => some "-lazy-l"
      | false => some "-l" := rfl
  rw [hmatch]
  cases (bytes "azy-l").isPrefixOf arg <;> rfl

/-! ## What is kept -/

/-- A command that is read as it is, whatever follows. -/
def Settled (command : Command) : Prop :=
  ∀ file rest, ∃ option, options (command ++ rest) = option :: options rest ∧
    readOption file option = (some command,none)

/-- A `-l` whose argument makes another option of it. -/
def Clashes (option : Word × Option Word) : Prop :=
  option ∈ ["azy_framework","azy_library","azy-l"].map fun arg => (bytes "-l",some (bytes arg))

instance (option : Word × Option Word) : Decidable (Clashes option) :=
  inferInstanceAs (Decidable (_ ∈ _))

/-- The commands that clashing options make. -/
def Bad (command : Command) : Prop :=
  command ∈ ["-lazy_framework","-lazy_library","-lazy-l"].map fun word => [bytes word]

instance (command : Command) : Decidable (Bad command) := inferInstanceAs (Decidable (_ ∈ _))

theorem read_clash {option : Word × Option Word} (h : Clashes option) (file : Word) :
    ∃ command, Bad command ∧ readOption file option = (some command,none) := by
  simp only [Clashes, List.map_cons, List.map_nil, List.mem_cons, List.not_mem_nil, or_false] at h
  rcases h with rfl | rfl | rfl
  · exact ⟨[bytes "-lazy_framework"],by decide,rfl⟩
  · exact ⟨[bytes "-lazy_library"],by decide,rfl⟩
  · exact ⟨[bytes "-lazy-l"],by decide,rfl⟩

/-- A `-l` joined with its argument is an option of its own, unless they clash. -/
theorem joined_settled {arg : Word} (hne : arg ≠ []) (h : ¬ Clashes (bytes "-l",some arg)) :
    Settled [bytes "-l" ++ arg] := by
  have hclash : arg ∉ ["azy_framework","azy_library","azy-l"].map bytes := by
    intro hmem
    obtain ⟨name,hname,rfl⟩ := List.mem_map.1 hmem
    exact h (List.mem_map.2 ⟨name,hname,rfl⟩)
  have htakes : takesArgument (bytes "-l" ++ arg) = false := by
    rw [Bool.eq_false_iff, ne_eq, takes_joined]
    intro hmem
    rcases List.mem_cons.1 hmem with hempty | hmem
    · exact hne hempty
    · exact hclash (List.map_subset bytes (List.subset_append_left _ ["azy-l"]) hmem)
  intro file rest
  refine ⟨(bytes "-l" ++ arg,none),options_plain htakes rest,?_⟩
  have hloud : bytes "-l" ++ arg ∉
      ["-all_load","-ObjC","-search_paths_first","-search_dylibs_first"].map bytes := by
    rw [append_mem]
    exact List.not_mem_nil
  rw [readOption, if_neg (by rw [htakes]; exact Bool.false_ne_true), readWord, if_neg hloud,
    joined_library]
  by_cases hlazy : (bytes "azy-l").isPrefixOf arg = true
  · have hlong : (bytes "-l" ++ arg).length ≠ (bytes "-lazy-l").length := by
      intro hlen
      have hsplit : (bytes "-lazy-l").length = (bytes "-l").length + (bytes "azy-l").length := rfl
      rw [List.length_append, hsplit] at hlen
      have heq := (List.isPrefixOf_iff_prefix.1 hlazy).eq_of_length
        (Nat.add_left_cancel hlen).symm
      exact hclash (heq ▸ List.mem_map.2 ⟨"azy-l",by simp,rfl⟩)
    rw [if_pos hlazy]
    dsimp only
    rw [if_neg hlong, if_neg (by decide), if_neg (by decide)]
  · have hlong : (bytes "-l" ++ arg).length ≠ (bytes "-l").length := by
      rw [List.length_append]
      intro hlen
      exact hne (List.length_eq_zero_iff.1 (Nat.add_eq_left.1 hlen))
    rw [if_neg hlazy]
    dsimp only
    rw [if_neg hlong, if_neg (by decide), if_neg (by decide)]

theorem read_argument_kept {file word : Word} {arg : Option Word} {command : Command}
    {warning : Option Message} (h : readArgument file word arg = (some command,warning)) :
    warning = none ∧ ∃ given, arg = some given ∧ given ≠ [] ∧
      ((word = bytes "-l" ∧ command = [word ++ given]) ∨
        command = [word,given] ∧
          ∀ other, readArgument other word (some given) = (some command,none)) := by
  unfold readArgument at h
  split at h
  · cases h
  · next given hgiven =>
    obtain ⟨rfl,hne⟩ := Option.filter_eq_some_iff.1 hgiven
    have hfound : (some given).filter (fun arg => arg ≠ []) = some given := hgiven
    split at h
    · next hl =>
      cases h
      exact ⟨rfl,given,rfl,of_decide_eq_true hne,Or.inl ⟨hl,rfl⟩⟩
    · next hl =>
      split at h
      · cases h
      · next hframework =>
        split at h
        · cases h
        · next hlibrary =>
          split at h
          · cases h
          · next hsilent =>
            cases h
            refine ⟨rfl,given,rfl,of_decide_eq_true hne,Or.inr ⟨rfl,fun other => ?_⟩⟩
            rw [readArgument, hfound]
            dsimp only
            rw [if_neg hl, if_neg hframework, if_neg hlibrary, if_neg hsilent]

theorem read_word_kept {file word : Word} {command : Command} {warning : Option Message}
    (h : readWord file word = (some command,warning)) :
    warning = none ∧ command = [word] ∧ ∀ other, readWord other word = (some command,none) := by
  unfold readWord at h
  split at h
  · cases h
  · next hsilent =>
    split at h
    · next name hname =>
      split at h
      · cases h
      · next hlong =>
        split at h
        · cases h
        · next hweak =>
          split at h
          · cases h
          · next hpath =>
            cases h
            refine ⟨rfl,rfl,fun other => ?_⟩
            rw [readWord, if_neg hsilent, hname]
            dsimp only
            rw [if_neg hlong, if_neg hweak, if_neg hpath]
    · cases h

/-- What is kept of an option is read as it is, unless the option clashes. -/
theorem kept_settled {file : Word} {option : Word × Option Word} {command : Command}
    {warning : Option Message} (h : readOption file option = (some command,warning)) :
    warning = none ∧ (Settled command ∨ Clashes option) := by
  obtain ⟨word,arg⟩ := option
  unfold readOption at h
  split at h
  · next htakes =>
    obtain ⟨hnone,given,rfl,hne,⟨rfl,rfl⟩ | ⟨rfl,hother⟩⟩ := read_argument_kept h
    · refine ⟨hnone,?_⟩
      by_cases hclash : Clashes (bytes "-l",some given)
      · exact Or.inr hclash
      · exact Or.inl (joined_settled hne hclash)
    · refine ⟨hnone,Or.inl fun file rest => ⟨_,options_argument htakes given rest,?_⟩⟩
      rw [readOption, if_pos htakes]
      exact hother file
  · next htakes =>
    obtain ⟨hnone,rfl,hother⟩ := read_word_kept h
    refine ⟨hnone,Or.inl fun file rest => ⟨_,options_plain (by simpa using htakes) rest,?_⟩⟩
    rw [readOption, if_neg htakes]
    exact hother file

/-! ## Reading again -/

theorem read_settled {commands : List Command} (h : ∀ c ∈ commands, Settled c) (file : Word)
    (rest : List Word) : (options (commands.flatten ++ rest)).map (readOption file) =
      commands.map (fun c => (some c,none)) ++ (options rest).map (readOption file) := by
  induction commands with
  | nil => rfl
  | cons c commands ih =>
    obtain ⟨hc,hrest⟩ := List.forall_mem_cons.1 h
    obtain ⟨option,hoptions,hread⟩ := hc file (commands.flatten ++ rest)
    rw [List.flatten_cons, List.append_assoc, hoptions, List.map_cons, hread, ih hrest]
    rfl

/-- A clashing option's command is not read as itself. -/
theorem bad_read {command : Command} (hbad : Bad command) (file : Word) (rest : List Word) :
    (∃ warning more, (options (command ++ rest)).map (readOption file) = (none,some warning)::more) ∨
    ∃ other more, other ≠ command ∧
      (options (command ++ rest)).map (readOption file) = (some other,none)::more := by
  have hargument (name : String) (htakes : takesArgument (bytes name) = true)
      (hkept : ∀ arg, arg ≠ [] →
        readArgument file (bytes name) (some arg) = (some [bytes name,arg],none)) :
      (∃ warning more, (options (bytes name::rest)).map (readOption file) =
        (none,some warning)::more) ∨
      ∃ other more, other ≠ [bytes name] ∧
        (options (bytes name::rest)).map (readOption file) = (some other,none)::more := by
    cases rest with
    | nil =>
      refine Or.inl ⟨malformed file (bytes name),[],?_⟩
      rw [options, List.map_cons, readOption, if_pos htakes]
      rfl
    | cons arg rest =>
      rw [options_argument htakes, List.map_cons, readOption, if_pos htakes]
      by_cases harg : arg = []
      · rw [harg]
        exact Or.inl ⟨malformed file (bytes name),_,rfl⟩
      · refine Or.inr ⟨[bytes name,arg],(options rest).map (readOption file),by simp,?_⟩
        dsimp only
        rw [hkept arg harg]
  have hkept (name : String) (hname : name ∈ ["-lazy_framework","-lazy_library"]) (arg : Word)
      (harg : arg ≠ []) :
      readArgument file (bytes name) (some arg) = (some [bytes name,arg],none) := by
    have hfilter : (some arg).filter (fun arg => arg ≠ []) = some arg :=
      Option.filter_eq_some_iff.2 ⟨rfl,decide_eq_true harg⟩
    rw [readArgument, hfilter]
    fin_cases hname <;> rfl
  simp only [Bad, List.map_cons, List.map_nil, List.mem_cons, List.not_mem_nil, or_false] at hbad
  rcases hbad with rfl | rfl | rfl
  · exact hargument "-lazy_framework" rfl (hkept _ (by simp))
  · exact hargument "-lazy_library" rfl (hkept _ (by simp))
  · refine Or.inl ⟨malformed file (bytes "-lazy-l"),(options rest).map (readOption file),?_⟩
    rw [List.singleton_append, options_plain (show takesArgument (bytes "-lazy-l") = false from rfl)]
    rfl

/-- Every command kept is read as it is, or a clashing option made it. -/
theorem kept_commands {opts : List Command} {file : Word} {command : Command}
    (h : command ∈ (readLinkerOptions opts file).1) :
    Settled command ∨ Bad command ∧ ∃ option ∈ options opts.flatten, Clashes option := by
  obtain ⟨reading,hreading,hcommand⟩ := List.mem_filterMap.1 h
  obtain ⟨option,hoption,rfl⟩ := List.mem_map.1 hreading
  obtain ⟨-,hsettled | hclash⟩ := kept_settled (Prod.ext hcommand rfl)
  · exact Or.inl hsettled
  · obtain ⟨bad,hbad,hread⟩ := read_clash hclash file
    rw [hread] at hcommand
    cases hcommand
    exact Or.inr ⟨hbad,option,hoption,hclash⟩

/-- What is kept reads the same again, and gives no warning, just if no `-l` is
joined with an argument that makes another option of it. -/
theorem kept_reads_again (opts : List Command) (file again : Word) :
    readLinkerOptions (readLinkerOptions opts file).1 again =
        ((readLinkerOptions opts file).1,[]) ↔
      ∀ option ∈ options opts.flatten, ¬ Clashes option := by
  constructor
  · intro hsame option hoption hclash
    obtain ⟨made,hmade,hread⟩ := read_clash hclash file
    have hmem : made ∈ (readLinkerOptions opts file).1 :=
      List.mem_filterMap.2 ⟨_,List.mem_map_of_mem hoption,by rw [hread]⟩
    have hkept : ∀ c ∈ (readLinkerOptions opts file).1, Settled c ∨ Bad c :=
      fun c hc => (kept_commands hc).imp_right And.left
    generalize (readLinkerOptions opts file).1 = kept at hsame hmem hkept
    -- The commands before the first bad one are read as they are.
    obtain ⟨before,command,after,rfl,hbefore,hbad⟩ :
        ∃ before command after, kept = before ++ command::after ∧
          (∀ c ∈ before, ¬ Bad c) ∧ Bad command := by
      have hany : (kept.find? fun c => decide (Bad c)).isSome = true :=
        List.find?_isSome.2 ⟨made,hmem,decide_eq_true hmade⟩
      obtain ⟨command,hfind⟩ := Option.isSome_iff_exists.1 hany
      obtain ⟨hbad,before,after,hkept,hbefore⟩ := List.find?_eq_some_iff_append.1 hfind
      exact ⟨before,command,after,hkept,by simpa using hbefore,of_decide_eq_true hbad⟩
    have hsettled : ∀ c ∈ before, Settled c :=
      fun c hc => (hkept c (List.mem_append_left _ hc)).resolve_right (hbefore c hc)
    have hread := read_settled hsettled again (command ++ after.flatten)
    rw [← List.flatten_cons, ← List.flatten_append] at hread
    obtain ⟨hcommands,hwarnings⟩ := Prod.ext_iff.1 hsame
    rw [readLinkerOptions, hread] at hcommands hwarnings
    rw [List.flatten_cons] at hcommands hwarnings
    rcases bad_read hbad again after.flatten with ⟨warning,more,hmore⟩ | ⟨other,more,hne,hmore⟩
    · rw [hmore] at hwarnings
      simp at hwarnings
    · rw [hmore] at hcommands
      simp only [List.filterMap_append, List.filterMap_map, List.filterMap_cons] at hcommands
      have hid : before.filterMap (Prod.fst ∘ fun c => ((some c,none) : Reading)) = before :=
        List.filterMap_some
      rw [hid] at hcommands
      exact hne (List.cons.inj (List.append_cancel_left hcommands)).1
  · intro hnone
    have hsettled : ∀ c ∈ (readLinkerOptions opts file).1, Settled c := by
      intro c hc
      rcases kept_commands hc with hsettled | ⟨-,option,hoption,hclash⟩
      · exact hsettled
      · exact absurd hclash (hnone option hoption)
    have hread := read_settled hsettled again []
    rw [List.append_nil] at hread
    rw [readLinkerOptions, hread]
    simp [options, List.filterMap_map]

/-- `-l azy_framework` is kept as `-lazy_framework`, which then wants an
argument. -/
theorem joined_option_lost :
    (readLinkerOptions [[bytes "-l",bytes "azy_framework"]] (bytes "a.o")).1 =
      [[bytes "-lazy_framework"]] ∧
    readLinkerOptions [[bytes "-lazy_framework"]] (bytes "b.o") =
      ([],[bytes ("malformed linker option from object file ignored: '-lazy_framework' " ++
        "missing argument, in b.o")]) := by
  decide +kernel

end MoldMacho.LinkerOptions
