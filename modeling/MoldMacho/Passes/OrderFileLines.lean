import MoldMacho.Passes.OrderFiles

/-!
# The lines of order files

A line that names a symbol, of any object or of one, and when it is read as that.
-/

set_option autoImplicit false

namespace MoldMacho.OrderFiles
open MoldMacho.Chunks MoldMacho.Symbols MoldMacho.Text

/-! ## Lines as meant -/

/-- A line with white space around it and a comment after it: a blank one, or one that
names a symbol, qualified or not with the link's own architecture and with a file. -/
structure Line where
  lead : List UInt8 := []
  symbol : Option (Bool × Option Name × Name)
  trail : List UInt8 := []
  comment : Option (List UInt8) := none

def isNameByte (b : UInt8) : Bool := b != 0 && b != 0x23 && b != 0x0a && b != 0x0d

/-- The bytes of a symbol's line before its comment. -/
def symbolBytes (target : Target) (qualified : Bool) (file : Option Name) (name : Name) : List UInt8 :=
  (if qualified then target.name ++ bytes ":" else []) ++ (file.elim [] (· ++ bytes ":")) ++ name

namespace Line

def bytes (target : Target) (l : Line) : List UInt8 :=
  l.lead ++ (l.symbol.elim [] fun (qualified,file,name) => symbolBytes target qualified file name) ++
    l.trail ++ l.comment.elim [] (0x23::·)

def meaning (l : Line) : Option OrderEntry :=
  l.symbol.map fun (_,file,name) => { name, file }

/-- Names are of bytes other than null, `#` and those that end lines. -/
structure Ok (l : Line) : Prop where
  lead : ∀ c ∈ l.lead, isSpace c = true
  trail : ∀ c ∈ l.trail, isSpace c = true
  symbol : ∀ s ∈ l.symbol, s.2.2 ≠ [] ∧ (∀ b ∈ s.2.2, isNameByte b = true) ∧
    ∀ file ∈ s.2.1, ∀ b ∈ file, isNameByte b = true

/-- Neither name begins or ends in white space, a name without a file has no colon, and
the file is not cut at a colon or taken for an architecture. -/
def Plain (l : Line) : Prop :=
  ∀ s ∈ l.symbol, trimSpace s.2.2 = s.2.2 ∧ (s.2.1 = none → 0x3a ∉ s.2.2) ∧
    ∀ file ∈ s.2.1, trimSpace file = file ∧ 0x3a ∉ file ∧ (s.1 = false → file ∉ archs)

end Line

/-! ## Lines as read -/

theorem colon_no_space : isSpace 0x3a = false := by decide

theorem space_no_hash {c : UInt8} (h : isSpace c = true) : c ≠ 0x23 := by
  rintro rfl
  exact absurd h (by decide)

/-- An entry that is read begins and ends in no white space and is cut at a colon. -/
theorem file_and_name_trim {line : List UInt8} (h : trimSpace line = line) :
    trimSpace (fileAndName line).name = (fileAndName line).name ∧
      ((fileAndName line).file = none → 0x3a ∉ (fileAndName line).name) ∧
      ∀ file ∈ (fileAndName line).file, trimSpace file = file ∧ 0x3a ∉ file := by
  rw [fileAndName]
  cases hsplit : splitOnce line 0x3a with
  | none => exact ⟨h,fun _ => split_once_none.1 hsplit,by simp⟩
  | some halves =>
    obtain ⟨file,name⟩ := halves
    refine ⟨trim_space_trim name,by simp,?_⟩
    rintro _ ⟨⟩
    exact ⟨trim_space_trim file,
      fun hmem => (split_once_some hsplit).1 ((trim_space_sublist file).subset hmem)⟩

theorem read_line_trim {target : Target} {line : List UInt8} {e : OrderEntry}
    (h : readLine target line = some e) :
    trimSpace e.name = e.name ∧ (e.file = none → 0x3a ∉ e.name) ∧
      ∀ file ∈ e.file, trimSpace file = file ∧ 0x3a ∉ file := by
  have hline : trimSpace (bareLine line) = bareLine line := trim_space_trim _
  rw [readLine] at h
  by_cases hnil : bareLine line = []
  · rw [if_pos hnil] at h
    cases h
  rw [if_neg hnil] at h
  cases hsplit : splitOnce (bareLine line) 0x3a with
  | none =>
    rw [hsplit] at h
    cases h
    exact file_and_name_trim hline
  | some halves =>
    obtain ⟨first,rest⟩ := halves
    rw [hsplit] at h
    dsimp only at h
    split_ifs at h
    · cases h
      exact file_and_name_trim (trim_space_trim rest)
    · cases h
      exact file_and_name_trim hline

/-! What is read of a line with a symbol. -/

theorem file_and_name_bare {line : List UInt8} (h : 0x3a ∉ line) :
    fileAndName line = { name := line, file := none } := by
  rw [fileAndName, split_once_none.2 h]

theorem split_trimmed {a b : List UInt8} (h : 0x3a ∉ a) :
    splitOnce (trimSpace (a ++ bytes ":" ++ b)) 0x3a =
      some (a.dropWhile isSpace,b.rdropWhile isSpace) := by
  rw [List.append_assoc, show bytes ":" ++ b = 0x3a::b from rfl, trim_space_sep colon_no_space]
  exact split_once_append fun hmem => h ((List.dropWhile_sublist _).subset hmem)

theorem file_and_name_split {file name : Name} (h : 0x3a ∉ file) :
    fileAndName (trimSpace (file ++ bytes ":" ++ name)) =
      { name := trimSpace name, file := some (trimSpace file) } := by
  rw [fileAndName, split_trimmed h]
  dsimp only
  rw [trim_drop, trim_rdrop]

theorem target_name (target : Target) :
    target.name ∈ archs ∧ 0x3a ∉ target.name ∧ 0x23 ∉ target.name ∧
      trimSpace target.name = target.name := by
  cases target <;> decide

theorem arch_name {arch : Name} (h : arch ∈ archs) : 0x3a ∉ arch ∧ trimSpace arch = arch := by
  revert h
  rw [archs]
  simp only [List.mem_cons, List.not_mem_nil, or_false]
  rintro (rfl | rfl | rfl | rfl | rfl | rfl) <;> decide

section Lines
variable {target : Target} {qualified : Bool} {file : Option Name} {name : Name} {l : Line}

theorem take_whole {a : List UInt8} (h : 0x23 ∉ a) : a.takeWhile (· != 0x23) = a := by
  rw [List.takeWhile_eq_self_iff]
  exact fun c hc => bne_iff_ne.2 fun heq => h (heq ▸ hc)

theorem take_before {a : List UInt8} (h : 0x23 ∉ a) (comment : Option (List UInt8)) :
    (a ++ comment.elim [] (0x23::·)).takeWhile (· != 0x23) = a := by
  cases comment with
  | none => rw [Option.elim_none, List.append_nil, take_whole h]
  | some comment =>
    have hall : ∀ c ∈ a, (c != 0x23) = true := fun c hc => bne_iff_ne.2 fun heq => h (heq ▸ hc)
    rw [List.takeWhile_append_of_pos hall]
    simp

theorem spaces_hash {spaces : List UInt8} (h : ∀ c ∈ spaces, isSpace c = true) :
    (0x23 : UInt8) ∉ spaces :=
  fun hmem => space_no_hash (h _ hmem) rfl

theorem symbol_bytes_hash (hname : ∀ b ∈ name, isNameByte b = true)
    (hfile : ∀ f ∈ file, ∀ b ∈ f, isNameByte b = true) :
    0x23 ∉ symbolBytes target qualified file name := by
  have hnot : ∀ n : List UInt8, (∀ b ∈ n, isNameByte b = true) → 0x23 ∉ n :=
    fun n hn hmem => absurd (hn 0x23 hmem) (by decide)
  have hcolon : (0x23 : UInt8) ∉ bytes ":" := by decide
  rw [symbolBytes, List.mem_append, List.mem_append, not_or, not_or]
  refine ⟨⟨?_,?_⟩,hnot name hname⟩
  · cases qualified with
    | false => simp
    | true =>
      rw [if_pos rfl, List.mem_append, not_or]
      exact ⟨(target_name target).2.2.1,hcolon⟩
  · cases file with
    | none => simp
    | some f =>
      rw [Option.elim_some, List.mem_append, not_or]
      exact ⟨hnot f (hfile f rfl),hcolon⟩

theorem bare_line (hok : l.Ok) (hl : l.symbol = some (qualified,file,name)) :
    bareLine (l.bytes target) = trimSpace (symbolBytes target qualified file name) := by
  obtain ⟨hlead,htrail,hsymbol⟩ := hok
  obtain ⟨-,hname,hfile⟩ := hsymbol _ hl
  have hnot : 0x23 ∉ l.lead ++ symbolBytes target qualified file name ++ l.trail := by
    rw [List.mem_append, List.mem_append, not_or, not_or]
    exact ⟨⟨spaces_hash hlead,symbol_bytes_hash hname hfile⟩,spaces_hash htrail⟩
  rw [bareLine, Line.bytes, hl, Option.elim_some, take_before hnot, trim_space_pad hlead htrail]

theorem blank_line (hok : l.Ok) (hl : l.symbol = none) : readLine target (l.bytes target) = none := by
  obtain ⟨hlead,htrail,-⟩ := hok
  have hnot : 0x23 ∉ l.lead ++ [] ++ l.trail := by
    rw [List.append_nil, List.mem_append, not_or]
    exact ⟨spaces_hash hlead,spaces_hash htrail⟩
  have hbare : bareLine (l.bytes target) = [] := by
    rw [bareLine, Line.bytes, hl, Option.elim_none, take_before hnot, trim_space_pad hlead htrail]
    rfl
  rw [readLine, hbare]
  rfl

/-- What is read of a line whose architecture is the link's. -/
theorem read_qualified (hok : l.Ok) (hl : l.symbol = some (true,file,name)) :
    readLine target (l.bytes target) =
      some (fileAndName (trimSpace (symbolBytes target false file name))) := by
  obtain ⟨harch,hcolon,-,htrim⟩ := target_name target
  have hbare : bareLine (l.bytes target) =
      trimSpace (target.name ++ bytes ":" ++ symbolBytes target false file name) := by
    rw [bare_line hok hl]
    simp [symbolBytes]
  have hsplit := @split_trimmed target.name (symbolBytes target false file name) hcolon
  have hne : trimSpace (target.name ++ bytes ":" ++ symbolBytes target false file name) ≠ [] := by
    intro hnil
    rw [hnil] at hsplit
    cases hsplit
  rw [readLine, hbare, if_neg hne, hsplit]
  dsimp only
  rw [trim_drop, htrim, if_pos harch, if_neg (not_not.2 rfl), trim_rdrop]

/-- A file that is not an architecture leaves its line as it is. -/
theorem read_file {f : Name} (hok : l.Ok) (hl : l.symbol = some (false,some f,name))
    (hcolon : 0x3a ∉ f) (harch : trimSpace f ∉ archs) :
    readLine target (l.bytes target) =
      some { name := trimSpace name, file := some (trimSpace f) } := by
  have hbare : bareLine (l.bytes target) = trimSpace (f ++ bytes ":" ++ name) := by
    rw [bare_line hok hl]
    simp [symbolBytes]
  have hsplit := @split_trimmed f name hcolon
  have hne : trimSpace (f ++ bytes ":" ++ name) ≠ [] := by
    intro hnil
    rw [hnil] at hsplit
    cases hsplit
  rw [readLine, hbare, if_neg hne, hsplit]
  dsimp only
  rw [trim_drop, if_neg harch, file_and_name_split hcolon]

/-- A file that is an architecture is dropped, or its line is. -/
theorem read_arch_file {f : Name} (hok : l.Ok) (hl : l.symbol = some (false,some f,name))
    (harch : f ∈ archs) :
    readLine target (l.bytes target) =
      if f ≠ target.name then none else some (fileAndName (trimSpace name)) := by
  obtain ⟨hcolon,htrim⟩ := arch_name harch
  have hbare : bareLine (l.bytes target) = trimSpace (f ++ bytes ":" ++ name) := by
    rw [bare_line hok hl]
    simp [symbolBytes]
  have hsplit := @split_trimmed f name hcolon
  have hne : trimSpace (f ++ bytes ":" ++ name) ≠ [] := by
    intro hnil
    rw [hnil] at hsplit
    cases hsplit
  rw [readLine, hbare, if_neg hne, hsplit]
  dsimp only
  rw [trim_drop, htrim, if_pos harch, trim_rdrop]

theorem read_bare (hok : l.Ok) (hl : l.symbol = some (false,none,name))
    (htrim : trimSpace name = name) (hcolon : 0x3a ∉ name) :
    readLine target (l.bytes target) = some { name, file := none } := by
  have hbare : bareLine (l.bytes target) = name := by
    rw [bare_line hok hl]
    exact htrim
  rw [readLine, hbare, if_neg (hok.symbol _ hl).1, split_once_none.2 hcolon,
    file_and_name_bare hcolon]

/-- The name of a file's line is what is left of it after the file. -/
theorem file_and_name_shorter {line : List UInt8} {f : Name}
    (h : (fileAndName line).file = some f) : (fileAndName line).name.length < line.length := by
  rw [fileAndName] at h ⊢
  cases hsplit : splitOnce line 0x3a with
  | none =>
    rw [hsplit] at h
    cases h
  | some halves =>
    obtain ⟨a,b⟩ := halves
    have hlen := (trim_space_sublist b).length_le
    rw [(split_once_some hsplit).2, List.length_append, List.length_cons]
    dsimp only
    omega

theorem read_as_meant (hok : l.Ok) :
    readLine target (l.bytes target) = l.meaning ↔ l.Plain := by
  rw [Line.meaning, Line.Plain]
  cases hl : l.symbol with
  | none =>
    rw [blank_line hok hl]
    simp
  | some symbol =>
    obtain ⟨qualified,file,name⟩ := symbol
    simp only [Option.map_some, Option.mem_def, Option.some_inj, forall_eq']
    constructor
    · intro hread
      obtain ⟨htrim,hbare,hfile⟩ := read_line_trim hread
      refine ⟨htrim,hbare,fun f hf => ⟨(hfile f hf).1,(hfile f hf).2,?_⟩⟩
      rintro rfl harch
      cases hf
      rw [read_arch_file hok hl harch] at hread
      split_ifs at hread
      have heq := Option.some_inj.1 hread
      have hshorter := file_and_name_shorter (congrArg OrderEntry.file heq)
      rw [heq] at hshorter
      have hlen : name.length < (trimSpace name).length := hshorter
      exact absurd (trim_space_sublist name).length_le (not_le.2 hlen)
    · rintro ⟨htrim,hbare,hfile⟩
      cases file with
      | none =>
        cases qualified with
        | false => exact read_bare hok hl htrim (hbare rfl)
        | true =>
          rw [read_qualified hok hl]
          show some (fileAndName (trimSpace name)) = _
          rw [htrim, file_and_name_bare (hbare rfl)]
      | some f =>
        obtain ⟨hftrim,hcolon,harch⟩ := hfile f rfl
        cases qualified with
        | false => rw [read_file hok hl hcolon (hftrim.symm ▸ harch rfl), htrim, hftrim]
        | true =>
          rw [read_qualified hok hl]
          show some (fileAndName (trimSpace (f ++ bytes ":" ++ name))) = _
          rw [file_and_name_split hcolon, htrim, hftrim]

end Lines

end MoldMacho.OrderFiles
