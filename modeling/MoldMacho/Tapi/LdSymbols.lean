import MoldMacho.InputFiles.Dylibs
import MoldMacho.Lib.Decimal
import MoldMacho.Util.Text

/-!
# The linker directives among a library's exports

A library's `$ld$` names are read for the link's platform and deployment target:
each adds or hides an export, gives an install name or a compatibility version,
or moves the library or an export to an older one.
-/

set_option autoImplicit false

namespace MoldMacho.Tapi
open MoldMacho.Chunks MoldMacho.Dylibs MoldMacho.Decimal MoldMacho.Text

structure Args where
  platform : ℕ
  platformMinos : ℕ

/-- A decimal number of 32 bits, as the standard library reads one. -/
def parseU32 (s : Name) : Option ℕ :=
  let digits := if s.head? = some 0x2b then s.tail else s
  if digits ≠ [] ∧ digits.all isDigit ∧ valueFrom 0 digits < 2^32 then some (valueFrom 0 digits)
  else none

/-- The parts read into the fields they have, and the parts left over. -/
def versionFrom : List (ℕ × ℕ) → List Name → ℕ → Option (ℕ × List Name)
  | (shift,max)::fields, part::parts, version => do
    let n ← parseU32 part
    if max < n then none else versionFrom fields parts (version ||| n <<< shift)
  | _, parts, version => some (version,parts)

/-- `X[.Y[.Z]]`, packed in 16, 8 and 8 bits. -/
def directiveVersion (s : Name) : Option ℕ := do
  let (version,rest) ← versionFrom [(16,0xffff),(8,0xff),(0,0xff)] (s.splitOn 0x2e) 0
  if rest = [] then some version else none

structure PreviousDirective where
  installName : Name
  version : Option ℕ
  lo : ℕ
  hi : ℕ
  sym : Name

/-- `<install name>$<compat>$<platform>$<lo>$<hi>[$[<sym>[$]]]`, for the platform. -/
def PreviousDirective.parse (rest : Name) (platform : ℕ) : Option PreviousDirective := do
  let (installName,rest) ← splitOnce rest 0x24
  let (compat,rest) ← splitOnce rest 0x24
  let (forPlatform,rest) ← splitOnce rest 0x24
  let (lo,rest) ← splitOnce rest 0x24
  let (hi,sym) := (splitOnce rest 0x24).getD (rest,[])
  let forPlatform ← parseU32 forPlatform
  if installName = [] ∨ forPlatform ≠ platform then none
  else
    let version ← if compat = [] then some none else (directiveVersion compat).map some
    let lo ← directiveVersion lo
    let hi ← directiveVersion hi
    some { installName, version, lo, hi, sym := stripLast 0x24 sym }

/-- What the names read so far say; the compatibility version with the directive
that gives it. -/
structure Reading where
  added : List Name := []
  hidden : List Name := []
  installName : Option Name := none
  previous : Option (Name × Option ℕ) := none
  compatibilityVersion : Option (Name × ℕ) := none
  moved : List (Name × Name × Option ℕ) := []

/-- The place of the moved export gets the lesser install name. The linker finds
it in a map of their places. -/
def moveExport (moved : List (Name × Name × Option ℕ)) (m : Name × Name × Option ℕ) :
    List (Name × Name × Option ℕ) :=
  match moved with
  | [] => [m]
  | old::moved =>
    if old.1 = m.1 then (if m.2.1 < old.2.1 then m else old) :: moved
    else old :: moveExport moved m

def obeyPrevious (ld : Reading) (p : PreviousDirective) : Reading :=
  if p.sym = [] then
    if ∀ first ∈ ld.previous, p.installName < first.1 then
      { ld with previous := some (p.installName,p.version) }
    else ld
  else { ld with moved := moveExport ld.moved (p.sym,p.installName,p.version) }

def readPrevious (args : Args) (rest : Name) (ld : Reading) : Reading :=
  match PreviousDirective.parse rest args.platform with
  | none => ld
  | some p =>
    if args.platformMinos < p.lo ∨ p.hi ≤ args.platformMinos then ld else obeyPrevious ld p

/-- The action and argument of `$ld$<action>$os<version>$<arg>`, for the target's version. -/
def actionOf (args : Args) (rest : Name) : Option (Name × Name) := do
  let (action,rest) ← splitOnce rest 0x24
  let rest ← stripPrefix (bytes "os") rest
  let (version,arg) ← splitOnce rest 0x24
  if arg = [] ∨ directiveVersion version ≠ some args.platformMinos then none
  else some (action,arg)

def obeyAction (name : Name) (ld : Reading) (action arg : Name) : Reading :=
  if action = bytes "add" then { ld with added := ld.added ++ [arg] }
  else if action = bytes "hide" then { ld with hidden := arg::ld.hidden }
  else if action = bytes "install_name" then
    if ∀ last ∈ ld.installName, last < arg then { ld with installName := some arg } else ld
  else if action = bytes "compatibility_version" then
    if ∀ first ∈ ld.compatibilityVersion, name < first.1 then
      match directiveVersion arg with
      | some version => { ld with compatibilityVersion := some (name,version) }
      | none => ld
    else ld
  else ld

def readAction (args : Args) (name rest : Name) (ld : Reading) : Reading :=
  match actionOf args rest with
  | none => ld
  | some (action,arg) => obeyAction name ld action arg

def readName (args : Args) (ld : Reading) (name : Name) : Reading :=
  match stripPrefix (bytes "$ld$") name with
  | none => ld
  | some rest =>
    match stripPrefix (bytes "previous$") rest with
    | some rest => readPrevious args rest ld
    | none => readAction args name rest ld

def Reading.ldSymbols (ld : Reading) : LdSymbols where
  added := ld.added
  hidden := ld.hidden
  installName := ld.installName
  previous := ld.previous
  compatibilityVersion := ld.compatibilityVersion.map Prod.snd
  moved := ld.moved

/-- The directives among `names`, which may hold other names. -/
def read (args : Args) (names : List Name) : LdSymbols := (names.foldl (readName args) {}).ldSymbols

def findLdSymbols (tbd : TbdFile) : TbdFile :=
  { tbd with ldSymbols := tbd.exports.filter isDirective }

end MoldMacho.Tapi
