import Cityscape.Config.Yaml

/-!
# `Config`: where the service listens and where it keeps its store

A setting comes from the environment, else from the file, else it has its default. A file that
cannot be read or that does not fit in some place gives no setting at all; unknown keys do not
matter.
-/

namespace Cityscape

/-- The settings of the service. -/
structure Config where
  serverPort : UInt16 := 8080
  /-- The file of the store; without one the store is kept in memory only. -/
  snapshotPath : Option String := none
deriving DecidableEq

/-- The variables that override a file. -/
structure Environment where
  serverPort : Option String := none
  snapshotPath : Option String := none

/-! ## Port numbers -/

/-- The number written in digits of a base, if it is a port number. -/
def portOfDigits? (base : Nat) (cs : List Char) : Option UInt16 := do
  if cs.isEmpty then none
  let n ← cs.foldlM (fun n c => do
    let d ← Text.hexDigit? c
    if d < base then some (base * n + d) else none) 0
  if n < UInt16.size then some (.ofNat n) else none

/-- The text without a plus sign at its start. -/
def dropPlus : List Char → List Char
  | '+' :: cs => cs
  | cs => cs

/-- The port number in a variable: decimal digits, perhaps behind a plus sign. -/
def portOfText? (s : String) : Option UInt16 := portOfDigits? 10 (dropPlus s.toList)

/-- The port number in a plain scalar. It may be written in base 16, 8 or 2 behind `0x`, `0o` or
`0b`; a decimal number has no zeros before it. -/
def portOfScalar? (s : String) : Option UInt16 :=
  match dropPlus s.toList with
  | '0' :: 'x' :: cs => portOfDigits? 16 cs
  | '0' :: 'o' :: cs => portOfDigits? 8 cs
  | '0' :: 'b' :: cs => portOfDigits? 2 cs
  | '0' :: _ :: _ => none
  | cs => portOfDigits? 10 cs

/-! ## Files -/

/-- The entries of a section; a section may be left empty. -/
def sectionEntries? : Yaml → Option (List (String × Yaml))
  | .mapping entries => some entries
  | .scalar "" true => some []
  | _ => none

/-- The value of a key that may be given once; none of it if it is not given. -/
def entry? (key : String) (entries : List (String × Yaml)) : Option (Option Yaml) :=
  match entries.filter fun e => e.1 = key with
  | [] => some none
  | [(_, value)] => some (some value)
  | _ => none

/-- A setting of a section, or `absent` where the file does not give it. -/
def setting? {α : Type} (file : List (String × Yaml)) (sectionName key : String) (absent : α)
    (read : Yaml → Option α) : Option α := do
  match ← entry? sectionName file with
  | none => return absent
  | some inside =>
    match ← entry? key (← sectionEntries? inside) with
    | none => return absent
    | some value => read value

/-- The port number that a value stands for. -/
def portOfYaml? : Yaml → Option UInt16
  | .scalar text true => portOfScalar? text
  | _ => none

/-- The ways to write that there is no value. -/
def nullWords : List String := ["", "~", "null", "Null", "NULL"]

/-- The path that a value stands for; a null stands for none. -/
def pathOfYaml? : Yaml → Option (Option String)
  | .scalar text plain => if plain && nullWords.contains text then some none else some (some text)
  | _ => none

namespace Config

/-- The settings in a file, if all of it fits. -/
def ofFile? (text : String) : Option Config := do
  let .mapping file ← Yaml.ofText? text | none
  let default : Config := {}
  return {
    serverPort := ← setting? file "server" "port" default.serverPort portOfYaml?
    snapshotPath := ← setting? file "store" "snapshot_path" default.snapshotPath pathOfYaml? }

/-- The settings of a file, if there is one, with those of the environment over them. -/
def load (file : Option String) (env : Environment) : Config :=
  let found := (file.bind ofFile?).getD {}
  { serverPort := (env.serverPort.bind portOfText?).getD found.serverPort
    snapshotPath := (env.snapshotPath.filter fun p => !p.isEmpty).or found.snapshotPath }

end Config

end Cityscape
