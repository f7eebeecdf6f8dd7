import Cityscape.Config.Basic
import Cityscape.Graph.Snapshot
import Cityscape.Json.Printer

/-!
# `Main`: the command line

`stats` prints how many nodes of each kind a snapshot holds. The snapshot is the one given by
`--snapshot`, else the one that the settings name.
-/

namespace Cityscape.CommandLine

/-- What the command line asks for. -/
structure Options where
  command : Option String := none
  configFile : Option String := none
  snapshot : Option String := none

/-- Reads the arguments, and tells of the first one that does not fit. -/
def Options.ofArguments (o : Options) : List String → Except String Options
  | [] => .ok o
  | "--config" :: file :: rest => { o with configFile := some file }.ofArguments rest
  | "-c" :: file :: rest => { o with configFile := some file }.ofArguments rest
  | "--snapshot" :: file :: rest => { o with snapshot := some file }.ofArguments rest
  | argument :: rest =>
    if o.command.isNone ∧ ¬argument.startsWith "-" then
      { o with command := some argument }.ofArguments rest
    else .error ("unexpected argument: " ++ argument)

/-- An object of counts over several lines. -/
def statsText (s : StoreStats) : String :=
  match s.json with
  | .obj members =>
    "\x7b\n" ++ ",\n".intercalate (members.map fun m => "  " ++ Json.quote m.1 ++ ": " ++ m.2.render)
      ++ "\n\x7d"
  | j => j.render

/-- The text of a file, if there is such a file. -/
def readText? (file : String) : IO (Option String) := do
  try
    return some (← IO.FS.readFile file)
  catch
    | .noFileOrDirectory .. => return none
    | e => throw e

/-- The settings of a file under those of the environment. A file that cannot be read gives no
settings. -/
def loadConfig (file : Option String) : IO Config := do
  let text ← try readText? (file.getD "config.yaml") catch _ => pure none
  return Config.load text
    { serverPort := ← IO.getEnv "SERVER_PORT"
      snapshotPath := ← IO.getEnv "STORE_SNAPSHOT_PATH" }

/-- Prints the counts of a snapshot file. -/
def printStats (o : Options) : IO UInt32 := do
  let config ← loadConfig o.configFile
  match o.snapshot.or config.snapshotPath with
  | none =>
    IO.eprintln "no snapshot configured; pass --snapshot or set STORE_SNAPSHOT_PATH"
    return 1
  | some file =>
    match (← readText? file).map Snapshot.ofText? with
    | some none =>
      IO.eprintln ("Failed to parse snapshot " ++ file)
      return 1
    | some (some snapshot) =>
      IO.println (statsText (Store.ofSnapshot snapshot).stats)
      return 0
    | none =>
      IO.println (statsText (∅ : Store).stats)
      return 0

end Cityscape.CommandLine

open Cityscape.CommandLine in
/-- Runs the command that the arguments name. -/
def main (arguments : List String) : IO UInt32 := do
  match Options.ofArguments {} arguments with
  | .error message =>
    IO.eprintln message
    return 2
  | .ok o =>
    if o.command = some "stats" then printStats o
    else
      IO.eprintln "usage: stats [--config FILE] [--snapshot FILE]"
      return 2
