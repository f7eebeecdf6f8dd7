import Cityscape.Graph.Codec
import Cityscape.Graph.Store
import Cityscape.Json.Parser
import Cityscape.Json.Printer

/-!
# `Snapshot`: the whole graph as a value

A snapshot lists the nodes of every kind and the next id. Taken from a store it is sorted; read
from elsewhere it may be in any order and repeat an id, of which the last occurrence counts. A
store made from a snapshot hands out ids above all those it contains.
-/

namespace Cityscape

/-- The contents of a store as lists. -/
structure Snapshot where
  nextId : UInt64
  repositories : List Repository := []
  branches : List Branch := []
  commits : List Commit := []
  tags : List Tag := []
  directories : List Directory := []
  files : List FileRevision := []
  classes : List ClassNode := []
  functions : List FunctionNode := []
  applications : List Application := []
  traces : List Trace := []
  spans : List Span := []
deriving DecidableEq

namespace Store

/-- The contents of the store. -/
def snapshot (s : Store) : Snapshot where
  nextId := s.nextId
  repositories := s.repositories.toList
  branches := s.branches.toList
  commits := s.commits.toList
  tags := s.tags.toList
  directories := s.directories.toList
  files := s.files.toList
  classes := s.classes.toList
  functions := s.functions.toList
  applications := s.applications.toList
  traces := s.traces.toList
  spans := s.spans.toList

/-- The number of the last node of a table, zero if there is none. -/
def lastId {α : Type} {key : α → NodeId} (t : Sorted key) : UInt64 :=
  match t.last? with
  | some a => (key a).val
  | none => 0

/-- The greatest number of a node. -/
def highestId (s : Store) : UInt64 :=
  [lastId s.repositories, lastId s.branches, lastId s.commits, lastId s.tags,
    lastId s.directories, lastId s.files, lastId s.classes, lastId s.functions,
    lastId s.applications, lastId s.traces, lastId s.spans].foldl max 0

/-- The store with the contents of a snapshot. -/
def ofSnapshot (n : Snapshot) : Store :=
  let s : Store := {
    nextId := max n.nextId 1
    repositories := Sorted.ofList n.repositories
    branches := Sorted.ofList n.branches
    commits := Sorted.ofList n.commits
    tags := Sorted.ofList n.tags
    directories := Sorted.ofList n.directories
    files := Sorted.ofList n.files
    classes := Sorted.ofList n.classes
    functions := Sorted.ofList n.functions
    applications := Sorted.ofList n.applications
    traces := Sorted.ofList n.traces
    spans := Sorted.ofList n.spans }
  { s with nextId := max s.nextId (s.highestId + 1) }

end Store

namespace Snapshot

/-- The fields of a snapshot. -/
def record :=
  Record.field (.required "next_id" Codec.uint64) <|
  .field (.withDefault "repositories" (.list Repository.codec) []) <|
  .field (.withDefault "branches" (.list Branch.codec) []) <|
  .field (.withDefault "commits" (.list Commit.codec) []) <|
  .field (.withDefault "tags" (.list Tag.codec) []) <|
  .field (.withDefault "directories" (.list Directory.codec) []) <|
  .field (.withDefault "files" (.list FileRevision.codec) []) <|
  .field (.withDefault "classes" (.list ClassNode.codec) []) <|
  .field (.withDefault "functions" (.list FunctionNode.codec) []) <|
  .field (.withDefault "applications" (.list Application.codec) []) <|
  .field (.withDefault "traces" (.list Trace.codec) []) <|
  .field (.withDefault "spans" (.list Span.codec) []) .done

/-- The JSON form of a snapshot. -/
def codec : Codec Snapshot :=
  record.codec.iso
    (fun (nextId, repositories, branches, commits, tags, directories, files, classes, functions,
        applications, traces, spans, ()) =>
      { nextId, repositories, branches, commits, tags, directories, files, classes, functions,
        applications, traces, spans })
    (fun n => (n.nextId, n.repositories, n.branches, n.commits, n.tags, n.directories, n.files,
      n.classes, n.functions, n.applications, n.traces, n.spans, ()))

/-- The text that is kept in a file. -/
def text (n : Snapshot) : String := (codec.encode n).render

/-- The snapshot that a text holds; nothing may follow it. -/
def ofText? (s : String) : Option Snapshot :=
  let d := Json.Document.ofText s
  match codec.decode d.value with
  | .ok n => if d.complete then some n else none
  | .error _ => none

end Snapshot

/-- How many nodes of each kind there are. -/
structure StoreStats where
  repositories : Nat
  branches : Nat
  commits : Nat
  tags : Nat
  directories : Nat
  files : Nat
  classes : Nat
  functions : Nat
  applications : Nat
  traces : Nat
  spans : Nat

namespace Store

/-- Counts the nodes. -/
def stats (s : Store) : StoreStats where
  repositories := s.repositories.size
  branches := s.branches.size
  commits := s.commits.size
  tags := s.tags.size
  directories := s.directories.size
  files := s.files.size
  classes := s.classes.size
  functions := s.functions.size
  applications := s.applications.size
  traces := s.traces.size
  spans := s.spans.size

/-- The store after its contents have been written to a file and read back. -/
def reopened? (s : Store) : Option Store :=
  (Snapshot.ofText? s.snapshot.text).map ofSnapshot

end Store

/-- The JSON form of the counts. -/
def StoreStats.json (s : StoreStats) : Json :=
  .obj [("repositories", .int s.repositories), ("branches", .int s.branches),
    ("commits", .int s.commits), ("tags", .int s.tags), ("directories", .int s.directories),
    ("files", .int s.files), ("classes", .int s.classes), ("functions", .int s.functions),
    ("applications", .int s.applications), ("traces", .int s.traces), ("spans", .int s.spans)]

end Cityscape
