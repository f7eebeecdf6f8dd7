import Cityscape.Fault
import Cityscape.Graph.Node

/-!
# `Store`: the structure graph

A store holds one table per kind of node, each sorted by id, and the next id to hand out. Nodes
with a key (repositories, branches, commits, tags, applications, traces, spans) are merged: the
stored node with that key stays, and a new one is inserted only if there is none. All other
nodes are saved. Saving replaces the properties of a node but only ever extends its edge sets,
so a copy read earlier never takes away an edge that was added in between.
-/

namespace Cityscape

/-- The whole graph. -/
structure Store where
  nextId : UInt64 := 1
  repositories : Sorted Repository.id := ∅
  branches : Sorted Branch.id := ∅
  commits : Sorted Commit.id := ∅
  tags : Sorted Tag.id := ∅
  directories : Sorted Directory.id := ∅
  files : Sorted FileRevision.id := ∅
  classes : Sorted ClassNode.id := ∅
  functions : Sorted FunctionNode.id := ∅
  applications : Sorted Application.id := ∅
  traces : Sorted Trace.id := ∅
  spans : Sorted Span.id := ∅
deriving DecidableEq

namespace Store

/-- The store without nodes. -/
def empty : Store := {}

instance : EmptyCollection Store := ⟨empty⟩

/-- Hands out an id. After the last of the 64-bit numbers it starts again with zero. -/
def allocate (s : Store) : NodeId × Store := (⟨s.nextId⟩, { s with nextId := s.nextId + 1 })

/-! ## Lookups

Nodes with a key are looked up by it; the one with the least id is found. -/

/-- The repository of a landscape with the given name. -/
def findRepository (s : Store) (token name : String) : Option Repository :=
  s.repositories.toList.find? fun r => r.token = token ∧ r.name = name

/-- The repositories of a landscape, ordered by name. -/
def repositoriesOf (s : Store) (token : String) : List Repository :=
  (s.repositories.toList.filter fun r => r.token = token).mergeSort
    fun a b => (compare a.name b.name).isLE

/-- The repository that contains a commit. -/
def repositoryOfCommit (s : Store) (commit : NodeId) : Option Repository :=
  s.repositories.toList.find? fun r => r.commits.contains commit

/-- The branch of a repository with the given name. -/
def findBranch (s : Store) (repository : NodeId) (name : String) : Option Branch :=
  s.branches.toList.find? fun b => b.repository = repository ∧ b.name = name

/-- The commit of a landscape with the given hash. -/
def findCommit (s : Store) (token hash : String) : Option Commit :=
  s.commits.toList.find? fun c => c.token = token ∧ c.hash = hash

/-- The tag with the given name. -/
def findTag (s : Store) (name : String) : Option Tag :=
  s.tags.toList.find? fun t => t.name = name

/-- The application of a landscape with the given name. -/
def findApplication (s : Store) (token name : String) : Option Application :=
  s.applications.toList.find? fun a => a.token = token ∧ a.name = name

/-- The applications of a landscape, in order of their ids. -/
def applicationsOf (s : Store) (token : String) : List Application :=
  s.applications.toList.filter fun a => a.token = token

/-- The trace of a landscape with the given trace id. -/
def findTrace (s : Store) (token traceId : String) : Option Trace :=
  s.traces.toList.find? fun t => t.token = token ∧ t.traceId = traceId

/-- The traces of a landscape, in order of their ids. -/
def tracesOf (s : Store) (token : String) : List Trace :=
  s.traces.toList.filter fun t => t.token = token

/-- The span of a landscape with the given span id. -/
def findSpan (s : Store) (token spanId : String) : Option Span :=
  s.spans.toList.find? fun p => p.token = token ∧ p.spanId = spanId

/-- The ids of the file revisions in the commits of a repository. -/
def fileIdsOf (s : Store) (repository : NodeId) : SortedSet NodeId :=
  match s.repositories.get? repository with
  | none => ∅
  | some r =>
    Sorted.ofList <|
      (r.commits.toList.filterMap s.commits.get?).flatMap fun c => c.fileRevisions.toList

/-- The file revisions with the given content hash in the commits of a repository, in order of
their ids. -/
def filesByHash (s : Store) (repository : NodeId) (hash : String) : List FileRevision :=
  ((s.fileIdsOf repository).toList.filterMap s.files.get?).filter fun f => f.hash = some hash

/-- The ids of the functions that spans of a landscape call. -/
def tracedFunctionIds (s : Store) (token : String) : SortedSet NodeId :=
  Sorted.ofList <| (s.spans.toList.filter fun p => p.token = token).filterMap Span.function

/-- A function with the given qualified name that a span of the landscape calls. -/
def findTracedFunction (s : Store) (token fqn : String) : Option FunctionNode :=
  ((s.tracedFunctionIds token).toList.filterMap s.functions.get?).find? fun f => f.fqn = some fqn

/-! ## Merging nodes with a key -/

/-- The stored repository with this token and name; the given one is inserted if there is none. -/
def mergeRepository (s : Store) (r : Repository) : Repository × Store :=
  match s.findRepository r.token r.name with
  | some found => (found, s)
  | none => (r, { s with repositories := s.repositories.insert r })

/-- The stored branch with this repository and name; the given one is inserted if there is
none. -/
def mergeBranch (s : Store) (b : Branch) : Branch × Store :=
  match s.findBranch b.repository b.name with
  | some found => (found, s)
  | none => (b, { s with branches := s.branches.insert b })

/-- The stored commit with this token and hash; the given one is inserted if there is none. -/
def mergeCommit (s : Store) (c : Commit) : Commit × Store :=
  match s.findCommit c.token c.hash with
  | some found => (found, s)
  | none => (c, { s with commits := s.commits.insert c })

/-- The stored tag with this name; the given one is inserted if there is none. -/
def mergeTag (s : Store) (t : Tag) : Tag × Store :=
  match s.findTag t.name with
  | some found => (found, s)
  | none => (t, { s with tags := s.tags.insert t })

/-- The stored application with this token and name; the given one is inserted if there is
none. -/
def mergeApplication (s : Store) (a : Application) : Application × Store :=
  match s.findApplication a.token a.name with
  | some found => (found, s)
  | none => (a, { s with applications := s.applications.insert a })

/-- The stored trace with this token and trace id; the given one is inserted if there is none. -/
def mergeTrace (s : Store) (t : Trace) : Trace × Store :=
  match s.findTrace t.token t.traceId with
  | some found => (found, s)
  | none => (t, { s with traces := s.traces.insert t })

/-- The stored span with this token and span id; the given one is inserted if there is none. -/
def mergeSpan (s : Store) (p : Span) : Span × Store :=
  match s.findSpan p.token p.spanId with
  | some found => (found, s)
  | none => (p, { s with spans := s.spans.insert p })

/-! ## Saving nodes -/

/-- Saves a commit; its stored edges stay. -/
def saveCommit (s : Store) (c : Commit) : Store :=
  let next := match s.commits.get? c.id with
    | none => c
    | some old => { c with
        parents := c.parents.union old.parents
        fileRevisions := c.fileRevisions.union old.fileRevisions
        tags := c.tags.union old.tags }
  { s with commits := s.commits.insert next }

/-- Saves a directory; its stored edges stay, and so does a parent that the new value lacks. -/
def saveDirectory (s : Store) (d : Directory) : Store :=
  let next := match s.directories.get? d.id with
    | none => d
    | some old => { d with
        subdirectories := d.subdirectories.union old.subdirectories
        fileRevisions := d.fileRevisions.union old.fileRevisions
        parent := d.parent.or old.parent }
  { s with directories := s.directories.insert next }

/-- Saves a file revision; its stored edges and imports stay, and so does a parent that the new
value lacks. -/
def saveFile (s : Store) (f : FileRevision) : Store :=
  let next := match s.files.get? f.id with
    | none => f
    | some old => { f with
        importNames := f.importNames.union old.importNames
        classes := f.classes.union old.classes
        functions := f.functions.union old.functions
        parent := f.parent.or old.parent }
  { s with files := s.files.insert next }

/-- Saves a class; its stored edges and fields stay. -/
def saveClass (s : Store) (c : ClassNode) : Store :=
  let next := match s.classes.get? c.id with
    | none => c
    | some old => { c with
        functions := c.functions.union old.functions
        fields := c.fields.union old.fields
        innerClasses := c.innerClasses.union old.innerClasses
        superClasses := c.superClasses.union old.superClasses }
  { s with classes := s.classes.insert next }

/-- Saves a function. -/
def saveFunction (s : Store) (f : FunctionNode) : Store :=
  { s with functions := s.functions.insert f }

/-- Saves an application. -/
def saveApplication (s : Store) (a : Application) : Store :=
  { s with applications := s.applications.insert a }

/-- Saves a trace; its stored spans stay. -/
def saveTrace (s : Store) (t : Trace) : Store :=
  let next := match s.traces.get? t.id with
    | none => t
    | some old => { t with spans := t.spans.union old.spans }
  { s with traces := s.traces.insert next }

/-- Saves a span. -/
def saveSpan (s : Store) (p : Span) : Store :=
  { s with spans := s.spans.insert p }

end Store

/-! ## Editing -/

/-- What comes of an edit: its value or fault, the store after it, and how many ids it has handed
out on the way. -/
structure Outcome (α : Type) where
  result : Except Fault α
  store : Store
  issued : Nat := 0

/-- A change to the store that yields a value or fails. What was changed before a failure stays
changed. -/
def Edit (α : Type) := Store → Outcome α

namespace Edit

/-- One edit after another; after a fault nothing more is done. -/
def andThen {α β : Type} (e : Edit α) (f : α → Edit β) : Edit β := fun s =>
  let o := e s
  match o.result with
  | .error fault => { result := .error fault, store := o.store, issued := o.issued }
  | .ok a =>
    let p := f a o.store
    { p with issued := o.issued + p.issued }

/-- One edit, and another one if it fails. -/
def orElse {α : Type} (e : Edit α) (f : Fault → Edit α) : Edit α := fun s =>
  let o := e s
  match o.result with
  | .ok _ => o
  | .error fault =>
    let p := f fault o.store
    { p with issued := o.issued + p.issued }

instance : Monad Edit where
  pure a := fun s => { result := .ok a, store := s }
  bind := andThen

instance : MonadExcept Fault Edit where
  throw fault := fun s => { result := .error fault, store := s }
  tryCatch := orElse

/-- The store as it is now. -/
def store : Edit Store := fun s => { result := .ok s, store := s }

/-- A change that cannot fail. -/
def change (f : Store → Store) : Edit Unit := fun s => { result := .ok (), store := f s }

/-- A change that yields a value and cannot fail. -/
def step {α : Type} (f : Store → α × Store) : Edit α := fun s =>
  let (a, next) := f s
  { result := .ok a, store := next }

/-- Hands out an id. -/
def allocate : Edit NodeId := fun s =>
  let (id, next) := s.allocate
  { result := .ok id, store := next, issued := 1 }

/-- Fails without changing anything. -/
def fail {α : Type} (f : Fault) : Edit α := throw f

/-- A value, or the fault that it does not exist. -/
def need {α : Type} (o : Option α) (f : Fault) : Edit α :=
  match o with
  | some a => pure a
  | none => fail f

/-- Runs an edit: its outcome and the store after it. -/
def runOn {α : Type} (e : Edit α) (s : Store) : Except Fault α × Store :=
  let o := e s
  (o.result, o.store)

end Edit

end Cityscape
