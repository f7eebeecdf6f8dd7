import Cityscape.Graph.Codec
import Cityscape.History.BranchView
import Cityscape.Landscape.Projection
import Cityscape.Query.CodeMetrics
import Cityscape.Query.Selector

/-!
# `Answer`: what can be asked of a store

Queries read the store and change nothing. They ask for the landscape of some commits, the
branches behind an application, its metrics at a commit, the times of the traces, and the latest
complete commit of a branch.
-/

namespace Cityscape

/-- The branches of the repository that an application lives in. -/
structure CommitTree where
  name : String
  branches : List BranchView
deriving DecidableEq

/-- The start of a trace and the number of its spans. -/
structure TraceTime where
  epochNano : Int64
  spanCount : UInt64
deriving DecidableEq

/-- A commit in short. -/
structure CommitSummary where
  hash : String
  repositoryName : String
  branchName : String
  author : Option String
  commitDate : Option Instant
  fileCount : UInt64
  tags : List String
deriving DecidableEq

namespace Store

/-- The commits with the given hashes, hydrated; the first one that is not known is a fault. -/
def loadCommits (s : Store) (token : String) : List String → Except Fault (List HydratedCommit)
  | [] => .ok []
  | hash :: rest => do
    let h ← s.loadCommit hash token
    let hs ← s.loadCommits token rest
    return h :: hs

/-- The commits that a selector means, hydrated. -/
def selected (s : Store) (token : String) : Selector → Except Fault (List HydratedCommit)
  | .latest => .ok (s.loadLatest token)
  | selector => s.loadCommits token selector.hashes

/-- The landscape of the selected commits. -/
def structureOf (s : Store) (token : String) (selector : Selector) : Except Fault Landscape := do
  let commits ← s.selected token selector
  let l := s.project token commits
  if l.isEmpty then .error (.noStructure token) else return l

/-- The application with the given name, which must exist. -/
def application (s : Store) (token name : String) : Except Fault Application :=
  match s.findApplication token name with
  | some a => .ok a
  | none => .error (.unknownApplication name)

/-- The record of a commit for the history of a repository. Parents that do not exist are left
out. -/
def commitRecord (s : Store) (c : Commit) : CommitRecord where
  hash := c.hash
  commitDate := c.commitDate
  branch := s.branchName c
  parents := (c.parents.toList.filterMap s.commits.get?).map Commit.hash

/-- The branches of the parents that are not among the given commits, by hash. -/
def outsideBranches (s : Store) (commits : List Commit) : SortedMap String String :=
  let ids := commits.map Commit.id
  let outside := commits.flatMap fun c =>
    (c.parents.toList.filter fun id => id ∉ ids).filterMap s.commits.get?
  Sorted.ofList <| outside.filterMap fun p => (s.branchName p).map fun b => (p.hash, b)

/-- The branches of the repository behind an application; an application that only traces have
shown has none. -/
def commitTree (s : Store) (token name : String) : Except Fault CommitTree := do
  let a ← s.application token name
  match a.repository with
  | none => return { name := a.name, branches := [] }
  | some id =>
    match s.repositories.get? id with
    | none => .error (.unknownRepositoryId id)
    | some r =>
      let commits := s.commitsOf r
      return {
        name := a.name
        branches := BranchView.ofHistory (commits.map s.commitRecord) (s.outsideBranches commits) }

/-- The metrics of an application at a commit. -/
def metricsOf (s : Store) (token name hash : String) : Except Fault CodeMetrics := do
  let a ← s.application token name
  let h ← s.loadCommit hash token
  return CodeMetrics.ofCommit s a.rootDirectory h

/-- The order of trace times: by start, then by the number of spans. -/
def timeOrder (a b : TraceTime) : Ordering :=
  (compare a.epochNano b.epochNano).then (compare a.spanCount b.spanCount)

/-- The times of the traces of a landscape, oldest first. Without traces it is the present, with
no spans. -/
def timestamps (s : Store) (now : Int64) (token : String) : List TraceTime :=
  match s.tracesOf token with
  | [] => [⟨now, 0⟩]
  | traces =>
    (traces.map fun t => ⟨t.startTime, .ofNat t.spans.size⟩).mergeSort
      fun a b => (timeOrder a b).isLE

/-- The summary of a commit; its tags are in alphabetical order. -/
def summary (s : Store) (repository branch : String) (c : Commit) : CommitSummary where
  hash := c.hash
  repositoryName := repository
  branchName := branch
  author := c.author
  commitDate := c.commitDate
  fileCount := .ofNat c.fileRevisions.size
  tags := ((c.tags.toList.filterMap s.tags.get?).map Tag.name).mergeSort
    fun a b => (compare a b).isLE

/-- The latest complete commit of a branch. -/
def latestCommit (s : Store) (token repository branch : String) : Except Fault CommitSummary :=
  match s.latestComplete repository token branch with
  | some c => .ok (s.summary repository branch c)
  | none => .error (.noCompleteCommit repository branch)

end Store

/-! ## JSON forms -/

/-- The JSON form of a commit tree. -/
def CommitTree.codec : Codec CommitTree :=
  (Record.field (.required "name" .text) <|
    .field (.required "branches" (.list BranchView.codec)) .done).codec.iso
    (fun (name, branches, ()) => { name, branches })
    (fun t => (t.name, t.branches, ()))

/-- The JSON form of a trace time. -/
def TraceTime.codec : Codec TraceTime :=
  (Record.field (.required "epochNano" .int64) <|
    .field (.required "spanCount" .uint64) .done).codec.iso
    (fun (epochNano, spanCount, ()) => { epochNano, spanCount })
    (fun t => (t.epochNano, t.spanCount, ()))

/-- The JSON form of a commit summary. -/
def CommitSummary.codec : Codec CommitSummary :=
  (Record.field (.required "hash" .text) <|
    .field (.required "repositoryName" .text) <|
    .field (.required "branchName" .text) <|
    .field (.nullable "author" .text) <|
    .field (.nullable "commitDate" .instant) <|
    .field (.required "fileCount" .uint64) <|
    .field (.required "tags" (.list .text)) .done).codec.iso
    (fun (hash, repositoryName, branchName, author, commitDate, fileCount, tags, ()) =>
      { hash, repositoryName, branchName, author, commitDate, fileCount, tags })
    (fun c => (c.hash, c.repositoryName, c.branchName, c.author, c.commitDate, c.fileCount, c.tags,
      ()))

end Cityscape
