import Cityscape.Graph.Edge

/-!
# `Commits`: repositories, branches, commits and tags

Each of these is created when it is first named. A commit may first be named as a parent, and
is then completed when its own fact arrives.
-/

namespace Cityscape

/-- The branch of commits for which none is named. -/
def defaultBranch : String := "main"

/-- The parent hash of a commit without parent. -/
def noParent : String := "NONE"

namespace Edit

/-- The repository with the given name; it is created with a root directory of the same name. -/
def repositoryNamed (name token : String) : Edit Repository := do
  match (← store).findRepository token name with
  | some r => return r
  | none =>
    let root : Directory := { id := ← allocate, name }
    let id ← allocate
    let r ← step fun s => s.mergeRepository { id, token, name, rootDirectory := root.id }
    if r.rootDirectory = root.id then change fun s => s.saveDirectory root
    return r

/-- The repository with the given name, which must exist. -/
def existingRepository (name token : String) : Edit Repository := do
  need ((← store).findRepository token name) (.unknownRepository name)

/-- The branch of a repository with the given name; it is created if it is new. -/
def branchIn (repository : NodeId) (name : String) : Edit Branch := do
  match (← store).findBranch repository name with
  | some b => return b
  | none =>
    let id ← allocate
    let b ← step fun s => s.mergeBranch { id, name, repository }
    let _ ← mergeEdge .repositoryBranch repository b.id
    return b

/-- The branch with the given name of the repository with the given name. -/
def branchNamed (name repository token : String) : Edit Branch := do
  let r ← existingRepository repository token
  branchIn r.id name

/-- The commit with the given hash; it is created without properties if it is new. -/
def commitNamed (hash token : String) : Edit Commit := do
  match (← store).findCommit token hash with
  | some c => return c
  | none =>
    let id ← allocate
    step fun s => s.mergeCommit { id, token, hash }

/-- Puts a commit on a branch, and sets its author and dates as far as they are known. -/
def assignBranch (c : Commit) (branch : NodeId) (author : Option String)
    (authorDate commitDate : Option Instant) : Edit Commit := do
  let c := { c with
    branch := some branch
    author := author.or c.author
    authorDate := authorDate.or c.authorDate
    commitDate := commitDate.or c.commitDate }
  change fun s => s.saveCommit c
  return c

/-- The tag with the given name. An id is handed out even if the tag exists. -/
def tagNamed (name : String) : Edit Tag := do
  let id ← allocate
  step fun s => s.mergeTag { id, name }

/-- Puts a tag on a commit. -/
def tagCommit (commit : NodeId) (name : String) : Edit Tag := do
  let t ← tagNamed name
  let _ ← mergeEdge .commitTag commit t.id
  return t

end Edit

/-! ## Lookups -/

namespace Commit

/-- Commits are ordered by date, those without a date first, and then by hash. -/
def byDate (a b : Commit) : Ordering :=
  (compare a.commitDate b.commitDate).then (compare a.hash b.hash)

/-- Commits are ordered by date, those without a date first, and then by hash downwards. -/
def byRecency (a b : Commit) : Ordering :=
  (compare a.commitDate b.commitDate).then (compare b.hash a.hash)

/-- The first of the least commits in an order. -/
def least? (order : Commit → Commit → Ordering) : List Commit → Option Commit
  | [] => none
  | c :: cs => some (cs.foldl (fun best c => if order c best = .lt then c else best) c)

/-- The last of the greatest commits in an order. -/
def greatest? (order : Commit → Commit → Ordering) : List Commit → Option Commit
  | [] => none
  | c :: cs => some (cs.foldl (fun best c => if order c best = .lt then best else c) c)

end Commit

namespace Store

/-- The commits of a repository, in order of their ids. -/
def commitsOf (s : Store) (r : Repository) : List Commit :=
  r.commits.toList.filterMap s.commits.get?

/-- The name of the branch that a commit is on. -/
def branchName (s : Store) (c : Commit) : Option String :=
  (c.branch.bind s.branches.get?).map Branch.name

/-- Whether static analysis has described every file of a commit. -/
def allFilesHaveData (s : Store) (c : Commit) : Bool :=
  c.fileRevisions.toList.all fun id =>
    match s.files.get? id with
    | some f => f.hasFileData
    | none => false

/-- Whether a commit is on a branch, has files, and all of them are described. -/
def isCompleteOn (s : Store) (branch : NodeId) (c : Commit) : Bool :=
  c.branch = some branch ∧ ¬c.fileRevisions.isEmpty ∧ s.allFilesHaveData c

/-- The oldest complete commit of a branch. -/
def latestComplete (s : Store) (repository token branch : String) : Option Commit := do
  let r ← s.findRepository token repository
  let b ← s.findBranch r.id branch
  Commit.least? Commit.byDate ((s.commitsOf r).filter (s.isCompleteOn b.id))

/-- The newest commit of a repository; of several with one date the one with the least hash. -/
def mostRecentCommit (s : Store) (r : Repository) : Option Commit :=
  Commit.greatest? Commit.byRecency (s.commitsOf r)

end Store

end Cityscape
