import Cityscape.Ingestion.Repositories
import Cityscape.Tree.Ancestry

/-!
# `Commits`: taking in commits and their files

A file revision is known by its content hash and its path in the repository. A commit shares
the revisions that earlier commits of its repository have brought; only what is new is added to
the tree. A path that the commit already holds under another hash gets a second revision in the
same directory.
-/

namespace Cityscape

/-- The revision of a repository with the given hash and path. -/
def Store.findRevision (s : Store) (repository : NodeId) (hash : String)
    (segments : List String) : Option FileRevision :=
  (s.filesByHash repository hash).find? fun f => s.relativePath f = segments

namespace Edit

/-- Adds a revision at a path below the root of a repository. -/
def addRevision (r : Repository) (commit : NodeId) (hash : String) (segments : List String) :
    Edit FileRevision := do
  match (← store).resolve r.rootDirectory segments (.commit commit) with
  | .error e => fail e
  | .ok found =>
    let f ← match found.existing with
      | .directory d => growPath d.id found.remaining
      | .file other =>
        growPath (other.parent.getD r.rootDirectory) (segments.drop (segments.length - 1))
    let f := { f with hash := some hash }
    change fun s => s.saveFile f
    return f

/-- Puts a file into a commit. -/
def attachFile (r : Repository) (commit : NodeId) (file : FileIdentifier) : Edit Unit := do
  let segments := splitPath file.path
  if segments.isEmpty then fail (.emptyFilePath file.hash)
  else
    let f ← match (← store).findRevision r.id file.hash segments with
      | some f => pure f
      | none => addRevision r commit file.hash segments
    let _ ← mergeEdge .commitFile commit f.id

/-- Puts files into a commit one after another. -/
def attachFiles (r : Repository) (commit : NodeId) : List FileIdentifier → Edit Unit
  | [] => return ()
  | file :: rest => do
    attachFile r commit file
    attachFiles r commit rest

/-- Links a commit to its parent, if one is named. -/
def linkParent (commit : NodeId) (token : String) (parentHash : Option String) : Edit Unit := do
  match (nonEmpty parentHash).filter fun h => h ≠ noParent with
  | none => return ()
  | some hash =>
    let parent ← commitNamed hash token
    let _ ← mergeEdge .commitParent commit parent.id

/-- Puts tags on a commit one after another. -/
def tagCommitAll (commit : NodeId) : List String → Edit Unit
  | [] => return ()
  | name :: rest => do
    let _ ← tagCommit commit name
    tagCommitAll commit rest

/-- Takes in a commit fact. -/
def ingestCommit (f : CommitFact) : Edit Commit := do
  if f.commitHash.isEmpty then fail .emptyCommitHash
  else
    let r ← announcedRepository f.repositoryName f.landscapeToken
    let branch ← branchIn r.id (branchMeant f.branchName)
    let c ← commitNamed f.commitHash f.landscapeToken
    let c ← assignBranch c branch.id f.author f.authorDate f.commitDate
    let _ ← mergeEdge .repositoryCommit r.id c.id
    linkParent c.id f.landscapeToken f.parentCommitHash
    tagCommitAll c.id f.tags
    attachFiles r c.id f.files
    return ((← store).commits.get? c.id).getD c

end Edit

end Cityscape
