import Cityscape.Fact.Basic
import Cityscape.History.Commits
import Cityscape.Tree.Growth

/-!
# `Repositories`: announcing repositories and their applications

A repository fact registers the repository, its current branch, and its applications. An
application that is already known, be it from traces or from another place, moves to the
directory that is announced.
-/

namespace Cityscape

/-- The last part of a repository's full name; slashes at its end do not count. -/
def displayName (name : String) : String :=
  String.ofList (Text.lastPiece '/' (Text.dropTrailing '/' name.toList))

/-- The branch that is meant: the default branch if none is named. -/
def branchMeant (name : String) : String := if name.isEmpty then defaultBranch else name

/-- The text, if there is one and it is not empty. -/
def nonEmpty (o : Option String) : Option String := o.filter fun s => !s.isEmpty

namespace Edit

/-- The repository a fact is about, which must have been announced. -/
def announcedRepository (fullName token : String) : Edit Repository := do
  let name := displayName fullName
  need ((← store).findRepository token name) (.unregistered name token)

/-- Registers an application at a directory of a repository. -/
def registerApplication (token name : String) (root repository : NodeId) : Edit Application := do
  let id ← allocate
  let a ← step fun s => s.mergeApplication
    { id, token, name, rootDirectory := root, repository := some repository }
  if a.rootDirectory = root ∧ a.repository = some repository then return a
  else
    let a := { a with rootDirectory := root, repository := some repository }
    change fun s => s.saveApplication a
    return a

/-- Registers applications at their paths below the root of a repository. -/
def registerApplications (token : String) (r : Repository) : List (String × String) → Edit Unit
  | [] => return ()
  | (name, path) :: rest => do
    let root ← ensureDirectories r.rootDirectory (splitPath path)
    let _ ← registerApplication token name root.id r.id
    registerApplications token r rest

/-- Takes in a repository fact. -/
def ingestRepository (f : RepositoryFact) : Edit RepositoryReply := do
  let name := displayName f.repositoryName
  if name.isEmpty then fail .emptyRepositoryName
  else
    let branch := branchMeant f.branchName
    let r ← repositoryNamed name f.landscapeToken
    let _ ← branchIn r.id branch
    registerApplications f.landscapeToken r f.applicationPaths.toList
    let latest := (← store).latestComplete name f.landscapeToken branch
    return { branchName := branch, commitId := (latest.map Commit.hash).getD "" }

end Edit

end Cityscape
