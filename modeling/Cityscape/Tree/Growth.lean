import Cityscape.Graph.Edge
import Cityscape.Tree.Resolution

/-!
# `Growth`: adding to the file tree

Only what is missing of a path is added: one directory for each missing segment, and a file for
the last one. So every directory path has one directory, however often it is asked for.
-/

namespace Cityscape.Edit

/-- Adds an empty directory below another one. -/
def addDirectory (parent : NodeId) (name : String) : Edit Directory := do
  let id ← allocate
  let d : Directory := { id, name }
  change fun s => s.saveDirectory d
  let _ ← mergeEdge .directorySubdirectory parent id
  return { d with parent := some parent }

/-- Adds an empty file below a directory. -/
def addFile (parent : NodeId) (name : String) : Edit FileRevision := do
  let id ← allocate
  let f : FileRevision := { id, name }
  change fun s => s.saveFile f
  let _ ← mergeEdge .directoryFile parent id
  return { f with parent := some parent }

/-- Adds the missing segments of a path below a directory: directories, and last a file. -/
def growPath (start : NodeId) : List String → Edit FileRevision
  | [] => fail .nothingToCreate
  | [name] => addFile start name
  | name :: rest => do
    let d ← addDirectory start name
    growPath d.id rest

/-- The file at the end of a path; what is missing of the path is added. -/
def resolveOrGrow (root : NodeId) (segments : List String) (scope : Scope) :
    Edit FileRevision := do
  match (← store).resolve root segments scope with
  | .error e => fail e
  | .ok r =>
    if r.isComplete then
      match r.existing with
      | .file f => return f
      | .directory d => fail (.endsAtDirectory d.name)
    else growPath r.existing.id r.remaining

/-- The directory at the end of a path of directories; the first one of each name is followed,
and what is missing is added. -/
def growDirectories (current : Directory) : List String → Edit Directory
  | [] => return current
  | name :: rest => do
    match ((← store).childrenNamed current name).head? with
    | some child => growDirectories child rest
    | none => growDirectories (← addDirectory current.id name) rest

/-- The directory at the end of a path below a root. -/
def ensureDirectories (root : NodeId) (segments : List String) : Edit Directory := do
  let d ← need ((← store).directories.get? root) (.missingRoot root)
  growDirectories d segments

end Cityscape.Edit
