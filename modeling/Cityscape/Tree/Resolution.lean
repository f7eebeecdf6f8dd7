import Cityscape.Graph.Store
import Cityscape.Text.Segments

/-!
# `Resolution`: how much of a path exists

A path below a root directory names directories and, with its last segment, a file. Resolving
it finds the deepest node on it that exists, and the segments that are left. Directories of one
name are all followed; of several nodes at the greatest depth the one with the least id is
taken.
-/

namespace Cityscape

/-- The non-empty segments of a path. -/
def splitPath (path : String) : List String := Text.segments '/' path

/-- The node at the end of the part of a path that exists. -/
inductive Resolved where
  | directory (d : Directory)
  | file (f : FileRevision)
deriving DecidableEq

namespace Resolved

/-- The id of the node. -/
def id : Resolved → NodeId
  | directory d => d.id
  | file f => f.id

/-- The name of the node. -/
def name : Resolved → String
  | directory d => d.name
  | file f => f.name

end Resolved

/-- A resolved path. -/
structure Resolution where
  existing : Resolved
  /-- The segments below the existing node. -/
  remaining : List String
deriving DecidableEq

/-- Whether the whole path exists. -/
def Resolution.isComplete (r : Resolution) : Bool := r.remaining.isEmpty

/-- The files at which a path may end. -/
inductive Scope where
  /-- Any file. -/
  | everywhere
  /-- The files of one commit. -/
  | commit (id : NodeId)
deriving DecidableEq

namespace Store

/-- The subdirectories of a directory that have a given name. -/
def childrenNamed (s : Store) (d : Directory) (name : String) : List Directory :=
  (d.subdirectories.toList.filterMap s.directories.get?).filter fun c => c.name = name

/-- The files of a directory that have a given name and are allowed. -/
def filesNamed (s : Store) (allowed : NodeId → Bool) (d : Directory) (name : String) :
    List FileRevision :=
  ((d.fileRevisions.toList.filter allowed).filterMap s.files.get?).filter fun f => f.name = name

/-- The nodes below a directory that lie on a path, each with the number of segments that lead
to it. -/
def nodesOnPath (s : Store) (allowed : NodeId → Bool) (d : Directory) :
    List String → List (Nat × Resolved)
  | [] => []
  | [name] => (s.filesNamed allowed d name).map fun f => (1, .file f)
  | name :: rest =>
    (s.childrenNamed d name).flatMap fun c =>
      (1, .directory c) :: (s.nodesOnPath allowed c rest).map fun (n, r) => (n + 1, r)

/-- The deeper of two nodes; at equal depth the one with the smaller id. -/
def deeper (best node : Nat × Resolved) : Nat × Resolved :=
  if best.1 < node.1 ∨ (best.1 = node.1 ∧ node.2.id.val < best.2.id.val) then node else best

/-- The files at which a path may end, unless the scope is a commit that does not exist. -/
def allowedIn (s : Store) : Scope → Except Fault (NodeId → Bool)
  | .everywhere => .ok fun _ => true
  | .commit id =>
    match s.commits.get? id with
    | some c => .ok fun f => c.fileRevisions.contains f
    | none => .error (.unknownCommitId id)

/-- The part of a path below a root that exists. -/
def resolve (s : Store) (root : NodeId) (segments : List String) (scope : Scope) :
    Except Fault Resolution := do
  if segments.isEmpty then .error .emptyPath
  match s.directories.get? root with
  | none => .error (.missingRoot root)
  | some d =>
    let allowed ← s.allowedIn scope
    let (depth, node) := (s.nodesOnPath allowed d segments).foldl deeper (0, .directory d)
    return ⟨node, segments.drop depth⟩

end Store

end Cityscape
