import Cityscape.Graph.Store

/-!
# `Edge`: typed edges between nodes

An edge of a relation goes from the containing or referring node to the other one. Both ends
must exist. The two relations of the file tree also set the parent of the contained node, which
may have one parent only. All checks come before the first change, so an edge that is refused
leaves no trace.
-/

namespace Cityscape

/-- The relations of the graph. -/
inductive Relation where
  | repositoryCommit | repositoryBranch
  | commitParent | commitFile | commitTag
  | directorySubdirectory | directoryFile
  | fileClass | fileFunction
  | classFunction | classInnerClass | classSuperClass
  | traceSpan
deriving DecidableEq

/-- One of the tables of a store. -/
structure NodeTable {α : Type} (key : α → NodeId) where
  /-- What stands in the table. -/
  kind : NodeKind
  get : Store → Sorted key
  put : Store → Sorted key → Store
  put_get : ∀ s, put s (get s) = s := by intro s; rfl

namespace NodeTable

def repositories : NodeTable Repository.id where
  kind := .repository
  get := Store.repositories
  put s t := { s with repositories := t }

def branches : NodeTable Branch.id where
  kind := .branch
  get := Store.branches
  put s t := { s with branches := t }

def commits : NodeTable Commit.id where
  kind := .commit
  get := Store.commits
  put s t := { s with commits := t }

def tags : NodeTable Tag.id where
  kind := .tag
  get := Store.tags
  put s t := { s with tags := t }

def directories : NodeTable Directory.id where
  kind := .directory
  get := Store.directories
  put s t := { s with directories := t }

def files : NodeTable FileRevision.id where
  kind := .fileRevision
  get := Store.files
  put s t := { s with files := t }

def classes : NodeTable ClassNode.id where
  kind := .classNode
  get := Store.classes
  put s t := { s with classes := t }

def functions : NodeTable FunctionNode.id where
  kind := .function
  get := Store.functions
  put s t := { s with functions := t }

def traces : NodeTable Trace.id where
  kind := .trace
  get := Store.traces
  put s t := { s with traces := t }

def spans : NodeTable Span.id where
  kind := .span
  get := Store.spans
  put s t := { s with spans := t }

end NodeTable

namespace Edit

/-- The node of a table that an edge needs. -/
def require {α : Type} {key : α → NodeId} (t : NodeTable key) (id : NodeId) : Edit α := do
  need ((t.get (← store)).get? id) (.edge (.missing t.kind id))

/-- Makes sure that a node does not lie in a directory other than the given one. -/
def requireParent (kind : NodeKind) (id : NodeId) (parent : Option NodeId)
    (directory : NodeId) : Edit Unit :=
  match parent with
  | some p => if p = directory then pure () else fail (.edge (.contained kind id p))
  | none => pure ()

/-- Adds `target` to an edge set of node `source`, and tells whether it was new. -/
def link {α : Type} {key : α → NodeId} (t : NodeTable key) (source target : NodeId)
    (edges : α → SortedSet NodeId) (withEdges : α → SortedSet NodeId → α) : Edit Bool := do
  let a ← require t source
  if (edges a).contains target then return false
  else
    change fun s => t.put s ((t.get s).insert (withEdges a ((edges a).insert target)))
    return true

/-- Changes a node, if it is there. -/
def modify {α : Type} {key : α → NodeId} (t : NodeTable key) (id : NodeId) (f : α → α) :
    Edit Unit :=
  change fun s => t.put s ((t.get s).modify id f)

/-- Puts a node of a table into a directory, and tells whether it was new there. -/
def contain {α : Type} {key : α → NodeId} (t : NodeTable key) (source target : NodeId)
    (parent : α → Option NodeId) (withParent : α → NodeId → α)
    (edges : Directory → SortedSet NodeId)
    (withEdges : Directory → SortedSet NodeId → Directory) : Edit Bool := do
  let x ← require t target
  requireParent t.kind target (parent x) source
  let isNew ← link .directories source target edges withEdges
  modify t target fun x => withParent x source
  return isNew

/-- Puts a directory into another one, and tells whether it was new there. -/
def containDirectory (source target : NodeId) : Edit Bool :=
  if source = target then fail (.edge (.selfContained source))
  else
    contain .directories source target Directory.parent (fun d p => { d with parent := some p })
      Directory.subdirectories fun d e => { d with subdirectories := e }

/-- Puts a file into a directory, and tells whether it was new there. -/
def containFile (source target : NodeId) : Edit Bool :=
  contain .files source target FileRevision.parent (fun f p => { f with parent := some p })
    Directory.fileRevisions fun d e => { d with fileRevisions := e }

/-- Adds an edge and tells whether it was new. -/
def mergeEdge (relation : Relation) (source target : NodeId) : Edit Bool :=
  match relation with
  | .repositoryCommit => do
    let _ ← require .commits target
    link .repositories source target Repository.commits fun r e => { r with commits := e }
  | .repositoryBranch => do
    let _ ← require .branches target
    link .repositories source target Repository.branches fun r e => { r with branches := e }
  | .commitParent => do
    let _ ← require .commits target
    link .commits source target Commit.parents fun c e => { c with parents := e }
  | .commitFile => do
    let _ ← require .files target
    link .commits source target Commit.fileRevisions fun c e => { c with fileRevisions := e }
  | .commitTag => do
    let _ ← require .tags target
    link .commits source target Commit.tags fun c e => { c with tags := e }
  | .directorySubdirectory => containDirectory source target
  | .directoryFile => containFile source target
  | .fileClass => do
    let _ ← require .classes target
    link .files source target FileRevision.classes fun f e => { f with classes := e }
  | .fileFunction => do
    let _ ← require .functions target
    link .files source target FileRevision.functions fun f e => { f with functions := e }
  | .classFunction => do
    let _ ← require .functions target
    link .classes source target ClassNode.functions fun c e => { c with functions := e }
  | .classInnerClass => do
    let _ ← require .classes target
    link .classes source target ClassNode.innerClasses fun c e => { c with innerClasses := e }
  | .classSuperClass => do
    let _ ← require .classes target
    link .classes source target ClassNode.superClasses fun c e => { c with superClasses := e }
  | .traceSpan => do
    let _ ← require .spans target
    link .traces source target Trace.spans fun t e => { t with spans := e }

end Edit

end Cityscape
