import Cityscape.Graph.NodeId

/-!
# `Fault`: why a call fails

A fault is the cause of a failure. Its kind says how a caller should take it, and its message
tells a reader what went wrong.
-/

namespace Cityscape

/-- The kinds of nodes, as far as a fault names them. -/
inductive NodeKind where
  | repository | branch | commit | tag | directory | fileRevision | classNode | function | trace
  | span
deriving DecidableEq

/-- The name of a kind. -/
def NodeKind.text : NodeKind → String
  | .repository => "repository"
  | .branch => "branch"
  | .commit => "commit"
  | .tag => "tag"
  | .directory => "directory"
  | .fileRevision => "file revision"
  | .classNode => "class"
  | .function => "function"
  | .trace => "trace"
  | .span => "span"

/-- Why an edge cannot be added. -/
inductive EdgeFault where
  /-- One end of the edge does not exist. -/
  | missing (kind : NodeKind) (id : NodeId)
  /-- A directory would contain itself. -/
  | selfContained (directory : NodeId)
  /-- The contained node already hangs below another directory. -/
  | contained (kind : NodeKind) (id parent : NodeId)
deriving DecidableEq

/-- What an edge fault tells. -/
def EdgeFault.message : EdgeFault → String
  | .missing kind id => kind.text ++ " " ++ id.text ++ " not found"
  | .selfContained id => "directory " ++ id.text ++ " cannot contain itself"
  | .contained kind id parent =>
    kind.text ++ " " ++ id.text ++ " already belongs to " ++ parent.text

/-- Why an ingestion or a query fails. -/
inductive Fault where
  | unknownRepository (name : String)
  | unknownRepositoryId (id : NodeId)
  | unknownCommit (hash : String)
  | unknownCommitId (id : NodeId)
  | unknownApplication (name : String)
  | noStructure (token : String)
  | noCompleteCommit (repository branch : String)
  /-- A fact about a repository that has not been announced. -/
  | unregistered (repository token : String)
  /-- Details of a file that no commit of the repository contains. -/
  | noRevision (hash repository : String)
  | missingRoot (directory : NodeId)
  | emptyPath
  | nothingToCreate
  | endsAtDirectory (name : String)
  | emptyRepositoryName
  | emptyCommitHash
  | emptyFilePath (hash : String)
  | emptySpanKey
  | emptyFunctionName
  | emptySelector
  | malformedRange (selector : String)
  | edge (cause : EdgeFault)
deriving DecidableEq

/-- How a caller should take a fault. -/
inductive FaultKind where
  | notFound | failedPrecondition | resolutionEmpty | invalidArgument | store
deriving DecidableEq

namespace Fault

/-- The kind of a fault. -/
def kind : Fault → FaultKind
  | unknownRepository _ | unknownRepositoryId _ | unknownCommit _ | unknownCommitId _
  | unknownApplication _ | noStructure _ | noCompleteCommit _ _ => .notFound
  | unregistered _ _ | noRevision _ _ => .failedPrecondition
  | missingRoot _ => .resolutionEmpty
  | emptyPath | nothingToCreate | endsAtDirectory _ | emptyRepositoryName | emptyCommitHash
  | emptyFilePath _ | emptySpanKey | emptyFunctionName | emptySelector
  | malformedRange _ => .invalidArgument
  | edge _ => .store

/-- What a fault tells. -/
def message : Fault → String
  | unknownRepository name => "repository " ++ name
  | unknownRepositoryId id => "repository " ++ id.text
  | unknownCommit hash => "commit " ++ hash
  | unknownCommitId id => "commit " ++ id.text ++ " does not exist"
  | unknownApplication name => "application " ++ name
  | noStructure token => "no structure for landscape " ++ token
  | noCompleteCommit repository branch =>
    "no fully ingested commit on " ++ repository ++ "/" ++ branch
  | unregistered repository token =>
    "repository " ++ repository ++ " has not been registered for landscape " ++ token
  | noRevision hash repository =>
    "no file revision with hash " ++ hash ++ " in repository " ++ repository
  | missingRoot id => "root directory " ++ id.text ++ " does not exist"
  | emptyPath => "path must contain at least a file name"
  | nothingToCreate => "nothing left to create below an existing file"
  | endsAtDirectory name => "path ends at directory " ++ name
  | emptyRepositoryName => "repository name must not be empty"
  | emptyCommitHash => "commit hash must not be empty"
  | emptyFilePath hash => "file " ++ hash ++ " has an empty path"
  | emptySpanKey => "trace id and span id must not be empty"
  | emptyFunctionName => "function fqn must not be empty"
  | emptySelector => "commit selector must not be empty"
  | malformedRange selector => "malformed commit range: " ++ selector
  | edge cause => cause.message

/-- The message with the kind before it. -/
def text (f : Fault) : String :=
  match f.kind with
  | .notFound => "not found: " ++ f.message
  | .failedPrecondition => "failed precondition: " ++ f.message
  | .resolutionEmpty => "path resolution matched nothing: " ++ f.message
  | .invalidArgument => "invalid argument: " ++ f.message
  | .store => f.message

end Fault

end Cityscape
