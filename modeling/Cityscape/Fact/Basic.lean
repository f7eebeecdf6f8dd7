import Cityscape.Graph.Node

/-!
# `Fact`: what is told to the store

A fact announces the state of a repository, one of its commits, the analysis of a file or a
recorded call. Facts name things by tokens, names, hashes and paths, never by node ids.
-/

namespace Cityscape

/-- The current branch of a repository, and the directories of its applications. -/
structure RepositoryFact where
  landscapeToken : String
  /-- The full name; only its last part is kept. -/
  repositoryName : String
  branchName : String
  /-- The path of each application's directory; empty for the root. -/
  applicationPaths : SortedMap String String := ∅
deriving DecidableEq

/-- The answer to a repository fact. -/
structure RepositoryReply where
  branchName : String
  /-- The hash of the latest complete commit of the branch, empty if there is none. -/
  commitId : String
deriving DecidableEq

/-- The content hash and the path of a file. -/
structure FileIdentifier where
  hash : String
  path : String
deriving DecidableEq

/-- A commit with its files. -/
structure CommitFact where
  landscapeToken : String
  repositoryName : String
  branchName : String := ""
  commitHash : String
  /-- The hash of the parent; absent, empty or `NONE` if there is none. -/
  parentCommitHash : Option String := none
  author : Option String := none
  authorDate : Option Instant := none
  commitDate : Option Instant := none
  tags : List String := []
  addedFiles : List FileIdentifier := []
  modifiedFiles : List FileIdentifier := []
  unchangedFiles : List FileIdentifier := []
deriving DecidableEq

/-- All files of a commit. -/
def CommitFact.files (f : CommitFact) : List FileIdentifier :=
  f.addedFiles ++ f.modifiedFiles ++ f.unchangedFiles

/-- A function as static analysis describes it. -/
structure FunctionFact where
  name : String := ""
  returnType : Option String := none
  isConstructor : Bool := false
  annotations : List String := []
  modifiers : List String := []
  outgoingMethodCalls : List String := []
  parameters : List Variable := []
  startLine : UInt32 := 0
  endLine : UInt32 := 0
  metrics : Metrics := ∅
deriving DecidableEq

/-- A class as static analysis describes it, with its inner classes. -/
structure ClassFact where
  /-- The qualified name. -/
  name : String := ""
  kind : ClassKind := .unspecified
  modifiers : List String := []
  implementedInterfaces : List String := []
  annotations : List String := []
  enumValues : List String := []
  superClasses : List String := []
  fields : List Variable := []
  innerClasses : List ClassFact := []
  functions : List FunctionFact := []
  metrics : Metrics := ∅

/-- What static analysis says of every file revision with a given content hash. -/
structure FileFact where
  landscapeToken : String := ""
  repositoryName : String := ""
  fileHash : String := ""
  language : Language := .unspecified
  packageName : Option String := none
  importNames : List String := []
  metrics : Metrics := ∅
  lastEditor : Option String := none
  addedLines : UInt32 := 0
  modifiedLines : UInt32 := 0
  deletedLines : UInt32 := 0
  classes : List ClassFact := []
  functions : List FunctionFact := []

/-- A recorded call of a function of an application. -/
structure SpanFact where
  landscapeToken : String
  applicationName : String
  traceId : String
  spanId : String
  /-- The calling span; absent or empty if there is none. -/
  parentSpanId : Option String := none
  /-- The qualified name of the function, cut at dots. -/
  functionFqn : String
  startTime : Int64
  endTime : Int64
  /-- The commit that was running; absent or empty if it is not known. -/
  commitId : Option String := none
deriving DecidableEq

end Cityscape
