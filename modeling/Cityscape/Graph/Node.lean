import Cityscape.Calendar.Instant
import Cityscape.Graph.NodeId
import Cityscape.Number.Binary64

/-!
# `Node`: the nodes of the structure graph

The graph records the history of repositories (branches, commits, tags), the tree of their
directories and file revisions, the classes and functions declared in the files, and what was
seen at run time (applications, traces, spans). A node names the nodes it contains or refers to
by their ids; what a landscape token separates carries the token.
-/

namespace Cityscape

/-- Named numbers about a file, class or function. -/
abbrev Metrics := SortedMap String Binary64

/-- The source language of a file. -/
inductive Language where
  | java | javascript | typescript | python | plaintext | unspecified
deriving DecidableEq, Inhabited

/-- The kind of a class declaration. -/
inductive ClassKind where
  | concreteClass | abstractClass | interface | enum | record | unspecified
deriving DecidableEq, Inhabited

/-- A parameter of a function or a field of a class. -/
structure Variable where
  name : String
  typeName : String
  modifiers : List String
deriving DecidableEq, Inhabited

namespace Variable

/-- Variables are ordered by name, then type, then modifiers. -/
def order : Variable → Variable → Ordering :=
  compareLex (compareOn name) (compareLex (compareOn typeName) (compareOn modifiers))

instance : Ord Variable := ⟨order⟩

instance : Std.TransOrd Variable :=
  inferInstanceAs (Std.TransCmp
    (compareLex (compareOn name) (compareLex (compareOn typeName) (compareOn modifiers))))

instance : Std.LawfulEqOrd Variable where
  compare_self := @Std.ReflCmp.compare_self
    _ (compareLex (compareOn name) (compareLex (compareOn typeName) (compareOn modifiers))) _
  eq_of_compare := by
    intro a b h
    obtain ⟨hn, h⟩ := Ordering.then_eq_eq.1 h
    obtain ⟨ht, hm⟩ := Ordering.then_eq_eq.1 h
    cases a; cases b
    exact congr (congr (congrArg mk (Std.LawfulEqCmp.eq_of_compare hn))
      (Std.LawfulEqCmp.eq_of_compare ht)) (Std.LawfulEqCmp.eq_of_compare hm)

end Variable

/-! ## History -/

/-- A source repository of a landscape. Every path tracked in it hangs below its root. -/
structure Repository where
  id : NodeId
  token : String
  name : String
  rootDirectory : NodeId
  commits : SortedSet NodeId := ∅
  branches : SortedSet NodeId := ∅
deriving DecidableEq

/-- A branch of a repository. -/
structure Branch where
  id : NodeId
  name : String
  repository : NodeId
deriving DecidableEq

/-- A commit, known by its hash within a landscape. -/
structure Commit where
  id : NodeId
  token : String
  hash : String
  author : Option String := none
  authorDate : Option Instant := none
  commitDate : Option Instant := none
  branch : Option NodeId := none
  parents : SortedSet NodeId := ∅
  fileRevisions : SortedSet NodeId := ∅
  tags : SortedSet NodeId := ∅
deriving DecidableEq

/-- A named tag. -/
structure Tag where
  id : NodeId
  name : String
deriving DecidableEq

/-! ## File tree -/

/-- A directory. The parent is set together with the edge that contains the directory. -/
structure Directory where
  id : NodeId
  name : String
  subdirectories : SortedSet NodeId := ∅
  fileRevisions : SortedSet NodeId := ∅
  parent : Option NodeId := none
deriving DecidableEq

/-- One revision of a file, known by its content hash and its path. Files that are known from
traces only have no hash. -/
structure FileRevision where
  id : NodeId
  hash : Option String := none
  name : String
  /-- Whether static analysis has described the revision. -/
  hasFileData : Bool := false
  language : Language := .unspecified
  packageName : Option String := none
  importNames : SortedSet String := ∅
  metrics : Metrics := ∅
  lastEditor : Option String := none
  addedLines : UInt32 := 0
  modifiedLines : UInt32 := 0
  deletedLines : UInt32 := 0
  classes : SortedSet NodeId := ∅
  functions : SortedSet NodeId := ∅
  parent : Option NodeId := none
deriving DecidableEq

/-! ## Declarations -/

/-- A class, interface, enumeration or record declared in a file. -/
structure ClassNode where
  id : NodeId
  name : String
  kind : ClassKind := .unspecified
  modifiers : SortedSet String := ∅
  implementedInterfaces : SortedSet String := ∅
  annotations : SortedSet String := ∅
  enumValues : SortedSet String := ∅
  metrics : Metrics := ∅
  functions : SortedSet NodeId := ∅
  fields : SortedSet Variable := ∅
  innerClasses : SortedSet NodeId := ∅
  superClasses : SortedSet NodeId := ∅
deriving DecidableEq

/-- A function or method. Those discovered in traces know their qualified name. -/
structure FunctionNode where
  id : NodeId
  name : String
  fqn : Option String := none
  returnType : Option String := none
  isConstructor : Bool := false
  annotations : SortedSet String := ∅
  modifiers : SortedSet String := ∅
  outgoingCalls : SortedSet String := ∅
  metrics : Metrics := ∅
  startLine : UInt32 := 0
  endLine : UInt32 := 0
  parameters : SortedSet Variable := ∅
deriving DecidableEq

/-! ## Run time -/

/-- An application, rooted at a directory; of no repository if only traces have shown it. -/
structure Application where
  id : NodeId
  token : String
  name : String
  rootDirectory : NodeId
  repository : Option NodeId := none
deriving DecidableEq

/-- A trace: the nanoseconds since 1970 of its earliest start and latest end, and its spans. -/
structure Trace where
  id : NodeId
  token : String
  traceId : String
  startTime : Int64
  endTime : Int64
  spans : SortedSet NodeId := ∅
deriving DecidableEq

/-- A recorded call. -/
structure Span where
  id : NodeId
  token : String
  spanId : String
  startTime : Int64
  endTime : Int64
  parentSpan : Option NodeId := none
  function : Option NodeId := none
  application : Option NodeId := none
deriving DecidableEq

end Cityscape
