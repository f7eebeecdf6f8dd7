import Cityscape.Fact.Basic
import Cityscape.History.Commits
import Cityscape.Ingestion.Files
import Cityscape.Tree.Growth

/-!
# `Spans`: taking in recorded calls

A span names its function by a qualified name; `a.b.C.run` is function `run` in the file `a/b/C`
below the root of the application. If the span names a commit, the files of the commit are tried
first. An application that is not known gets a root of its own. A calling span that has not been
told yet is stored as a placeholder and completed by its own fact. The bounds of the trace that a
fact names are set anew from its spans.
-/

namespace Cityscape

/-- The name of the root directory of applications known from traces only. -/
def tracedRoot : String := "*"

/-- The non-empty parts of a qualified name. -/
def splitName (fqn : String) : List String := Text.segments '.' fqn

namespace Edit

/-- The application with the given name; it is created with a root of its own if it is new. -/
def applicationNamed (token name : String) : Edit Application := do
  match (← store).findApplication token name with
  | some a => return a
  | none =>
    let root : Directory := { id := ← allocate, name := tracedRoot }
    change fun s => s.saveDirectory root
    let id ← allocate
    step fun s => s.mergeApplication { id, token, name, rootDirectory := root.id }

/-- The span with the given span id; a placeholder is created if it is new. An id is handed out
even if the span exists. -/
def spanNamed (token spanId : String) : Edit Span := do
  let id ← allocate
  step fun s => s.mergeSpan { id, token, spanId, startTime := 0, endTime := 0 }

/-- Creates a function that traces have shown. -/
def createTracedFunction (name fqn : String) : Edit FunctionNode := do
  let id ← allocate
  let f : FunctionNode := { id, name, fqn := some fqn }
  change fun s => s.saveFunction f
  return f

/-- The file at a path below an application's root, if the commit with the given hash has it. -/
def fileInCommit (root : NodeId) (path : List String) (token : String)
    (hash : Option String) : Edit (Option FileRevision) := do
  match hash.bind ((← store).findCommit token) with
  | none => return none
  | some c =>
    match (← store).resolve root path (.commit c.id) with
    | .error e => fail e
    | .ok r =>
      match r.isComplete, r.existing with
      | true, .file f => return some f
      | _, _ => return none

/-- The file in which a traced function lives: that of the commit, or one outside of all
commits, which is added if it is missing. -/
def tracedFile (root : NodeId) (path : List String) (token : String) (hash : Option String) :
    Edit FileRevision := do
  match ← fileInCommit root path token hash with
  | some f => return f
  | none => resolveOrGrow root path .everywhere

/-- The result of an edit, or nothing if it fails for a cause other than the graph itself. What
it changed before it failed stays changed. -/
def ifPlaceable {α : Type} (e : Edit α) : Edit (Option α) :=
  tryCatch (do return some (← e)) fun fault =>
    match fault.kind with
    | .store => throw fault
    | _ => return none

/-- The function in no file that spans of the landscape call by this qualified name. -/
def detachedFunction (token name fqn : String) : Edit FunctionNode := do
  match (← store).findTracedFunction token fqn with
  | some f => return f
  | none => createTracedFunction name fqn

/-- The function of a file with the given name; it is created if it is missing. -/
def functionInFile (file : FileRevision) (name fqn : String) : Edit FunctionNode := do
  let s ← store
  match ((s.functionsByName file.functions).lookup name).bind s.functions.get? with
  | some f => return f
  | none =>
    let f ← createTracedFunction name fqn
    let _ ← mergeEdge .fileFunction file.id f.id
    return f

/-- The function that a span calls. -/
def placeFunction (root : NodeId) (f : SpanFact) : Edit FunctionNode := do
  let segments := splitName f.functionFqn
  match segments.getLast? with
  | none => fail .emptyFunctionName
  | some name =>
    let path := segments.dropLast
    let file ←
      if path.isEmpty then pure none
      else ifPlaceable (tracedFile root path f.landscapeToken (nonEmpty f.commitId))
    match file with
    | none => detachedFunction f.landscapeToken name f.functionFqn
    | some file => functionInFile file name f.functionFqn

/-- The calling span, if one is named. -/
def callerOf (token : String) (parentSpanId : Option String) : Edit (Option NodeId) := do
  match nonEmpty parentSpanId with
  | none => return none
  | some id => return some (← spanNamed token id).id

end Edit

namespace Store

/-- The earliest start and the latest end of the given spans. -/
def boundsOf (s : Store) (spans : SortedSet NodeId) : Option (Int64 × Int64) :=
  match spans.toList.filterMap s.spans.get? with
  | [] => none
  | p :: ps => some (ps.foldl (fun t p => min t p.startTime) p.startTime,
      ps.foldl (fun t p => max t p.endTime) p.endTime)

/-- Sets the bounds of a trace to those of its spans. -/
def refreshBounds (s : Store) (token traceId : String) : Store :=
  match s.findTrace token traceId with
  | none => s
  | some t =>
    match s.boundsOf t.spans with
    | none => s
    | some (start, stop) =>
      if (start, stop) = (t.startTime, t.endTime) then s
      else s.saveTrace { t with startTime := start, endTime := stop }

end Store

namespace Edit

/-- Takes in a span fact. -/
def ingestSpan (f : SpanFact) : Edit Span := do
  if f.traceId.isEmpty ∨ f.spanId.isEmpty then fail .emptySpanKey
  else
    let token := f.landscapeToken
    let a ← applicationNamed token f.applicationName
    let function ← placeFunction a.rootDirectory f
    let traceNode ← allocate
    let t ← step fun s => s.mergeTrace
      { id := traceNode, token, traceId := f.traceId, startTime := f.startTime,
        endTime := f.endTime }
    let caller ← callerOf token f.parentSpanId
    let p ← spanNamed token f.spanId
    let p := { p with
      startTime := f.startTime
      endTime := f.endTime
      parentSpan := caller.or p.parentSpan
      function := some function.id
      application := some a.id }
    change fun s => s.saveSpan p
    let _ ← mergeEdge .traceSpan t.id p.id
    change fun s => s.refreshBounds token f.traceId
    return p

end Edit

end Cityscape
