import Cityscape.Hydration
import Cityscape.Json.Record
import Cityscape.Number.Shortest

/-!
# `CodeMetrics`: the metrics of an application at a commit

Files below the root of the application are named by their path, classes by the path of their
file or outer class and their own name, and functions by their owner and their own name. Each
class that can be reached through inner classes is shown once, even if the inner classes form a
circle.
-/

namespace Cityscape

/-- The text of a metric that is not known. -/
def unknownMetric : String := "UNKNOWN"

/-- The text of a metric. -/
def metricText (m : Metrics) (name : String) : String :=
  match m.find? name with
  | some x => x.text .plain
  | none => unknownMetric

/-- The metrics shown for a file. -/
structure FileMetrics where
  loc : String
  cyclomaticComplexity : String
deriving DecidableEq

/-- The metrics shown for a class. -/
structure ClassMetrics where
  loc : String
  lcom4 : String
  cyclomaticComplexityWeighted : String
  cyclomaticComplexity : String
deriving DecidableEq

/-- The metrics shown for a function. -/
structure MethodMetrics where
  loc : String
  nestedBlockDepth : String
  cyclomaticComplexity : String
deriving DecidableEq

/-- What is shown of the metrics of a file. -/
def FileMetrics.ofMetrics (m : Metrics) : FileMetrics where
  loc := metricText m "loc"
  cyclomaticComplexity := metricText m "cyclomatic_complexity"

/-- What is shown of the metrics of a class. -/
def ClassMetrics.ofMetrics (m : Metrics) : ClassMetrics where
  loc := metricText m "loc"
  lcom4 := metricText m "LCOM4"
  cyclomaticComplexityWeighted := metricText m "cyclomatic_complexity_weighted"
  cyclomaticComplexity := metricText m "cyclomatic_complexity"

/-- What is shown of the metrics of a function. -/
def MethodMetrics.ofMetrics (m : Metrics) : MethodMetrics where
  loc := metricText m "loc"
  nestedBlockDepth := metricText m "nestedBlockDepth"
  cyclomaticComplexity := metricText m "cyclomatic_complexity"

/-- The metrics of an application. -/
structure CodeMetrics where
  fileMetrics : SortedMap String FileMetrics := ∅
  classMetrics : SortedMap String ClassMetrics := ∅
  methodMetrics : SortedMap String MethodMetrics := ∅
deriving DecidableEq

/-- The path of a file below a directory, if it lies below it. -/
def HydratedCommit.pathBelow (h : HydratedCommit) (root : NodeId) (f : FileRevision) :
    Option String :=
  let chain := h.ancestors f
  let below := chain.takeWhile fun d => d.id ≠ root
  if below.length < chain.length then
    some ("/".intercalate ((below.map Directory.name).reverse ++ [f.name]))
  else none

/-! ## The walk through inner classes -/

/-- The ids other than the given one. -/
def without (ids : List NodeId) (id : NodeId) : List NodeId := ids.filter fun i => i ≠ id

theorem length_without_lt {ids : List NodeId} {id : NodeId} (h : id ∈ ids) :
    (without ids id).length < ids.length :=
  List.length_filter_lt_length_iff_exists.2 ⟨id, h, by simp⟩

/-- The classes to be shown with the key of their owner, the next one first. Only the classes
in `unseen` are shown, and each of them once; the last inner class of a class comes next. -/
def classWalk (inner : ClassNode → List ClassNode) (unseen : List NodeId)
    (pending : List (String × ClassNode)) : List (String × ClassNode) :=
  match pending with
  | [] => []
  | (owner, c) :: rest =>
    if h : c.id ∈ unseen then
      have := length_without_lt h
      let key := owner ++ "/" ++ c.name
      (key, c) :: classWalk inner (without unseen c.id)
        ((inner c).reverse.map (fun i => (key, i)) ++ rest)
    else classWalk inner unseen rest
termination_by (unseen.length, pending.length)

namespace Store

/-- The inner classes of a class. -/
def innerClasses (s : Store) (c : ClassNode) : List ClassNode :=
  c.innerClasses.toList.filterMap s.classes.get?

/-- The functions of a class. -/
def methods (s : Store) (c : ClassNode) : List FunctionNode :=
  c.functions.toList.filterMap s.functions.get?

/-- The classes that are shown for a file at a path, with their keys. -/
def classesShown (s : Store) (path : String) (f : HydratedFile) : List (String × ClassNode) :=
  classWalk s.innerClasses (s.classes.toList.map ClassNode.id)
    (f.classes.reverse.map fun c => (path, c.node))

end Store

namespace CodeMetrics

/-- Adds the metrics of a function of the given owner. -/
def addMethod (owner : String) (m : CodeMetrics) (f : FunctionNode) : CodeMetrics :=
  { m with methodMetrics :=
      m.methodMetrics.put (owner ++ "/" ++ f.name) (MethodMetrics.ofMetrics f.metrics) }

/-- Adds the metrics of a class and its functions. -/
def addClass (s : Store) (m : CodeMetrics) (shown : String × ClassNode) : CodeMetrics :=
  let (key, c) := shown
  let m := { m with classMetrics := m.classMetrics.put key (ClassMetrics.ofMetrics c.metrics) }
  (s.methods c).foldl (addMethod key) m

/-- Adds the metrics of a file with its functions and classes. -/
def addFile (s : Store) (path : String) (m : CodeMetrics) (f : HydratedFile) : CodeMetrics :=
  let m := { m with
    fileMetrics := m.fileMetrics.put path (FileMetrics.ofMetrics f.file.metrics) }
  let m := f.functions.foldl (addMethod path) m
  (s.classesShown path f).foldl (addClass s) m

/-- The metrics of the files of a commit that lie below a directory. -/
def ofCommit (s : Store) (root : NodeId) (h : HydratedCommit) : CodeMetrics :=
  h.files.foldl
    (fun m f =>
      match h.pathBelow root f.file with
      | some path => addFile s path m f
      | none => m)
    {}

end CodeMetrics

/-! ## JSON forms -/

/-- The JSON form of the metrics of a file. -/
def FileMetrics.codec : Codec FileMetrics :=
  (Record.field (.required "loc" .text) <|
    .field (.required "cyclomatic_complexity" .text) .done).codec.iso
    (fun (loc, cyclomaticComplexity, ()) => { loc, cyclomaticComplexity })
    (fun m => (m.loc, m.cyclomaticComplexity, ()))

/-- The JSON form of the metrics of a class. -/
def ClassMetrics.codec : Codec ClassMetrics :=
  (Record.field (.required "loc" .text) <|
    .field (.required "LCOM4" .text) <|
    .field (.required "cyclomatic_complexity_weighted" .text) <|
    .field (.required "cyclomatic_complexity" .text) .done).codec.iso
    (fun (loc, lcom4, cyclomaticComplexityWeighted, cyclomaticComplexity, ()) =>
      { loc, lcom4, cyclomaticComplexityWeighted, cyclomaticComplexity })
    (fun m => (m.loc, m.lcom4, m.cyclomaticComplexityWeighted, m.cyclomaticComplexity, ()))

/-- The JSON form of the metrics of a function. -/
def MethodMetrics.codec : Codec MethodMetrics :=
  (Record.field (.required "loc" .text) <|
    .field (.required "nestedBlockDepth" .text) <|
    .field (.required "cyclomatic_complexity" .text) .done).codec.iso
    (fun (loc, nestedBlockDepth, cyclomaticComplexity, ()) =>
      { loc, nestedBlockDepth, cyclomaticComplexity })
    (fun m => (m.loc, m.nestedBlockDepth, m.cyclomaticComplexity, ()))

/-- The JSON form of the metrics of an application. -/
def CodeMetrics.codec : Codec CodeMetrics :=
  (Record.field (.required "fileMetrics" (.map FileMetrics.codec)) <|
    .field (.required "classMetrics" (.map ClassMetrics.codec)) <|
    .field (.required "methodMetrics" (.map MethodMetrics.codec)) .done).codec.iso
    (fun (fileMetrics, classMetrics, methodMetrics, ()) =>
      { fileMetrics, classMetrics, methodMetrics })
    (fun m => (m.fileMetrics, m.classMetrics, m.methodMetrics, ()))

end Cityscape
