import Cityscape.Calendar.Text
import Cityscape.Graph.Node
import Cityscape.Json.Record

/-!
# `Codec`: the JSON form of graph nodes

Field names are in snake case. Ids, texts and times must be present; edge sets, metrics and
counts are empty or zero if they are absent.
-/

namespace Cityscape

namespace Codec

/-- Instants, written as dates in universal time. -/
def instant : Codec Instant where
  encode t := .str t.text
  decode
    | .str s =>
      match Instant.ofText? s with
      | some t => .ok t
      | none => .error .mismatch
    | j => .error j.refusal

/-- Node ids. -/
def nodeId : Codec NodeId := uint64.iso NodeId.mk NodeId.val

/-- Sets of node ids. -/
def nodeIds : Codec (SortedSet NodeId) := set nodeId

/-- Sets of texts. -/
def texts : Codec (SortedSet String) := set text

/-- Named numbers. -/
def metrics : Codec Metrics := map double

/-- Source languages. The unspecified one may be called `UNSPECIFIED` for short. -/
def language : Codec Language :=
  choice
    (fun
      | .java => "JAVA"
      | .javascript => "JAVASCRIPT"
      | .typescript => "TYPESCRIPT"
      | .python => "PYTHON"
      | .plaintext => "PLAINTEXT"
      | .unspecified => "LANGUAGE_UNSPECIFIED")
    [("JAVA", .java), ("JAVASCRIPT", .javascript), ("TYPESCRIPT", .typescript),
      ("PYTHON", .python), ("PLAINTEXT", .plaintext), ("LANGUAGE_UNSPECIFIED", .unspecified),
      ("UNSPECIFIED", .unspecified)]

/-- Kinds of classes. -/
def classKind : Codec ClassKind :=
  choice
    (fun
      | .concreteClass => "CLASS"
      | .abstractClass => "ABSTRACT_CLASS"
      | .interface => "INTERFACE"
      | .enum => "ENUM"
      | .record => "RECORD"
      | .unspecified => "UNSPECIFIED")
    [("CLASS", .concreteClass), ("ABSTRACT_CLASS", .abstractClass), ("INTERFACE", .interface),
      ("ENUM", .enum), ("RECORD", .record), ("UNSPECIFIED", .unspecified)]

/-- Parameters and fields as the graph keeps them. -/
def typedName : Codec Variable :=
  (Record.field (.required "name" .text) <|
    .field (.required "type_name" .text) <|
    .field (.withDefault "modifiers" (.list .text) []) .done).codec.iso
    (fun (name, typeName, modifiers, ()) => ⟨name, typeName, modifiers⟩)
    (fun v => (v.name, v.typeName, v.modifiers, ()))

end Codec

namespace Repository

/-- The fields of a repository. -/
def record :=
  Record.field (.required "id" .nodeId) <|
  .field (.required "token" .text) <|
  .field (.required "name" .text) <|
  .field (.required "root_directory" .nodeId) <|
  .field (.withDefault "commits" .nodeIds ∅) <|
  .field (.withDefault "branches" .nodeIds ∅) .done

/-- The JSON form of a repository. -/
def codec : Codec Repository :=
  record.codec.iso
    (fun (id, token, name, rootDirectory, commits, branches, ()) =>
      { id, token, name, rootDirectory, commits, branches })
    (fun r => (r.id, r.token, r.name, r.rootDirectory, r.commits, r.branches, ()))

end Repository

namespace Branch

/-- The fields of a branch. -/
def record :=
  Record.field (.required "id" .nodeId) <|
  .field (.required "name" .text) <|
  .field (.required "repository" .nodeId) .done

/-- The JSON form of a branch. -/
def codec : Codec Branch :=
  record.codec.iso
    (fun (id, name, repository, ()) => { id, name, repository })
    (fun b => (b.id, b.name, b.repository, ()))

end Branch

namespace Commit

/-- The fields of a commit. -/
def record :=
  Record.field (.required "id" .nodeId) <|
  .field (.required "token" .text) <|
  .field (.required "hash" .text) <|
  .field (.nullable "author" .text) <|
  .field (.nullable "author_date" .instant) <|
  .field (.nullable "commit_date" .instant) <|
  .field (.nullable "branch" .nodeId) <|
  .field (.withDefault "parents" .nodeIds ∅) <|
  .field (.withDefault "file_revisions" .nodeIds ∅) <|
  .field (.withDefault "tags" .nodeIds ∅) .done

/-- The JSON form of a commit. -/
def codec : Codec Commit :=
  record.codec.iso
    (fun (id, token, hash, author, authorDate, commitDate, branch, parents, fileRevisions, tags,
        ()) =>
      { id, token, hash, author, authorDate, commitDate, branch, parents, fileRevisions, tags })
    (fun c => (c.id, c.token, c.hash, c.author, c.authorDate, c.commitDate, c.branch, c.parents,
      c.fileRevisions, c.tags, ()))

end Commit

namespace Tag

/-- The fields of a tag. -/
def record :=
  Record.field (.required "id" .nodeId) <|
  .field (.required "name" .text) .done

/-- The JSON form of a tag. -/
def codec : Codec Tag :=
  record.codec.iso (fun (id, name, ()) => { id, name }) (fun t => (t.id, t.name, ()))

end Tag

namespace Directory

/-- The fields of a directory. -/
def record :=
  Record.field (.required "id" .nodeId) <|
  .field (.required "name" .text) <|
  .field (.withDefault "subdirectories" .nodeIds ∅) <|
  .field (.withDefault "file_revisions" .nodeIds ∅) <|
  .field (.nullable "parent" .nodeId) .done

/-- The JSON form of a directory. -/
def codec : Codec Directory :=
  record.codec.iso
    (fun (id, name, subdirectories, fileRevisions, parent, ()) =>
      { id, name, subdirectories, fileRevisions, parent })
    (fun d => (d.id, d.name, d.subdirectories, d.fileRevisions, d.parent, ()))

end Directory

namespace FileRevision

/-- The fields of a file revision. -/
def record :=
  Record.field (.required "id" .nodeId) <|
  .field (.nullable "hash" .text) <|
  .field (.required "name" .text) <|
  .field (.withDefault "has_file_data" .bool false) <|
  .field (.withDefault "language" .language .unspecified) <|
  .field (.nullable "package_name" .text) <|
  .field (.withDefault "import_names" .texts ∅) <|
  .field (.withDefault "metrics" .metrics ∅) <|
  .field (.nullable "last_editor" .text) <|
  .field (.withDefault "added_lines" .uint32 0) <|
  .field (.withDefault "modified_lines" .uint32 0) <|
  .field (.withDefault "deleted_lines" .uint32 0) <|
  .field (.withDefault "classes" .nodeIds ∅) <|
  .field (.withDefault "functions" .nodeIds ∅) <|
  .field (.nullable "parent" .nodeId) .done

/-- The JSON form of a file revision. -/
def codec : Codec FileRevision :=
  record.codec.iso
    (fun (id, hash, name, hasFileData, language, packageName, importNames, metrics, lastEditor,
        addedLines, modifiedLines, deletedLines, classes, functions, parent, ()) =>
      { id, hash, name, hasFileData, language, packageName, importNames, metrics, lastEditor,
        addedLines, modifiedLines, deletedLines, classes, functions, parent })
    (fun f => (f.id, f.hash, f.name, f.hasFileData, f.language, f.packageName, f.importNames,
      f.metrics, f.lastEditor, f.addedLines, f.modifiedLines, f.deletedLines, f.classes,
      f.functions, f.parent, ()))

end FileRevision

namespace ClassNode

/-- The fields of a class. -/
def record :=
  Record.field (.required "id" .nodeId) <|
  .field (.required "name" .text) <|
  .field (.withDefault "class_type" .classKind .unspecified) <|
  .field (.withDefault "modifiers" .texts ∅) <|
  .field (.withDefault "implemented_interfaces" .texts ∅) <|
  .field (.withDefault "annotations" .texts ∅) <|
  .field (.withDefault "enum_values" .texts ∅) <|
  .field (.withDefault "metrics" .metrics ∅) <|
  .field (.withDefault "functions" .nodeIds ∅) <|
  .field (.withDefault "fields" (.set .typedName) ∅) <|
  .field (.withDefault "inner_classes" .nodeIds ∅) <|
  .field (.withDefault "super_classes" .nodeIds ∅) .done

/-- The JSON form of a class. -/
def codec : Codec ClassNode :=
  record.codec.iso
    (fun (id, name, kind, modifiers, implementedInterfaces, annotations, enumValues, metrics,
        functions, fields, innerClasses, superClasses, ()) =>
      { id, name, kind, modifiers, implementedInterfaces, annotations, enumValues, metrics,
        functions, fields, innerClasses, superClasses })
    (fun c => (c.id, c.name, c.kind, c.modifiers, c.implementedInterfaces, c.annotations,
      c.enumValues, c.metrics, c.functions, c.fields, c.innerClasses, c.superClasses, ()))

end ClassNode

namespace FunctionNode

/-- The fields of a function. -/
def record :=
  Record.field (.required "id" .nodeId) <|
  .field (.required "name" .text) <|
  .field (.nullable "fqn" .text) <|
  .field (.nullable "return_type" .text) <|
  .field (.withDefault "is_constructor" .bool false) <|
  .field (.withDefault "annotations" .texts ∅) <|
  .field (.withDefault "modifiers" .texts ∅) <|
  .field (.withDefault "outgoing_calls" .texts ∅) <|
  .field (.withDefault "metrics" .metrics ∅) <|
  .field (.withDefault "start_line" .uint32 0) <|
  .field (.withDefault "end_line" .uint32 0) <|
  .field (.withDefault "parameters" (.set .typedName) ∅) .done

/-- The JSON form of a function. -/
def codec : Codec FunctionNode :=
  record.codec.iso
    (fun (id, name, fqn, returnType, isConstructor, annotations, modifiers, outgoingCalls, metrics,
        startLine, endLine, parameters, ()) =>
      { id, name, fqn, returnType, isConstructor, annotations, modifiers, outgoingCalls, metrics,
        startLine, endLine, parameters })
    (fun f => (f.id, f.name, f.fqn, f.returnType, f.isConstructor, f.annotations, f.modifiers,
      f.outgoingCalls, f.metrics, f.startLine, f.endLine, f.parameters, ()))

end FunctionNode

namespace Application

/-- The fields of an application. -/
def record :=
  Record.field (.required "id" .nodeId) <|
  .field (.required "token" .text) <|
  .field (.required "name" .text) <|
  .field (.required "root_directory" .nodeId) <|
  .field (.nullable "repository" .nodeId) .done

/-- The JSON form of an application. -/
def codec : Codec Application :=
  record.codec.iso
    (fun (id, token, name, rootDirectory, repository, ()) =>
      { id, token, name, rootDirectory, repository })
    (fun a => (a.id, a.token, a.name, a.rootDirectory, a.repository, ()))

end Application

namespace Trace

/-- The fields of a trace. -/
def record :=
  Record.field (.required "id" .nodeId) <|
  .field (.required "token" .text) <|
  .field (.required "trace_id" .text) <|
  .field (.required "start_time" .int64) <|
  .field (.required "end_time" .int64) <|
  .field (.withDefault "spans" .nodeIds ∅) .done

/-- The JSON form of a trace. -/
def codec : Codec Trace :=
  record.codec.iso
    (fun (id, token, traceId, startTime, endTime, spans, ()) =>
      { id, token, traceId, startTime, endTime, spans })
    (fun t => (t.id, t.token, t.traceId, t.startTime, t.endTime, t.spans, ()))

end Trace

namespace Span

/-- The fields of a span. -/
def record :=
  Record.field (.required "id" .nodeId) <|
  .field (.required "token" .text) <|
  .field (.required "span_id" .text) <|
  .field (.required "start_time" .int64) <|
  .field (.required "end_time" .int64) <|
  .field (.nullable "parent_span" .nodeId) <|
  .field (.nullable "function" .nodeId) <|
  .field (.nullable "application" .nodeId) .done

/-- The JSON form of a span. -/
def codec : Codec Span :=
  record.codec.iso
    (fun (id, token, spanId, startTime, endTime, parentSpan, function, application, ()) =>
      { id, token, spanId, startTime, endTime, parentSpan, function, application })
    (fun p => (p.id, p.token, p.spanId, p.startTime, p.endTime, p.parentSpan, p.function,
      p.application, ()))

end Span

end Cityscape
