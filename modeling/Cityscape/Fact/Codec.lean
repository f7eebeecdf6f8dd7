import Cityscape.Fact.Basic
import Cityscape.Graph.Codec

/-!
# `Codec`: the JSON form of facts

Field names are in camel case. In what static analysis tells every field has a default.
-/

namespace Cityscape

namespace Codec

/-- Parameters and fields as facts tell them. -/
def typedNameFact : Codec Variable :=
  (Record.field (.withDefault "name" .text "") <|
    .field (.withDefault "type" .text "") <|
    .field (.withDefault "modifiers" (.list .text) []) .done).codec.iso
    (fun (name, typeName, modifiers, ()) => ⟨name, typeName, modifiers⟩)
    (fun v => (v.name, v.typeName, v.modifiers, ()))

end Codec

namespace RepositoryFact

/-- The fields of a repository fact. -/
def record :=
  Record.field (.required "landscapeToken" .text) <|
  .field (.required "repositoryName" .text) <|
  .field (.required "branchName" .text) <|
  .field (.withDefault "applicationPaths" (.map .text) ∅) .done

/-- The JSON form of a repository fact. -/
def codec : Codec RepositoryFact :=
  record.codec.iso
    (fun (landscapeToken, repositoryName, branchName, applicationPaths, ()) =>
      { landscapeToken, repositoryName, branchName, applicationPaths })
    (fun f => (f.landscapeToken, f.repositoryName, f.branchName, f.applicationPaths, ()))

end RepositoryFact

namespace RepositoryReply

/-- The fields of a reply. -/
def record :=
  Record.field (.required "branchName" .text) <|
  .field (.required "commitId" .text) .done

/-- The JSON form of a reply. -/
def codec : Codec RepositoryReply :=
  record.codec.iso (fun (branchName, commitId, ()) => { branchName, commitId })
    (fun r => (r.branchName, r.commitId, ()))

end RepositoryReply

namespace FileIdentifier

/-- The fields of a file identifier. -/
def record :=
  Record.field (.required "hash" .text) <|
  .field (.required "path" .text) .done

/-- The JSON form of a file identifier. -/
def codec : Codec FileIdentifier :=
  record.codec.iso (fun (hash, path, ()) => { hash, path }) (fun f => (f.hash, f.path, ()))

end FileIdentifier

namespace CommitFact

/-- The fields of a commit fact. -/
def record :=
  Record.field (.required "landscapeToken" .text) <|
  .field (.required "repositoryName" .text) <|
  .field (.withDefault "branchName" .text "") <|
  .field (.required "commitHash" .text) <|
  .field (.withDefault "parentCommitHash" (.option .text) none) <|
  .field (.withDefault "author" (.option .text) none) <|
  .field (.withDefault "authorDate" (.option .instant) none) <|
  .field (.withDefault "commitDate" (.option .instant) none) <|
  .field (.withDefault "tags" (.list .text) []) <|
  .field (.withDefault "addedFiles" (.list FileIdentifier.codec) []) <|
  .field (.withDefault "modifiedFiles" (.list FileIdentifier.codec) []) <|
  .field (.withDefault "unchangedFiles" (.list FileIdentifier.codec) []) .done

/-- The JSON form of a commit fact. -/
def codec : Codec CommitFact :=
  record.codec.iso
    (fun (landscapeToken, repositoryName, branchName, commitHash, parentCommitHash, author,
        authorDate, commitDate, tags, addedFiles, modifiedFiles, unchangedFiles, ()) =>
      { landscapeToken, repositoryName, branchName, commitHash, parentCommitHash, author,
        authorDate, commitDate, tags, addedFiles, modifiedFiles, unchangedFiles })
    (fun f => (f.landscapeToken, f.repositoryName, f.branchName, f.commitHash, f.parentCommitHash,
      f.author, f.authorDate, f.commitDate, f.tags, f.addedFiles, f.modifiedFiles,
      f.unchangedFiles, ()))

end CommitFact

namespace FunctionFact

/-- The fields of a function fact. -/
def record :=
  Record.field (.withDefault "name" .text "") <|
  .field (.withDefault "returnType" (.option .text) none) <|
  .field (.withDefault "isConstructor" .bool false) <|
  .field (.withDefault "annotations" (.list .text) []) <|
  .field (.withDefault "modifiers" (.list .text) []) <|
  .field (.withDefault "outgoingMethodCalls" (.list .text) []) <|
  .field (.withDefault "parameters" (.list .typedNameFact) []) <|
  .field (.withDefault "startLine" .uint32 0) <|
  .field (.withDefault "endLine" .uint32 0) <|
  .field (.withDefault "metrics" .metrics ∅) .done

/-- The JSON form of a function fact. -/
def codec : Codec FunctionFact :=
  record.codec.iso
    (fun (name, returnType, isConstructor, annotations, modifiers, outgoingMethodCalls, parameters,
        startLine, endLine, metrics, ()) =>
      { name, returnType, isConstructor, annotations, modifiers, outgoingMethodCalls, parameters,
        startLine, endLine, metrics })
    (fun f => (f.name, f.returnType, f.isConstructor, f.annotations, f.modifiers,
      f.outgoingMethodCalls, f.parameters, f.startLine, f.endLine, f.metrics, ()))

end FunctionFact

namespace ClassFact

mutual

/-- How deeply classes are nested in a class. -/
def depth : ClassFact → Nat
  | ⟨_, _, _, _, _, _, _, _, innerClasses, _, _⟩ => depthAll innerClasses + 1

/-- The greatest depth of a list of classes. -/
def depthAll : List ClassFact → Nat
  | [] => 0
  | c :: cs => max c.depth (depthAll cs)

end

/-- The fields of a class fact, given the codec of its inner classes. -/
def record (inner : Codec ClassFact) :=
  Record.field (.withDefault "name" .text "") <|
  .field (.withDefault "type" .classKind .unspecified) <|
  .field (.withDefault "modifiers" (.list .text) []) <|
  .field (.withDefault "implementedInterfaces" (.list .text) []) <|
  .field (.withDefault "annotations" (.list .text) []) <|
  .field (.withDefault "enumValues" (.list .text) []) <|
  .field (.withDefault "superClasses" (.list .text) []) <|
  .field (.withDefault "fields" (.list .typedNameFact) []) <|
  .field (.withDefault "innerClasses" (.list inner) []) <|
  .field (.withDefault "functions" (.list FunctionFact.codec) []) <|
  .field (.withDefault "metrics" .metrics ∅) .done

/-- The JSON form of classes that are nested less than `fuel` deep. -/
def codecTo : Nat → Codec ClassFact
  | 0 => ⟨fun _ => .null, fun j => .error j.refusal⟩
  | fuel + 1 =>
    (record (codecTo fuel)).codec.iso
      (fun (name, kind, modifiers, implementedInterfaces, annotations, enumValues, superClasses,
          fields, innerClasses, functions, metrics, ()) =>
        { name, kind, modifiers, implementedInterfaces, annotations, enumValues, superClasses,
          fields, innerClasses, functions, metrics })
      (fun c => (c.name, c.kind, c.modifiers, c.implementedInterfaces, c.annotations,
        c.enumValues, c.superClasses, c.fields, c.innerClasses, c.functions, c.metrics, ()))

/-- The JSON form of a class fact. A value nests no more classes than objects and arrays. -/
def codec : Codec ClassFact where
  encode c := (codecTo c.depth).encode c
  decode j := (codecTo (j.depth + 1)).decode j

end ClassFact

namespace FileFact

/-- The fields of a file fact. -/
def record :=
  Record.field (.withDefault "landscapeToken" .text "") <|
  .field (.withDefault "repositoryName" .text "") <|
  .field (.withDefault "fileHash" .text "") <|
  .field (.withDefault "language" .language .unspecified) <|
  .field (.withDefault "packageName" (.option .text) none) <|
  .field (.withDefault "importNames" (.list .text) []) <|
  .field (.withDefault "metrics" .metrics ∅) <|
  .field (.withDefault "lastEditor" (.option .text) none) <|
  .field (.withDefault "addedLines" .uint32 0) <|
  .field (.withDefault "modifiedLines" .uint32 0) <|
  .field (.withDefault "deletedLines" .uint32 0) <|
  .field (.withDefault "classes" (.list ClassFact.codec) []) <|
  .field (.withDefault "functions" (.list FunctionFact.codec) []) .done

/-- The JSON form of a file fact. -/
def codec : Codec FileFact :=
  record.codec.iso
    (fun (landscapeToken, repositoryName, fileHash, language, packageName, importNames, metrics,
        lastEditor, addedLines, modifiedLines, deletedLines, classes, functions, ()) =>
      { landscapeToken, repositoryName, fileHash, language, packageName, importNames, metrics,
        lastEditor, addedLines, modifiedLines, deletedLines, classes, functions })
    (fun f => (f.landscapeToken, f.repositoryName, f.fileHash, f.language, f.packageName,
      f.importNames, f.metrics, f.lastEditor, f.addedLines, f.modifiedLines, f.deletedLines,
      f.classes, f.functions, ()))

end FileFact

namespace SpanFact

/-- The fields of a span fact. -/
def record :=
  Record.field (.required "landscapeToken" .text) <|
  .field (.required "applicationName" .text) <|
  .field (.required "traceId" .text) <|
  .field (.required "spanId" .text) <|
  .field (.withDefault "parentSpanId" (.option .text) none) <|
  .field (.required "functionFqn" .text) <|
  .field (.required "startTime" .int64) <|
  .field (.required "endTime" .int64) <|
  .field (.withDefault "commitId" (.option .text) none) .done

/-- The JSON form of a span fact. -/
def codec : Codec SpanFact :=
  record.codec.iso
    (fun (landscapeToken, applicationName, traceId, spanId, parentSpanId, functionFqn, startTime,
        endTime, commitId, ()) =>
      { landscapeToken, applicationName, traceId, spanId, parentSpanId, functionFqn, startTime,
        endTime, commitId })
    (fun f => (f.landscapeToken, f.applicationName, f.traceId, f.spanId, f.parentSpanId,
      f.functionFqn, f.startTime, f.endTime, f.commitId, ()))

end SpanFact

end Cityscape
