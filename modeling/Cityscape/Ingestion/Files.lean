import Cityscape.Ingestion.Repositories

/-!
# `Files`: taking in what static analysis says of a file

The details of a content hash go to every revision with that hash in the commits of the
repository. Classes and functions are found by name in each revision; what is missing is
created once and shared by the revisions. The mark that a revision is described is set last.
-/

namespace Cityscape

/-- Names with the ids they stand for, the latest first. -/
abbrev NamedIds := List (String × NodeId)

namespace Store

/-- The names of the given classes; the first class of each name counts. -/
def classesByName (s : Store) (ids : SortedSet NodeId) : NamedIds :=
  (ids.toList.filterMap s.classes.get?).map fun c => (c.name, c.id)

/-- The names of the given functions; the first function of each name counts. -/
def functionsByName (s : Store) (ids : SortedSet NodeId) : NamedIds :=
  (ids.toList.filterMap s.functions.get?).map fun f => (f.name, f.id)

end Store

/-- The function node that a fact describes. -/
def FunctionFact.node (f : FunctionFact) (id : NodeId) : FunctionNode where
  id := id
  name := f.name
  returnType := f.returnType
  isConstructor := f.isConstructor
  annotations := Sorted.ofList f.annotations
  modifiers := Sorted.ofList f.modifiers
  outgoingCalls := Sorted.ofList f.outgoingMethodCalls
  metrics := f.metrics
  startLine := f.startLine
  endLine := f.endLine
  parameters := Sorted.ofList f.parameters

/-- The class node that a fact describes, without functions and inner classes. -/
def ClassFact.node (c : ClassFact) (id : NodeId) : ClassNode where
  id := id
  name := c.name
  kind := c.kind
  modifiers := Sorted.ofList c.modifiers
  implementedInterfaces := Sorted.ofList c.implementedInterfaces
  annotations := Sorted.ofList c.annotations
  enumValues := Sorted.ofList c.enumValues
  metrics := c.metrics
  fields := Sorted.ofList c.fields

namespace Edit

/-- Creates a function. -/
def createFunction (f : FunctionFact) : Edit NodeId := do
  let id ← allocate
  change fun s => s.saveFunction (f.node id)
  return id

/-- Creates functions and links each to a class. -/
def createMethods (class_ : NodeId) : List FunctionFact → Edit Unit
  | [] => return ()
  | f :: rest => do
    let id ← createFunction f
    let _ ← mergeEdge .classFunction class_ id
    createMethods class_ rest

mutual

/-- Creates a class with its functions and inner classes. -/
def createClass : ClassFact → Edit NodeId
  | ⟨name, kind, modifiers, interfaces, annotations, enumValues, superClasses, fields,
      innerClasses, functions, metrics⟩ => do
    let c : ClassFact := ⟨name, kind, modifiers, interfaces, annotations, enumValues,
      superClasses, fields, [], functions, metrics⟩
    let id ← allocate
    change fun s => s.saveClass (c.node id)
    createMethods id functions
    createInnerClasses id innerClasses
    return id

/-- Creates classes and links each to the class around it. -/
def createInnerClasses (outer : NodeId) : List ClassFact → Edit Unit
  | [] => return ()
  | c :: rest => do
    let id ← createClass c
    let _ ← mergeEdge .classInnerClass outer id
    createInnerClasses outer rest

end

/-- Links the classes of a fact to a file. A class is one that the file has, one that was
created for an earlier revision, or a new one. Yields the ids of all names, and what was
created so far. -/
def attachClasses (file : NodeId) (existing : NamedIds) :
    List ClassFact → NamedIds → NamedIds → Edit (NamedIds × NamedIds)
  | [], ids, created => return (ids, created)
  | c :: rest, ids, created => do
    match (existing.lookup c.name).or (created.lookup c.name) with
    | some id =>
      let _ ← mergeEdge .fileClass file id
      attachClasses file existing rest ((c.name, id) :: ids) created
    | none =>
      let id ← createClass c
      let _ ← mergeEdge .fileClass file id
      attachClasses file existing rest ((c.name, id) :: ids) ((c.name, id) :: created)

/-- Links a class to those of its super classes that are declared in the same file. -/
def linkSuperClasses (ids : NamedIds) (class_ : NodeId) : List String → Edit Unit
  | [] => return ()
  | name :: rest => do
    match ids.lookup name with
    | some super =>
      if super ≠ class_ then
        let _ ← mergeEdge .classSuperClass class_ super
    | none => pure ()
    linkSuperClasses ids class_ rest

/-- Links all classes of a fact to their super classes. -/
def linkAllSuperClasses (ids : NamedIds) : List ClassFact → Edit Unit
  | [] => return ()
  | c :: rest => do
    match ids.lookup c.name with
    | some id => linkSuperClasses ids id c.superClasses
    | none => pure ()
    linkAllSuperClasses ids rest

/-- Links the functions of a fact to a file, as `attachClasses` does for classes. -/
def attachFunctions (file : NodeId) (existing : NamedIds) :
    List FunctionFact → NamedIds → Edit NamedIds
  | [], created => return created
  | f :: rest, created => do
    match (existing.lookup f.name).or (created.lookup f.name) with
    | some id =>
      let _ ← mergeEdge .fileFunction file id
      attachFunctions file existing rest created
    | none =>
      let id ← createFunction f
      let _ ← mergeEdge .fileFunction file id
      attachFunctions file existing rest ((f.name, id) :: created)

/-- The revision with the properties that a fact gives it. -/
def described (f : FileFact) (file : FileRevision) : FileRevision :=
  { file with
    language := f.language
    packageName := f.packageName
    importNames := file.importNames.insertMany f.importNames
    metrics := file.metrics.insertMany f.metrics.toList
    lastEditor := f.lastEditor
    addedLines := f.addedLines
    modifiedLines := f.modifiedLines
    deletedLines := f.deletedLines
    hasFileData := true }

/-- Describes revisions one after another; they share the classes and functions created. -/
def describeFiles (f : FileFact) : List FileRevision → NamedIds → NamedIds → Edit Unit
  | [], _, _ => return ()
  | file :: rest, classes, functions => do
    let (ids, classes) ←
      attachClasses file.id ((← store).classesByName file.classes) f.classes [] classes
    linkAllSuperClasses ids f.classes
    let functions ←
      attachFunctions file.id ((← store).functionsByName file.functions) f.functions functions
    change fun s => s.saveFile (described f file)
    describeFiles f rest classes functions

/-- Takes in a file fact, and tells how many revisions it describes. -/
def ingestFile (f : FileFact) : Edit Nat := do
  let r ← announcedRepository f.repositoryName f.landscapeToken
  let revisions := (← store).filesByHash r.id f.fileHash
  if revisions.isEmpty then fail (.noRevision f.fileHash r.name)
  else
    describeFiles f revisions [] []
    return revisions.length

end Edit

end Cityscape
