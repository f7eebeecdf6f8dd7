import Cityscape.Proofs.Sorted
import Cityscape.Query.CodeMetrics
import Mathlib.Data.List.Permutation

/-!
# `MetricEntries`: the metrics of an application as lists of entries

The metrics of an application come about one entry after another: a file, its functions, and on a
walk through its classes each class with its functions. So each of the three maps is made of a list
of entries (`CodeMetrics.ofCommit_eq`), of which the last one under a key is shown
(`SortedMap.find?_putMany`).
-/

namespace Cityscape

/-! ## Maps made of entries -/

namespace SortedMap

variable {α β : Type}

/-- Puts entries into a map one after another, each as it is rendered. -/
def putMany (m : SortedMap String β) (render : α → β) (entries : List (String × α)) :
    SortedMap String β :=
  entries.foldl (fun m e => m.put e.1 (render e.2)) m

theorem putMany_append (m : SortedMap String β) (render : α → β) (l l' : List (String × α)) :
    m.putMany render (l ++ l') = (m.putMany render l).putMany render l' :=
  List.foldl_append

/-- Under each key there is the last entry with this key. -/
theorem find?_putMany (render : α → β) (entries : List (String × α)) (key : String) :
    (putMany ∅ render entries).find? key
      = ((entries.filter fun e => e.1 = key).getLast?).map fun e => render e.2 := by
  induction entries using List.reverseRecOn with
  | nil => rfl
  | append_singleton entries e ih =>
    rw [putMany_append, List.filter_append]
    show ((putMany ∅ render entries).put e.1 (render e.2)).find? key = _
    rw [find?_put, ih]
    by_cases hkey : e.1 = key
    · simp [hkey]
    · simp [hkey, Ne.symm hkey]

end SortedMap

/-! ## The entries of a commit -/

namespace HydratedCommit

/-- The files of a commit that lie below a directory, with their paths. -/
def filesBelow (h : HydratedCommit) (root : NodeId) : List (String × HydratedFile) :=
  h.files.filterMap fun f => (h.pathBelow root f.file).map fun path => (path, f)

/-- The files that have the same path come in the order in which they are loaded. -/
theorem filter_filesBelow (h : HydratedCommit) (root : NodeId) (key : String) :
    ((h.filesBelow root).filter fun e => e.1 = key)
      = (h.files.filter fun f => h.pathBelow root f.file = some key).map fun f => (key, f) := by
  unfold filesBelow
  generalize h.files = files
  induction files with
  | nil => rfl
  | cons f files ih =>
    cases hpath : h.pathBelow root f.file with
    | none => simpa [hpath] using ih
    | some path =>
      by_cases hkey : path = key
      · simpa [hpath, hkey] using ih
      · simpa [hpath, hkey] using ih

end HydratedCommit

/-- Functions under the key of their owner. -/
def methodEntries (owner : String) (fs : List FunctionNode) : List (String × FunctionNode) :=
  fs.map fun g => (owner ++ "/" ++ g.name, g)

/-- The functions of a file at a path, and those of the classes that lie in it. -/
def Store.functionEntries (s : Store) (x : String × HydratedFile) : List (String × FunctionNode) :=
  methodEntries x.1 x.2.functions ++
    (s.classesShown x.1 x.2).flatMap fun c => methodEntries c.1 (s.methods c.2)

namespace CodeMetrics

/-- What is shown of a file, of a class and of a function. -/
def ofFile (f : HydratedFile) : FileMetrics := FileMetrics.ofMetrics f.file.metrics

@[inherit_doc ofFile] def ofClass (c : ClassNode) : ClassMetrics := ClassMetrics.ofMetrics c.metrics

@[inherit_doc ofFile] def ofMethod (g : FunctionNode) : MethodMetrics :=
  MethodMetrics.ofMetrics g.metrics

variable (s : Store) (m : CodeMetrics)

/-- Functions are added to the methods and to nothing else. -/
theorem foldl_addMethod (owner : String) (fs : List FunctionNode) :
    fs.foldl (addMethod owner) m =
      { m with methodMetrics := m.methodMetrics.putMany ofMethod (methodEntries owner fs) } := by
  induction fs generalizing m with
  | nil => rfl
  | cons g fs ih =>
    rw [List.foldl_cons, ih]
    rfl

/-- Classes are added with their functions. -/
theorem foldl_addClass (walk : List (String × ClassNode)) :
    walk.foldl (addClass s) m =
      { m with
        classMetrics := m.classMetrics.putMany ofClass walk
        methodMetrics := m.methodMetrics.putMany ofMethod
          (walk.flatMap fun c => methodEntries c.1 (s.methods c.2)) } := by
  induction walk generalizing m with
  | nil => rfl
  | cons x walk ih =>
    have hstep : addClass s m x = _ := foldl_addMethod _ x.1 (s.methods x.2)
    rw [List.foldl_cons, ih, hstep, List.flatMap_cons, SortedMap.putMany_append]
    rfl

/-- Files are added with their functions, and with the classes that lie in them and theirs. -/
theorem foldl_addFile (files : List (String × HydratedFile)) :
    files.foldl (fun m x => addFile s x.1 m x.2) m =
      { fileMetrics := m.fileMetrics.putMany ofFile files
        classMetrics := m.classMetrics.putMany ofClass
          (files.flatMap fun x => s.classesShown x.1 x.2)
        methodMetrics := m.methodMetrics.putMany ofMethod (files.flatMap s.functionEntries) } := by
  induction files generalizing m with
  | nil => rfl
  | cons x files ih =>
    rw [List.foldl_cons, ih, addFile, foldl_addMethod, foldl_addClass, List.flatMap_cons,
      List.flatMap_cons, SortedMap.putMany_append, SortedMap.putMany_append,
      Store.functionEntries, SortedMap.putMany_append]
    rfl

/-- The metrics of a commit are made of the entries of its files below the application. -/
theorem ofCommit_eq (root : NodeId) (h : HydratedCommit) :
    ofCommit s root h =
      { fileMetrics := .putMany ∅ ofFile (h.filesBelow root)
        classMetrics := .putMany ∅ ofClass
          ((h.filesBelow root).flatMap fun x => s.classesShown x.1 x.2)
        methodMetrics := .putMany ∅ ofMethod ((h.filesBelow root).flatMap s.functionEntries) } := by
  rw [← foldl_addFile s {}]
  unfold ofCommit HydratedCommit.filesBelow
  rw [List.foldl_filterMap]
  congr 1
  funext m f
  cases h.pathBelow root f.file <;> rfl

/-- Under each path the last file with this path is shown. -/
theorem find?_fileMetrics_ofCommit (root : NodeId) (h : HydratedCommit) (key : String) :
    (ofCommit s root h).fileMetrics.find? key
      = ((h.files.filter fun f => h.pathBelow root f.file = some key).getLast?).map ofFile := by
  rw [ofCommit_eq]
  show (SortedMap.putMany ∅ ofFile (h.filesBelow root)).find? key = _
  rw [SortedMap.find?_putMany, HydratedCommit.filter_filesBelow, List.getLast?_map, Option.map_map]
  rfl

end CodeMetrics

end Cityscape
