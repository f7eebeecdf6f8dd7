import Cityscape.History.Commits
import Cityscape.Tree.Ancestry

/-!
# `Hydration`: a commit with everything below it

A hydrated commit holds the commit, its files with their classes and functions, and every
directory above one of its files. Directories are loaded file by file; a walk upwards stops at
the first directory that an earlier file has loaded.
-/

namespace Cityscape

/-- A class with its functions. -/
structure HydratedClass where
  node : ClassNode
  functions : List FunctionNode
deriving DecidableEq

/-- A file with its classes, and its functions outside of classes. -/
structure HydratedFile where
  file : FileRevision
  classes : List HydratedClass
  functions : List FunctionNode
deriving DecidableEq

/-- A commit with its files and the directories above them. -/
structure HydratedCommit where
  commit : Commit
  files : List HydratedFile
  directories : Sorted Directory.id
deriving DecidableEq

namespace HydratedCommit

/-- The directory that contains a file, if it is loaded. -/
def parentOf (h : HydratedCommit) (f : FileRevision) : Option Directory :=
  f.parent.bind h.directories.get?

/-- The loaded directories above a file, the nearest first. -/
def ancestors (h : HydratedCommit) (f : FileRevision) : List Directory :=
  climb h.directories.toList f.parent

end HydratedCommit

/-- The directories above the given files. Those of a file are taken from the directories that
no earlier file has led to. -/
def directoriesAbove (ds : List Directory) : List FileRevision → List Directory
  | [] => []
  | f :: fs =>
    let met := climb ds f.parent
    met ++ directoriesAbove (ds.filter fun d => d ∉ met) fs

namespace Store

/-- A class with those of its functions that exist. -/
def hydrateClass (s : Store) (c : ClassNode) : HydratedClass :=
  ⟨c, c.functions.toList.filterMap s.functions.get?⟩

/-- A file with those of its classes and functions that exist. -/
def hydrateFile (s : Store) (f : FileRevision) : HydratedFile where
  file := f
  classes := (f.classes.toList.filterMap s.classes.get?).map s.hydrateClass
  functions := f.functions.toList.filterMap s.functions.get?

/-- A commit with those of its files that exist. -/
def hydrate (s : Store) (c : Commit) : HydratedCommit :=
  let files := c.fileRevisions.toList.filterMap s.files.get?
  { commit := c
    files := files.map s.hydrateFile
    directories := Sorted.ofList (directoriesAbove s.directories.toList files) }

/-- The commit of a landscape with the given hash, hydrated. -/
def loadCommit (s : Store) (hash token : String) : Except Fault HydratedCommit :=
  match s.findCommit token hash with
  | some c => .ok (s.hydrate c)
  | none => .error (.unknownCommit hash)

/-- The newest commit of each repository of a landscape, hydrated; repositories without commits
are left out. -/
def loadLatest (s : Store) (token : String) : List HydratedCommit :=
  ((s.repositoriesOf token).filterMap s.mostRecentCommit).map s.hydrate

end Store

end Cityscape
