import Cityscape.Calendar.Instant
import Cityscape.History.Commits
import Cityscape.Json.Record

/-!
# `BranchView`: the branches of a history

The branches are read off a history in one pass over its commits in order. Each commit joins the
draft of its branch, or starts a draft behind all others if it is the first one. A branch starts
where its first commit that has no parent, or a parent on another branch, says so.
-/

namespace Cityscape

/-- The commit from which a branch starts, and the branch of that commit. -/
structure BranchPoint where
  name : String
  commitId : String
deriving DecidableEq

/-- The point of a branch that starts from nothing. -/
def BranchPoint.none : BranchPoint := ⟨noParent, ""⟩

/-- A branch with its commits in order. -/
structure BranchView where
  name : String
  commits : List String
  branchPoint : BranchPoint
deriving DecidableEq

/-- A commit of a history: its branch, if it is known, and the hashes of its parents. -/
structure CommitRecord where
  hash : String
  commitDate : Option Instant
  branch : Option String
  parents : List String
deriving DecidableEq

namespace CommitRecord

/-- Records are ordered by date, those without a date first, and then by hash. -/
def byDate (a b : CommitRecord) : Ordering :=
  (compare a.commitDate b.commitDate).then (compare a.hash b.hash)

/-- The branch a record is counted under. -/
def label (c : CommitRecord) : String := c.branch.getD defaultBranch

/-- The branch of a commit: the one in the last record of that hash that names one, else the
one in `elsewhere`, else the default branch. -/
def branchOf (records : List CommitRecord) (elsewhere : SortedMap String String)
    (hash : String) : String :=
  match (records.filter fun c => c.hash = hash).filterMap CommitRecord.branch |>.getLast? with
  | some b => b
  | none => (elsewhere.find? hash).getD defaultBranch

/-- What a record says of the point of its branch: nothing from nowhere if it has no parents,
else its first parent on another branch, if there is one. -/
def pointSaid (lookup : String → String) (c : CommitRecord) : Option BranchPoint :=
  if c.parents.isEmpty then some .none
  else (c.parents.find? fun p => lookup p ≠ c.label).map fun p => ⟨lookup p, p⟩

end CommitRecord

/-- A branch of a history that has been read in part: its commits so far, and its point if one of
them has told it. -/
structure BranchDraft where
  name : String
  commits : List String := []
  point : Option BranchPoint := none

namespace BranchDraft

/-- The draft with one more commit. A point that has been told stays. -/
def add (lookup : String → String) (d : BranchDraft) (c : CommitRecord) : BranchDraft :=
  { d with commits := d.commits ++ [c.hash], point := d.point.or (c.pointSaid lookup) }

/-- Reads a commit: it joins the draft of its branch, or starts one behind the others. -/
def read (lookup : String → String) (drafts : List BranchDraft) (c : CommitRecord) :
    List BranchDraft :=
  if c.label ∈ drafts.map name then
    drafts.map fun d => if d.name = c.label then d.add lookup c else d
  else drafts ++ [add lookup { name := c.label } c]

/-- The branch, when nothing more is to be read. -/
def view (d : BranchDraft) : BranchView := ⟨d.name, d.commits, d.point.getD .none⟩

end BranchDraft

/-- The branches of a history, in the order of their first commits. -/
def BranchView.ofHistory (records : List CommitRecord) (elsewhere : SortedMap String String) :
    List BranchView :=
  let ordered := records.mergeSort fun a b => (CommitRecord.byDate a b).isLE
  let drafts := ordered.foldl (BranchDraft.read (CommitRecord.branchOf records elsewhere)) []
  drafts.map BranchDraft.view

/-! ## JSON forms -/

/-- The JSON form of a branch point. -/
def BranchPoint.codec : Codec BranchPoint :=
  (Record.field (.required "name" .text) <|
    .field (.required "commitId" .text) .done).codec.iso
    (fun (name, commitId, ()) => { name, commitId })
    (fun p => (p.name, p.commitId, ()))

/-- The JSON form of a branch view. -/
def BranchView.codec : Codec BranchView :=
  (Record.field (.required "name" .text) <|
    .field (.required "commits" (.list .text)) <|
    .field (.required "branchPoint" BranchPoint.codec) .done).codec.iso
    (fun (name, commits, branchPoint, ()) => { name, commits, branchPoint })
    (fun b => (b.name, b.commits, b.branchPoint, ()))

end Cityscape
