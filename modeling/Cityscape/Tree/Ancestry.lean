import Cityscape.Graph.Store

/-!
# `Ancestry`: from a file up to its root

Files and directories know their parents. The directories above a file are met by going from
parent to parent. The walk ends at a directory without a parent, at one that does not exist,
and at one that has been met before, so it also ends where the parents form a circle.

Main statement: every step leaves fewer directories to be met (`length_others_lt`).
-/

namespace Cityscape

/-- The directories other than the one with the given id. -/
def others (ds : List Directory) (id : NodeId) : List Directory := ds.filter fun d => d.id ≠ id

theorem length_others_lt {ds : List Directory} {id : NodeId} {d : Directory}
    (h : ds.find? (fun d => d.id = id) = some d) : (others ds id).length < ds.length := by
  have hd := List.find?_some h
  have hm := List.mem_of_find?_eq_some h
  exact List.length_filter_lt_length_iff_exists.2 ⟨d, hm, by simpa using hd⟩

/-- The directories met by going from parent to parent, the nearest first. Only those in `ds`
can be met, and each of them once. -/
def climb (ds : List Directory) (next : Option NodeId) : List Directory :=
  match next with
  | none => []
  | some id =>
    match h : ds.find? fun d => d.id = id with
    | none => []
    | some d =>
      have := length_others_lt h
      d :: climb (others ds id) d.parent
termination_by ds.length

namespace Store

/-- The directories above a file, the nearest first. -/
def ancestors (s : Store) (f : FileRevision) : List Directory :=
  climb s.directories.toList f.parent

/-- The names on the way from the root to a file. The root, which has no parent, is not part of
the path. -/
def relativePath (s : Store) (f : FileRevision) : List String :=
  let below := (s.ancestors f).takeWhile fun d => d.parent.isSome
  (below.map Directory.name).reverse ++ [f.name]

end Store

end Cityscape
