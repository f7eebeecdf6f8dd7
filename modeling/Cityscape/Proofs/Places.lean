import Cityscape.Proofs.Growth
import Cityscape.Proofs.Names

/-!
# `Places`: which file is at a path

A path below a directory leads to a place, which is the top of a tree and the names from there on.
A file keeps its place for ever, and resolving a path ends at the file with the least id at its
place (`Store.Sound.resolve_fileAt`). In the same way the function of a file that has a name is the
one with the least id, and so is the function with a qualified name that spans call.
-/

namespace Cityscape

namespace Store

variable {owner : NodeId → String} {n m : Nat} {s s' s'' : Store}

/-! ## Places -/

/-- Where a file is: the top of its tree, and its path from there. -/
def place (s : Store) (f : FileRevision) : Option NodeId × List String :=
  (s.topAbove f.parent, s.relativePath f)

/-- Where a path below a directory leads. -/
def placeBelow (s : Store) (root : NodeId) (path : List String) : Option NodeId × List String :=
  (s.topAbove (some root), s.namesAbove (some root) ++ path)

theorem Sound.place_of_grows (hs : s.Sound owner n) (hs' : s'.Sound owner m) (g : s.Grows s')
    {f f' : FileRevision} (hf : f ∈ s.files) (hk : f.Kept f') : s'.place f' = s.place f :=
  Prod.ext (hs.fileTop_of_grows hs' g hf hk) (hs.relativePath_of_grows hs' g hf hk)

theorem Sound.placeBelow_of_grows (hs : s.Sound owner n) (hs' : s'.Sound owner m)
    (g : s.Grows s') {d : Directory} (hd : d ∈ s.directories) (path : List String) :
    s'.placeBelow d.id path = s.placeBelow d.id path := by
  unfold placeBelow
  rw [hs.trees.topAbove_of_grows hs'.trees g.directories hd,
    hs.trees.namesAbove_of_grows hs'.trees g.directories hd]

/-- Every tree has a top that exists. -/
theorem Sound.exists_topAbove (hs : s.Sound owner n) :
    ∀ d ∈ s.directories, ∃ top ∈ s.directories, s.topAbove (some d.id) = some top.id := by
  intro d hd
  obtain ⟨top, htop, hnone, hleads⟩ := hs.trees.exists_top d hd
  have habove := hs.trees.topAbove_of_leads htop hleads
  exact ⟨top, htop, habove.trans (hs.trees.topAbove_top htop hnone)⟩

/-- The files at the end of a path below a directory are those at its place. -/
theorem Sound.leads_iff_place (hs : s.Sound owner n) {root : Directory}
    (hroot : root ∈ s.directories) {allowed : NodeId → Bool} {before : List String}
    {name : String} {f : FileRevision} :
    (∃ e, s.Leads root before e ∧ f ∈ s.filesNamed allowed e name) ↔
      f ∈ s.files ∧ allowed f.id ∧ s.place f = s.placeBelow root.id (before ++ [name]) := by
  unfold place placeBelow
  constructor
  case mp =>
    rintro ⟨e, hleads, hf⟩
    obtain ⟨hmem, hparent, -⟩ := hs.of_filesNamed (mem_of_leads hroot hleads) hf
    obtain ⟨-, hallowed, -, hname⟩ := mem_filesNamed.1 hf
    refine ⟨hmem, hallowed, ?_⟩
    rw [relativePath_eq, hparent, hname, hs.trees.topAbove_of_leads hroot hleads,
      hs.trees.namesAbove_of_leads hroot hleads, List.append_assoc]
  case mpr =>
    rintro ⟨hmem, hallowed, hplace⟩
    obtain ⟨htop, hpath⟩ := Prod.ext_iff.1 hplace
    obtain ⟨p, e, hp, he, hlisted⟩ := (hs.fitting.files f hmem).parent
    have hemem := Sorted.mem_of_get? he
    obtain rfl := Sorted.key_of_get? he
    rw [relativePath_eq, ← List.append_assoc, hp] at hpath
    obtain ⟨hnames, hname⟩ := List.append_inj' hpath rfl
    obtain ⟨top, htopmem, habove⟩ := hs.exists_topAbove root hroot
    rw [hp, habove] at htop
    -- from the top the names lead through the root, of which there is but one
    have hdown := hs.trees.leads_of_topAbove htopmem e hemem htop
    rw [hnames, leads_append] at hdown
    obtain ⟨d, hd, hleads⟩ := hdown
    obtain rfl :=
      hs.trees.leads_unique htopmem hd (hs.trees.leads_of_topAbove htopmem root hroot habove)
    exact ⟨e, hleads, mem_filesNamed.2
      ⟨hlisted, hallowed, Sorted.get?_key hmem, List.singleton_inj.1 hname⟩⟩

/-- The file at a path below a directory; of several that are allowed the one with the least
id. -/
def fileAt (s : Store) (allowed : NodeId → Bool) (root : NodeId) (path : List String) :
    Option NodeId :=
  (s.files.toList.find? fun f => allowed f.id ∧ s.place f = s.placeBelow root path).map
    FileRevision.id

theorem fileAt_eq_none_iff {allowed : NodeId → Bool} {root : NodeId} {path : List String} :
    s.fileAt allowed root path = none ↔
      ∀ f ∈ s.files, allowed f.id → s.place f ≠ s.placeBelow root path := by
  unfold fileAt
  rw [Option.map_eq_none_iff, List.find?_eq_none]
  simp [Sorted.mem_toList]

end Store

/-- The file that resolving a path has ended at. -/
def Resolution.file? (r : Resolution) : Option NodeId :=
  match r.existing with
  | .file f => some f.id
  | .directory _ => none

namespace Store

variable {owner : NodeId → String} {n m : Nat} {s s' s'' : Store}

/-- Resolving a path ends at the file at its place, if there is one. -/
theorem Sound.resolve_fileAt (hs : s.Sound owner n) {root : Directory}
    (hroot : root ∈ s.directories) {path : List String} (hne : path ≠ []) {scope : Scope}
    {allowed : NodeId → Bool} (hallowed : s.allowedIn scope = .ok allowed) :
    ∃ r, s.resolve root.id path scope = .ok r ∧ Found s allowed root path r ∧
      s.fileAt allowed root.id path = r.file? := by
  obtain ⟨r, hr, hfound⟩ := resolve_spec (Sorted.get?_key hroot) hne hallowed
  refine ⟨r, hr, hfound, ?_⟩
  have hsplit : path = path.dropLast ++ [path.getLast hne] :=
    (List.dropLast_concat_getLast hne).symm
  -- whatever file is at the place, resolving has found one that is not newer
  have hleast : ∀ g ∈ s.files, allowed g.id → s.place g = s.placeBelow root.id path →
      ∃ f, r = ⟨.file f, []⟩ ∧ f.id.val ≤ g.id.val := by
    intro g hg hgallowed hplace
    rw [hsplit] at hplace
    obtain ⟨e, hleads, hnamed⟩ := (hs.leads_iff_place hroot).2 ⟨hg, hgallowed, hplace⟩
    exact file_of_resolve (Sorted.get?_key hroot) hallowed hr _ hsplit hleads hnamed
  cases hfound with
  | directory before hpath leads blocked =>
    refine fileAt_eq_none_iff.2 fun g hg hgallowed hplace => ?_
    obtain ⟨f, hf, -⟩ := hleast g hg hgallowed hplace
    cases hf
  | @file before name e f hpath leads mem =>
    obtain ⟨hf, hfallowed, hplace⟩ := (hs.leads_iff_place hroot).1 ⟨e, leads, mem⟩
    rw [← hpath] at hplace
    have hfind : s.files.toList.find?
        (fun f => allowed f.id ∧ s.place f = s.placeBelow root.id path) = some f := by
      refine (find?_eq_some_iff_least (s.files.ascending.imp NodeId.compare_eq_lt.1)).2
        ⟨⟨hf, by simp [hfallowed, hplace]⟩, fun g hg hP => ?_⟩
      obtain ⟨hgallowed, hgplace⟩ : allowed g.id ∧ s.place g = s.placeBelow root.id path := by
        simpa using hP
      obtain ⟨f', hf', hle⟩ := hleast g hg hgallowed hgplace
      cases hf'
      exact hle
    unfold fileAt
    rw [hfind]
    rfl

/-! ## Functions of files -/

/-- The function of a file that has a name; of several the one with the least id. -/
def functionNamed (s : Store) (file : NodeId) (name : String) : Option NodeId :=
  (s.files.get? file).bind fun f =>
    (s.functions.toList.find? fun g => f.functions.contains g.id ∧ g.name = name).map
      FunctionNode.id

/-- The paths of the files that a function is in. -/
def pathsOf (s : Store) (function : NodeId) : SortedSet (List String) :=
  Sorted.ofList <| (s.files.toList.filter fun f => f.functions.contains function).map s.relativePath

theorem mem_pathsOf {function : NodeId} {path : List String} :
    path ∈ s.pathsOf function ↔
      ∃ f ∈ s.files, function ∈ f.functions ∧ s.relativePath f = path := by
  unfold pathsOf
  rw [SortedSet.mem_ofList]
  simp only [List.mem_map, List.mem_filter, Sorted.mem_toList, SortedSet.contains_iff, and_assoc]

theorem pathsOf_eq_empty {function : NodeId} (h : ∀ f ∈ s.files, function ∉ f.functions) :
    s.pathsOf function = ∅ := by
  refine SortedSet.ext_mem fun path => ?_
  rw [mem_pathsOf]
  constructor
  · rintro ⟨f, hf, hmem, -⟩
    exact absurd hmem (h f hf)
  · exact fun hpath => absurd hpath (Sorted.not_mem_empty path)

theorem mem_of_functionNamed {f : FileRevision} (hf : f ∈ s.files) {name : String} {id : NodeId}
    (h : s.functionNamed f.id name = some id) :
    ∃ g ∈ s.functions, g.id = id ∧ g.id ∈ f.functions ∧ g.name = name := by
  unfold functionNamed at h
  rw [Sorted.get?_key hf, Option.bind_some] at h
  obtain ⟨g, hg, rfl⟩ := Option.map_eq_some_iff.1 h
  obtain ⟨hmem, hname⟩ : f.functions.contains g.id ∧ g.name = name := by
    simpa using List.find?_some hg
  exact ⟨g, List.mem_of_find?_eq_some hg, rfl, SortedSet.contains_iff.1 hmem, hname⟩

theorem functionNamed_eq {f : FileRevision} {id : NodeId} (hf : s.files.get? id = some f)
    (name : String) :
    s.functionNamed id name = s.functions.named FunctionNode.name f.functions name := by
  unfold functionNamed Sorted.named
  rw [hf, Option.bind_some]

/-! ## Functions of spans -/

theorem mem_tracedFunctionIds {token : String} {id : NodeId} :
    id ∈ s.tracedFunctionIds token ↔ ∃ p ∈ s.spans, p.token = token ∧ p.function = some id := by
  unfold tracedFunctionIds
  rw [SortedSet.mem_ofList]
  simp only [List.mem_filterMap, List.mem_filter, Sorted.mem_toList, decide_eq_true_eq, and_assoc]

/-- Of the functions with a qualified name that spans call, the one with the least id is found. -/
theorem findTracedFunction_eq_some_iff {token fqn : String} {g : FunctionNode} :
    s.findTracedFunction token fqn = some g ↔
      (g ∈ s.functions ∧ g.id ∈ s.tracedFunctionIds token ∧ g.fqn = some fqn) ∧
        ∀ z ∈ s.functions, z.id ∈ s.tracedFunctionIds token → z.fqn = some fqn →
          g.id.val ≤ z.id.val := by
  have hmem : ∀ z, z ∈ (s.tracedFunctionIds token).toList.filterMap s.functions.get? ↔
      z ∈ s.functions ∧ z.id ∈ s.tracedFunctionIds token := fun z => by
    rw [List.mem_filterMap]
    constructor
    case mp =>
      rintro ⟨id, hid, hz⟩
      obtain rfl := Sorted.key_of_get? hz
      exact ⟨Sorted.mem_of_get? hz, hid⟩
    case mpr => exact fun ⟨hz, hid⟩ => ⟨z.id, hid, Sorted.get?_key hz⟩
  have hascending : ((s.tracedFunctionIds token).toList.filterMap s.functions.get?).Pairwise
      fun a b => a.id.val < b.id.val := by
    refine List.Pairwise.filterMap _ ?_ (s.tracedFunctionIds token).ascending
    intro i j hlt a ha b hb
    rw [Sorted.key_of_get? ha, Sorted.key_of_get? hb]
    exact NodeId.compare_eq_lt.1 hlt
  unfold findTracedFunction
  rw [find?_eq_some_iff_least hascending]
  simp only [hmem, decide_eq_true_eq, and_assoc, and_imp]

theorem findTracedFunction_eq_none_iff {token fqn : String} :
    s.findTracedFunction token fqn = none ↔
      ∀ z ∈ s.functions, z.id ∈ s.tracedFunctionIds token → z.fqn ≠ some fqn := by
  unfold findTracedFunction
  simp only [List.find?_eq_none, List.mem_filterMap, decide_eq_true_eq]
  constructor
  case mp => exact fun h z hz hid => h z ⟨z.id, hid, Sorted.get?_key hz⟩
  case mpr =>
    rintro h z ⟨id, hid, hz⟩
    obtain rfl := Sorted.key_of_get? hz
    exact h z (Sorted.mem_of_get? hz) hid

end Store
end Cityscape
