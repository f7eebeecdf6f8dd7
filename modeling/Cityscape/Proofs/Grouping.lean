import Cityscape.Proofs.Branches
import Mathlib.Data.List.Induction
import Mathlib.Data.List.Permutation

/-!
# `Grouping`: the branches of a history are its commits, put in order and grouped

The branches are read off a history in one pass over its commits in order. What the drafts hold
after a part of the history is told by `BranchDraft.Hold`, and one more commit keeps it
(`BranchDraft.Hold.read`). So the pass comes to the commits grouped by branch
(`BranchView.ofHistory_eq_grouped`). The branches share the commits among them: each branch has its
own in order, and the branches stand in the order of their earliest commits (`BranchView.Groups`).
-/

namespace Cityscape

theorem eraseDups_concat {α : Type} [DecidableEq α] (l : List α) (x : α) :
    (l ++ [x]).eraseDups = if x ∈ l then l.eraseDups else l.eraseDups ++ [x] := by
  rw [List.eraseDups_append]
  by_cases hx : x ∈ l
  · simp [List.removeAll, hx]
  · have hself : ([x].removeAll l) = [x] := by simp [List.removeAll, hx]
    rw [hself, if_neg hx]
    rfl

/-! ## Records in order -/

namespace CommitRecord

variable {a b c : CommitRecord}

/-- The record may stand before the other one: those without a date come first, then the earlier
date counts, and where the dates are the same the smaller hash. -/
def NotAfter (a b : CommitRecord) : Prop :=
  match a.commitDate, b.commitDate with
  | none, none => (compare a.hash b.hash).isLE
  | none, some _ => True
  | some _, none => False
  | some x, some y => compare x y = .lt ∨ x = y ∧ (compare a.hash b.hash).isLE

theorem notAfter_iff : a.NotAfter b ↔ (byDate a b).isLE := by
  unfold NotAfter byDate
  cases a.commitDate with
  | none =>
    cases b.commitDate with
    | none => exact Iff.rfl
    | some y => exact iff_of_true trivial rfl
  | some x =>
    cases b.commitDate with
    | none => exact iff_of_false id nofun
    | some y =>
      have heq : compare x y = .eq ↔ x = y := Std.LawfulEqCmp.compare_eq_iff_eq
      rw [Ordering.isLE_then_iff_or]
      exact or_congr Iff.rfl (and_congr_left' heq.symm)

/-- The records put in order. -/
def inOrder (records : List CommitRecord) : List CommitRecord :=
  records.mergeSort fun a b => (byDate a b).isLE

theorem perm_inOrder (records : List CommitRecord) : (inOrder records).Perm records :=
  List.mergeSort_perm _ _

theorem pairwise_inOrder (records : List CommitRecord) : (inOrder records).Pairwise NotAfter :=
  (pairwise_mergeSort records).imp notAfter_iff.2

/-! ## Which branch is first -/

variable {part : List CommitRecord} {branch other : String}

/-- The commit is an earliest one of a branch. -/
structure Earliest (part : List CommitRecord) (branch : String) (c : CommitRecord) : Prop where
  mem : c ∈ part
  label : c.label = branch
  notAfter : ∀ x ∈ part, x.label = branch → c.NotAfter x

/-- No commit of the second branch comes before an earliest one of the first. -/
def StartsFirst (part : List CommitRecord) (branch other : String) : Prop :=
  ∃ c, Earliest part branch c ∧ ∀ x ∈ part, x.label = other → c.NotAfter x

section Later

variable (hlast : ∀ x ∈ part, x.NotAfter c)
include hlast

/-- The earliest commit of a branch is still the earliest when a later one has been read. -/
theorem Earliest.concat {x : CommitRecord} (h : Earliest part branch x) :
    Earliest (part ++ [c]) branch x where
  mem := List.mem_append_left _ h.mem
  label := h.label
  notAfter y hy hlabel := by
    rcases List.mem_append.1 hy with hy | hy
    · exact h.notAfter y hy hlabel
    · rw [List.mem_singleton.1 hy]
      exact hlast x h.mem

theorem StartsFirst.concat (h : StartsFirst part branch other) :
    StartsFirst (part ++ [c]) branch other := by
  obtain ⟨x, hx, hother⟩ := h
  refine ⟨x, hx.concat hlast, fun y hy hlabel => ?_⟩
  rcases List.mem_append.1 hy with hy | hy
  · exact hother y hy hlabel
  · rw [List.mem_singleton.1 hy]
    exact hlast x hx.mem

end Later

end CommitRecord

/-! ## Reading the branches in one pass -/

namespace BranchDraft

open CommitRecord

/-- The draft of a branch after a part of the history. -/
def ofBranch (lookup : String → String) (part : List CommitRecord) (name : String) : BranchDraft :=
  let own := part.filter fun c => c.label = name
  ⟨name, own.map hash, own.findSome? (pointSaid lookup)⟩

variable {lookup : String → String} {part : List CommitRecord} {drafts : List BranchDraft}
  {c : CommitRecord} {d : BranchDraft} {branch : String}

@[simp] theorem name_add : (d.add lookup c).name = d.name := rfl

theorem ofBranch_concat_self :
    ofBranch lookup (part ++ [c]) c.label = (ofBranch lookup part c.label).add lookup c := by
  unfold ofBranch add
  simp [List.filter_append, List.findSome?_append]

theorem ofBranch_concat_of_ne (h : branch ≠ c.label) :
    ofBranch lookup (part ++ [c]) branch = ofBranch lookup part branch := by
  unfold ofBranch
  simp [List.filter_append, Ne.symm h]

theorem ofBranch_of_new (h : ∀ x ∈ part, x.label ≠ branch) :
    ofBranch lookup part branch = { name := branch } := by
  have hnone : (part.filter fun x => x.label = branch) = [] := by
    rw [List.filter_eq_nil_iff]
    exact fun x hx => by simpa using h x hx
  unfold ofBranch
  rw [hnone]
  rfl

/-- Reading a commit changes the draft of its branch, or starts one. -/
theorem read_cases (lookup : String → String) (drafts : List BranchDraft) (c : CommitRecord)
    (hdistinct : (drafts.map name).Nodup) :
    (∃ before d after, drafts = before ++ d :: after ∧ d.name = c.label ∧
      read lookup drafts c = before ++ d.add lookup c :: after) ∨
    c.label ∉ drafts.map name ∧
      read lookup drafts c = drafts ++ [add lookup { name := c.label } c] := by
  unfold read
  by_cases hmem : c.label ∈ drafts.map name
  · left
    rw [if_pos hmem]
    obtain ⟨d, hd, hname⟩ := List.mem_map.1 hmem
    obtain ⟨before, after, rfl⟩ := List.append_of_mem hd
    refine ⟨before, d, after, rfl, hname, ?_⟩
    -- no other draft has the name
    rw [List.map_append, List.map_cons, List.nodup_middle, List.nodup_cons] at hdistinct
    have hother : ∀ l : List BranchDraft, l ⊆ before ++ after →
        (l.map fun e => if e.name = c.label then e.add lookup c else e) = l := by
      intro l hl
      refine (List.map_congr_left fun e he => if_neg fun hlabel => hdistinct.1 ?_).trans
        (List.map_id l)
      rw [hname, ← hlabel, ← List.map_append]
      exact List.mem_map_of_mem (hl he)
    rw [List.map_append, List.map_cons, if_pos hname, hother _ (List.subset_append_left _ _),
      hother _ (List.subset_append_right _ _)]
  · exact .inr ⟨hmem, if_neg hmem⟩

/-! ## What a pass comes to -/

/-- What the drafts hold after a part of the history. -/
structure Hold (lookup : String → String) (part : List CommitRecord) (drafts : List BranchDraft) :
    Prop where
  distinct : (drafts.map name).Nodup
  /-- The branches stand where their first commits do. -/
  names : drafts.map name = (part.map label).eraseDups
  drafted : ∀ d ∈ drafts, d = ofBranch lookup part d.name
  /-- No commit is lost, and none is there twice. -/
  perm : (drafts.flatMap commits).Perm (part.map hash)
  earliest : ∀ branch ∈ drafts.map name, ∃ x, Earliest part branch x
  order : (drafts.map name).Pairwise (StartsFirst part)

section Step

variable (hlast : ∀ x ∈ part, x.NotAfter c)
include hlast

theorem Hold.exists_earliest_concat (h : Hold lookup part drafts)
    (hmem : branch ∈ drafts.map name) : ∃ x, Earliest (part ++ [c]) branch x := by
  obtain ⟨x, hx⟩ := h.earliest branch hmem
  exact ⟨x, hx.concat hlast⟩

/-- A commit joins the draft of its branch. -/
theorem Hold.join {before after : List BranchDraft}
    (h : Hold lookup part (before ++ d :: after)) (hname : d.name = c.label) :
    Hold lookup (part ++ [c]) (before ++ d.add lookup c :: after) := by
  have hnames : (before ++ d.add lookup c :: after).map name
      = (before ++ d :: after).map name := by
    rw [List.map_append, List.map_append, List.map_cons, List.map_cons, name_add]
  have hdistinct := h.distinct
  rw [List.map_append, List.map_cons, List.nodup_middle, List.nodup_cons, ← List.map_append,
    hname] at hdistinct
  constructor
  case distinct =>
    rw [hnames]
    exact h.distinct
  case names =>
    have hold : c.label ∈ part.map label := by
      rw [← List.mem_eraseDups, ← h.names, ← hname]
      exact List.mem_map_of_mem (List.mem_append_right _ List.mem_cons_self)
    rw [hnames, h.names, List.map_append, List.map_singleton, eraseDups_concat, if_pos hold]
  case drafted =>
    have hother : ∀ e ∈ before ++ after, e = ofBranch lookup (part ++ [c]) e.name := by
      intro e he
      rw [ofBranch_concat_of_ne fun hlabel => hdistinct.1 (hlabel ▸ List.mem_map_of_mem he)]
      refine h.drafted e ?_
      rw [List.mem_append, List.mem_cons]
      exact (List.mem_append.1 he).imp id .inr
    intro e he
    rcases List.mem_append.1 he with he | he
    · exact hother e (List.mem_append_left _ he)
    rcases List.mem_cons.1 he with rfl | he
    · have hd := h.drafted d (List.mem_append_right _ List.mem_cons_self)
      rw [name_add, hname, ofBranch_concat_self, ← hname, ← hd]
    · exact hother e (List.mem_append_right _ he)
  case perm =>
    rw [List.flatMap_append, List.flatMap_cons, List.map_append, List.map_singleton]
    have hperm := h.perm.append_right [c.hash]
    rw [List.flatMap_append, List.flatMap_cons, List.append_assoc, List.append_assoc] at hperm
    refine List.Perm.trans (List.Perm.append_left _ ?_) hperm
    show ((d.commits ++ [c.hash]) ++ _).Perm _
    rw [List.append_assoc]
    exact List.perm_append_comm.append_left _
  case earliest =>
    rw [hnames]
    exact fun branch => h.exists_earliest_concat hlast
  case order =>
    rw [hnames]
    exact h.order.imp (StartsFirst.concat hlast)

/-- The first commit of a branch starts a draft. -/
theorem Hold.start (h : Hold lookup part drafts) (hnew : c.label ∉ drafts.map name) :
    Hold lookup (part ++ [c]) (drafts ++ [add lookup { name := c.label } c]) := by
  have hlabels : c.label ∉ part.map label := by
    rwa [← List.mem_eraseDups, ← h.names]
  have hfirst : Earliest (part ++ [c]) c.label c := by
    refine ⟨List.mem_append_right _ (List.mem_singleton_self c), rfl, fun y hy hlabel => ?_⟩
    rcases List.mem_append.1 hy with hy | hy
    · exact absurd (hlabel ▸ List.mem_map_of_mem hy) hlabels
    · rw [List.mem_singleton.1 hy, notAfter_iff]
      exact Std.ReflCmp.isLE_rfl
  constructor
  case distinct =>
    rw [List.map_append, List.map_singleton, name_add, List.nodup_append_comm]
    exact List.nodup_cons.2 ⟨hnew, h.distinct⟩
  case names =>
    rw [List.map_append, List.map_append, List.map_singleton, List.map_singleton,
      eraseDups_concat, if_neg hlabels, h.names, name_add]
  case drafted =>
    intro e he
    rcases List.mem_append.1 he with he | he
    · rw [ofBranch_concat_of_ne fun hlabel => hnew (hlabel ▸ List.mem_map_of_mem he)]
      exact h.drafted e he
    · rw [List.mem_singleton.1 he, name_add, ofBranch_concat_self, ofBranch_of_new]
      exact fun x hx hlabel => hlabels (hlabel ▸ List.mem_map_of_mem hx)
  case perm =>
    rw [List.flatMap_append, List.map_append]
    exact h.perm.append (List.Perm.refl _)
  case earliest =>
    intro branch hbranch
    rw [List.map_append, List.map_singleton, List.mem_append, List.mem_singleton] at hbranch
    rcases hbranch with hbranch | rfl
    · exact h.exists_earliest_concat hlast hbranch
    · exact ⟨c, hfirst⟩
  case order =>
    rw [List.map_append, List.map_singleton, name_add, List.pairwise_append]
    refine ⟨h.order.imp (StartsFirst.concat hlast), List.pairwise_singleton _ _, ?_⟩
    intro branch hbranch other hother
    obtain rfl : other = c.label := List.mem_singleton.1 hother
    obtain ⟨x, hx⟩ := h.earliest branch hbranch
    -- the branch is new, so its only commit is the one that has been read last
    refine ⟨x, hx.concat hlast, fun y hy hlabel => ?_⟩
    rcases List.mem_append.1 hy with hy | hy
    · exact absurd (hlabel ▸ List.mem_map_of_mem hy) hlabels
    · rw [List.mem_singleton.1 hy]
      exact hlast x hx.mem

/-- One more commit is read. -/
theorem Hold.read (h : Hold lookup part drafts) :
    Hold lookup (part ++ [c]) (read lookup drafts c) := by
  rcases read_cases lookup drafts c h.distinct with
    ⟨before, d, after, rfl, hname, hread⟩ | ⟨hnew, hread⟩
  · rw [hread]
    exact h.join hlast hname
  · rw [hread]
    exact h.start hlast hnew

end Step

/-- What the drafts hold when a history in order has been read. -/
theorem hold_foldl (lookup : String → String) {ordered : List CommitRecord}
    (hsorted : ordered.Pairwise NotAfter) :
    Hold lookup ordered (ordered.foldl (read lookup) []) := by
  induction ordered using List.reverseRecOn with
  | nil =>
    exact {
      distinct := .nil
      names := rfl
      drafted := fun _ hd => absurd hd List.not_mem_nil
      perm := .nil
      earliest := fun _ hd => absurd hd List.not_mem_nil
      order := .nil }
  | append_singleton part c ih =>
    obtain ⟨hpart, -, hlast⟩ := List.pairwise_append.1 hsorted
    rw [List.foldl_append]
    exact (ih hpart).read fun x hx => hlast x hx c (List.mem_singleton_self c)

end BranchDraft

/-! ## The branches of a history -/

namespace BranchView

open CommitRecord

variable {records : List CommitRecord} {elsewhere : SortedMap String String}

/-- The commits of a history grouped by branch. -/
def grouped (records : List CommitRecord) (elsewhere : SortedMap String String) :
    List BranchView :=
  ((inOrder records).map label).eraseDups.map fun branch =>
    (BranchDraft.ofBranch (branchOf records elsewhere) (inOrder records) branch).view

/-- Reading a history in one pass groups its commits. -/
theorem ofHistory_eq_grouped (records : List CommitRecord) (elsewhere : SortedMap String String) :
    ofHistory records elsewhere = grouped records elsewhere := by
  have hold := BranchDraft.hold_foldl (branchOf records elsewhere) (pairwise_inOrder records)
  unfold grouped
  rw [← hold.names, List.map_map]
  refine List.map_congr_left fun d hd => ?_
  rw [Function.comp_apply, ← hold.drafted d hd]

/-- The records are those of a branch, in order. -/
structure OwnInOrder (records : List CommitRecord) (branch : String) (own : List CommitRecord) :
    Prop where
  perm : own.Perm (records.filter fun c => c.label = branch)
  sorted : own.Pairwise NotAfter

/-- The branches share the commits of a history among them, in order. -/
structure Groups (records : List CommitRecord) (views : List BranchView) : Prop where
  distinct : (views.map name).Nodup
  labels : ∀ branch, branch ∈ views.map name ↔ branch ∈ records.map label
  /-- No commit is lost, and none is there twice. -/
  perm : (views.flatMap BranchView.commits).Perm (records.map hash)
  commits : ∀ v ∈ views, ∃ own, OwnInOrder records v.name own ∧ v.commits = own.map hash
  /-- The branches stand in the order of their earliest commits. -/
  order : (views.map name).Pairwise (StartsFirst records)

/-- A branch shows its own commits in order, and the first one that tells its point decides. -/
theorem exists_own_of_mem {v : BranchView} (hv : v ∈ ofHistory records elsewhere) :
    ∃ own, OwnInOrder records v.name own ∧ v.commits = own.map hash ∧
      v.branchPoint = (own.findSome? (pointSaid (branchOf records elsewhere))).getD .none := by
  rw [ofHistory_eq_grouped] at hv
  obtain ⟨branch, -, rfl⟩ := List.mem_map.1 hv
  exact ⟨(inOrder records).filter fun c => c.label = branch,
    ⟨(perm_inOrder records).filter _, (pairwise_inOrder records).filter _⟩, rfl, rfl⟩

/-- The branches of a history share its commits among them. -/
theorem ofHistory_groups (records : List CommitRecord) (elsewhere : SortedMap String String) :
    Groups records (ofHistory records elsewhere) := by
  have hold := BranchDraft.hold_foldl (branchOf records elsewhere) (pairwise_inOrder records)
  have hnames : (ofHistory records elsewhere).map name
      = (((inOrder records).foldl (BranchDraft.read (branchOf records elsewhere)) []).map
        BranchDraft.name) := List.map_map
  have hperm := perm_inOrder records
  constructor
  case distinct =>
    rw [hnames]
    exact hold.distinct
  case labels =>
    intro branch
    rw [hnames, hold.names, List.mem_eraseDups, (hperm.map label).mem_iff]
  case perm =>
    show (((inOrder records).foldl _ []).map BranchDraft.view).flatMap _ |>.Perm _
    rw [List.flatMap_map]
    exact hold.perm.trans (hperm.map hash)
  case commits =>
    intro v hv
    obtain ⟨own, hown, hcommits, -⟩ := exists_own_of_mem hv
    exact ⟨own, hown, hcommits⟩
  case order =>
    rw [hnames]
    refine hold.order.imp ?_
    rintro branch other ⟨c, hc, hother⟩
    exact ⟨c, ⟨hperm.mem_iff.1 hc.mem, hc.label, fun x hx => hc.notAfter x (hperm.mem_iff.2 hx)⟩,
      fun x hx => hother x (hperm.mem_iff.2 hx)⟩

/-- Each commit of a history is listed once, in the branch that it names or else in the default one;
each branch lists its commits in order, and the branches stand in the order of their earliest
commits. If no two commits have the same hash it does not matter in which order the history is
told. -/
theorem history_grouped (records : List CommitRecord) (elsewhere : SortedMap String String) :
    Groups records (ofHistory records elsewhere) ∧
      ((records.map hash).Nodup → ∀ records', records.Perm records' →
        ofHistory records' elsewhere = ofHistory records elsewhere) :=
  ⟨ofHistory_groups records elsewhere,
    fun hhashes _ hperm => (ofHistory_congr hperm hhashes elsewhere).symm⟩

theorem history_grouped_sample :
    let merge : CommitRecord := ⟨"c3", some ⟨3, 0⟩, none, ["c1", "c2"]⟩
    let fork : CommitRecord := ⟨"c2", some ⟨2, 0⟩, some "feature", ["c1"]⟩
    let start : CommitRecord := ⟨"c1", none, none, []⟩
    let told := [merge, fork, start]
    (told.map hash).Nodup ∧ told.Perm [start, merge, fork] ∧ Groups told (ofHistory told ∅) ∧
      ofHistory [start, merge, fork] ∅ = ofHistory told ∅ ∧
      (ofHistory told ∅).map BranchView.commits = [["c1", "c3"], ["c2"]] := by
  intro merge fork start told
  obtain ⟨hgroups, hany⟩ := history_grouped told ∅
  have hhashes : (told.map hash).Nodup := by decide
  have hperm : told.Perm [start, merge, fork] := by decide
  exact ⟨hhashes, hperm, hgroups, hany hhashes _ hperm, by cbv⟩

end BranchView
end Cityscape
