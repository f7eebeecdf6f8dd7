import Cityscape.Proofs.Grouping

/-!
# `BranchPoints`: a branch starts where its first deciding commit says

A commit decides on the point of its branch if it has no parents, or a parent that lives on another
branch (`CommitRecord.Decides`). The first of the commits of a branch that does so is believed, and
where none does the branch starts from nothing (`BranchView.Declared`). So a branch never starts
from itself; and if each commit is known once, a branch starts from the branch that lists the
commit of its point.
-/

namespace Cityscape

/-! ## The branch of a commit -/

namespace CommitRecord

variable {records : List CommitRecord} {elsewhere : SortedMap String String} {hash branch : String}
  {c : CommitRecord} {point : BranchPoint}

/-- The branch that a commit lives on. -/
inductive LivesOn (records : List CommitRecord) (elsewhere : SortedMap String String)
    (hash : String) : String → Prop
  /-- The last record of the commit that names a branch is believed. -/
  | recorded {earlier later : List CommitRecord} {c : CommitRecord} {branch : String}
    (split : records = earlier ++ c :: later) (named : c.hash = hash ∧ c.branch = some branch)
    (last : ∀ d ∈ later, d.hash = hash → d.branch = none) :
    LivesOn records elsewhere hash branch
  /-- If there is none, it is known from elsewhere. -/
  | elsewhere {branch : String} (unnamed : ∀ c ∈ records, c.hash = hash → c.branch = none)
    (found : elsewhere.find? hash = some branch) : LivesOn records elsewhere hash branch
  /-- If nothing is known, it is the default branch. -/
  | unknown (unnamed : ∀ c ∈ records, c.hash = hash → c.branch = none)
    (notFound : elsewhere.find? hash = none) : LivesOn records elsewhere hash defaultBranch

/-- The branches that the records of a hash name. -/
def branchesNamed (records : List CommitRecord) (hash : String) : List String :=
  records.filterMap fun c => if c.hash = hash then c.branch else none

theorem branchOf_eq (records : List CommitRecord) (elsewhere : SortedMap String String)
    (hash : String) :
    branchOf records elsewhere hash
      = (branchesNamed records hash).getLast?.getD ((elsewhere.find? hash).getD defaultBranch) := by
  have hnamed : (records.filter fun c => c.hash = hash).filterMap CommitRecord.branch
      = branchesNamed records hash := by
    unfold branchesNamed
    rw [List.filterMap_filter]
    simp
  unfold branchOf
  rw [hnamed]
  cases (branchesNamed records hash).getLast? <;> rfl

theorem branchesNamed_eq_nil_iff :
    branchesNamed records hash = [] ↔ ∀ c ∈ records, c.hash = hash → c.branch = none := by
  unfold branchesNamed
  simp [List.filterMap_eq_nil_iff]

theorem branchesNamed_eq_concat_iff :
    (∃ l, branchesNamed records hash = l ++ [branch]) ↔
      ∃ earlier c later, records = earlier ++ c :: later ∧
        (c.hash = hash ∧ c.branch = some branch) ∧ ∀ d ∈ later, d.hash = hash → d.branch = none := by
  constructor
  · rintro ⟨l, hl⟩
    obtain ⟨front, back, rfl, -, hback⟩ := List.filterMap_eq_append_iff.1 hl
    obtain ⟨skipped, c, later, rfl, -, hc, hlater⟩ := List.filterMap_eq_cons_iff.1 hback
    refine ⟨front ++ skipped, c, later, (List.append_assoc ..).symm, ?_, ?_⟩
    · split at hc
      · exact ⟨‹_›, hc⟩
      · cases hc
    · exact branchesNamed_eq_nil_iff.1 hlater
  · rintro ⟨earlier, c, later, rfl, ⟨rfl, hc⟩, hlater⟩
    have hnil : branchesNamed later c.hash = [] := branchesNamed_eq_nil_iff.2 hlater
    refine ⟨branchesNamed earlier c.hash, ?_⟩
    unfold branchesNamed at hnil ⊢
    rw [List.filterMap_append, List.filterMap_cons, if_pos rfl, hc, hnil]

/-- Every commit lives on one branch, the one that is looked up. -/
theorem livesOn_iff :
    LivesOn records elsewhere hash branch ↔ branchOf records elsewhere hash = branch := by
  rw [branchOf_eq]
  constructor
  · rintro (⟨hsplit, hnamed, hlast⟩ | ⟨hunnamed, hfound⟩ | ⟨hunnamed, hfound⟩)
    · obtain ⟨l, hl⟩ := branchesNamed_eq_concat_iff.2 ⟨_, _, _, hsplit, hnamed, hlast⟩
      rw [hl, List.getLast?_concat]
      rfl
    · rw [branchesNamed_eq_nil_iff.2 hunnamed, hfound]
      rfl
    · rw [branchesNamed_eq_nil_iff.2 hunnamed, hfound]
      rfl
  · rintro rfl
    cases hlast : (branchesNamed records hash).getLast? with
    | some b =>
      obtain ⟨earlier, c, later, hsplit, hnamed, hlater⟩ :=
        branchesNamed_eq_concat_iff.1 (List.getLast?_eq_some_iff.1 hlast)
      exact .recorded hsplit hnamed hlater
    | none =>
      have hunnamed := branchesNamed_eq_nil_iff.1 (List.getLast?_eq_none_iff.1 hlast)
      cases hfound : elsewhere.find? hash with
      | some b => exact .elsewhere hunnamed hfound
      | none => exact .unknown hunnamed hfound

/-! ## What a commit says of the point of its branch -/

/-- The commit decides on the point of its branch: it has no parents, or one on another branch. -/
def Decides (records : List CommitRecord) (elsewhere : SortedMap String String)
    (c : CommitRecord) : Prop :=
  c.parents = [] ∨ ∃ p ∈ c.parents, ∃ branch, LivesOn records elsewhere p branch ∧ branch ≠ c.label

theorem isSome_pointSaid_iff :
    (c.pointSaid (branchOf records elsewhere)).isSome ↔ c.Decides records elsewhere := by
  unfold pointSaid Decides
  by_cases hparents : c.parents = []
  · rw [if_pos (List.isEmpty_iff.2 hparents)]
    exact iff_of_true rfl (.inl hparents)
  · rw [if_neg (mt List.isEmpty_iff.1 hparents), Option.isSome_map, List.find?_isSome,
      or_iff_right hparents]
    simp only [livesOn_iff, exists_eq_left', decide_not, Bool.not_eq_true', decide_eq_false_iff_not,
      ne_eq]

/-- A commit with parents says that its branch starts from its first parent on another branch. -/
structure StartsFrom (records : List CommitRecord) (elsewhere : SortedMap String String)
    (c : CommitRecord) (point : BranchPoint) : Prop where
  parent : ∃ before after, c.parents = before ++ point.commitId :: after ∧
    ∀ p ∈ before, LivesOn records elsewhere p c.label
  branch : LivesOn records elsewhere point.commitId point.name
  other : point.name ≠ c.label

theorem pointSaid_eq_some_iff :
    c.pointSaid (branchOf records elsewhere) = some point ↔
      c.parents = [] ∧ point = .none ∨ c.StartsFrom records elsewhere point := by
  unfold pointSaid
  by_cases hparents : c.parents = []
  · rw [if_pos (List.isEmpty_iff.2 hparents), Option.some.injEq]
    constructor
    · exact fun h => .inl ⟨hparents, h.symm⟩
    · rintro (⟨-, rfl⟩ | h)
      · rfl
      · obtain ⟨before, after, hsplit, -⟩ := h.parent
        rw [hparents] at hsplit
        exact absurd hsplit.symm (List.append_ne_nil_of_right_ne_nil _ (List.cons_ne_nil _ _))
  · rw [if_neg (mt List.isEmpty_iff.1 hparents), Option.map_eq_some_iff,
      or_iff_right fun h => hparents h.1]
    constructor
    · rintro ⟨p, hp, rfl⟩
      obtain ⟨hother, before, after, hsplit, hbefore⟩ := List.find?_eq_some_iff_append.1 hp
      refine ⟨⟨before, after, hsplit, fun q hq => ?_⟩, livesOn_iff.2 rfl, of_decide_eq_true hother⟩
      exact livesOn_iff.2 (by simpa using hbefore q hq)
    · rintro ⟨⟨before, after, hsplit, hbefore⟩, hbranch, hother⟩
      have hname := livesOn_iff.1 hbranch
      refine ⟨point.commitId, List.find?_eq_some_iff_append.2 ⟨?_, before, after, hsplit, ?_⟩, ?_⟩
      · rw [hname]
        exact decide_eq_true hother
      · exact fun q hq => by simpa using livesOn_iff.1 (hbefore q hq)
      · rw [hname]

end CommitRecord

/-! ## The point of a branch -/

namespace BranchView

open CommitRecord

variable {records : List CommitRecord} {elsewhere : SortedMap String String} {v : BranchView}

/-- The commit is the first one that decides. -/
def FirstDecides (records : List CommitRecord) (elsewhere : SortedMap String String)
    (own : List CommitRecord) (c : CommitRecord) : Prop :=
  ∃ earlier later, own = earlier ++ c :: later ∧ c.Decides records elsewhere ∧
    ∀ d ∈ earlier, ¬d.Decides records elsewhere

/-- The point that is declared by the commits of a branch. -/
inductive Declared (records : List CommitRecord) (elsewhere : SortedMap String String)
    (own : List CommitRecord) : BranchPoint → Prop
  | undecided (none : ∀ c ∈ own, ¬c.Decides records elsewhere) :
    Declared records elsewhere own .none
  | start {c : CommitRecord} (first : FirstDecides records elsewhere own c)
    (parents : c.parents = []) : Declared records elsewhere own .none
  | fork {c : CommitRecord} {point : BranchPoint} (first : FirstDecides records elsewhere own c)
    (parent : c.StartsFrom records elsewhere point) : Declared records elsewhere own point

/-- The first commit that tells the point of its branch declares it. -/
theorem declared_findSome? (records : List CommitRecord) (elsewhere : SortedMap String String)
    (own : List CommitRecord) :
    Declared records elsewhere own
      ((own.findSome? (pointSaid (branchOf records elsewhere))).getD .none) := by
  have hnone : ∀ c : CommitRecord,
      c.pointSaid (branchOf records elsewhere) = none → ¬c.Decides records elsewhere := by
    intro c hc hdecides
    rw [← isSome_pointSaid_iff, hc] at hdecides
    cases hdecides
  cases hpoint : own.findSome? (pointSaid (branchOf records elsewhere)) with
  | none => exact .undecided fun c hc => hnone c (List.findSome?_eq_none_iff.1 hpoint c hc)
  | some point =>
    obtain ⟨earlier, c, later, hsplit, hsaid, hearlier⟩ := List.findSome?_eq_some_iff.1 hpoint
    have hfirst : FirstDecides records elsewhere own c :=
      ⟨earlier, later, hsplit, isSome_pointSaid_iff.1 (Option.isSome_of_eq_some hsaid),
        fun d hd => hnone d (hearlier d hd)⟩
    rcases pointSaid_eq_some_iff.1 hsaid with ⟨hparents, rfl⟩ | hfrom
    · exact .start hfirst hparents
    · exact .fork hfirst hfrom

theorem Declared.startsFrom {own : List CommitRecord} {point : BranchPoint}
    (h : Declared records elsewhere own point) (hpoint : point ≠ .none) :
    ∃ c ∈ own, c.StartsFrom records elsewhere point := by
  cases h with
  | undecided | start => exact absurd rfl hpoint
  | fork first parent =>
    obtain ⟨earlier, later, rfl, -⟩ := first
    exact ⟨_, List.mem_append_right _ List.mem_cons_self, parent⟩

theorem OwnInOrder.mem_iff {branch : String} {own : List CommitRecord} {c : CommitRecord}
    (h : OwnInOrder records branch own) : c ∈ own ↔ c ∈ records ∧ c.label = branch := by
  rw [h.perm.mem_iff, List.mem_filter, decide_eq_true_iff]

/-- What a point of a branch that is not made up names: a branch other than its own, on which its
commit lives. -/
theorem point_of_mem (hv : v ∈ ofHistory records elsewhere) (hpoint : v.branchPoint ≠ .none) :
    v.branchPoint.name ≠ v.name ∧
      LivesOn records elsewhere v.branchPoint.commitId v.branchPoint.name := by
  obtain ⟨own, hown, -, heq⟩ := exists_own_of_mem hv
  have hdeclared := declared_findSome? records elsewhere own
  rw [← heq] at hdeclared
  obtain ⟨c, hc, hfrom⟩ := hdeclared.startsFrom hpoint
  exact ⟨(hown.mem_iff.1 hc).2 ▸ hfrom.other, hfrom.branch⟩

section Once

variable (hhashes : (records.map CommitRecord.hash).Nodup)
include hhashes

/-- A commit that is known once, and not from elsewhere, lives on the branch it is counted under. -/
theorem eq_label_of_livesOn (hout : ∀ c ∈ records, elsewhere.find? c.hash = none)
    {c : CommitRecord} (hc : c ∈ records) {branch : String}
    (h : LivesOn records elsewhere c.hash branch) : branch = c.label := by
  unfold CommitRecord.label
  rcases h with ⟨rfl, hnamed, -⟩ | ⟨-, hfound⟩ | ⟨hunnamed, -⟩
  · obtain rfl := List.inj_on_of_nodup_map hhashes hc
      (List.mem_append_right _ List.mem_cons_self) hnamed.1.symm
    rw [hnamed.2, Option.getD_some]
  · rw [hout c hc] at hfound
    cases hfound
  · rw [hunnamed c hc rfl, Option.getD_none]

/-- One branch lists a commit that is known once: the one it is counted under. -/
theorem exists_listing {c : CommitRecord} (hc : c ∈ records) :
    ∃ w ∈ ofHistory records elsewhere, w.name = c.label ∧
      ∀ u ∈ ofHistory records elsewhere, c.hash ∈ u.commits ↔ u = w := by
  have hgroups := ofHistory_groups records elsewhere
  obtain ⟨w, hw, hname⟩ :=
    List.mem_map.1 ((hgroups.labels c.label).2 (List.mem_map_of_mem hc))
  refine ⟨w, hw, hname, fun u hu => ?_⟩
  obtain ⟨own, hown, hcommits⟩ := hgroups.commits u hu
  rw [hcommits]
  constructor
  · intro hlisted
    obtain ⟨d, hd, hhash⟩ := List.mem_map.1 hlisted
    obtain ⟨hdmem, hlabel⟩ := hown.mem_iff.1 hd
    obtain rfl := List.inj_on_of_nodup_map hhashes hdmem hc hhash
    exact List.inj_on_of_nodup_map hgroups.distinct hu hw (hlabel.symm.trans hname.symm)
  · rintro rfl
    exact List.mem_map_of_mem (hown.mem_iff.2 ⟨hc, hname.symm⟩)

end Once

/-- The first commit of a branch, in order, that decides declares its point, and a branch without
such a commit starts from nothing. So no branch starts from itself. If each commit is known once,
and other hashes only are known from elsewhere, then a point at one of the commits names the branch
that lists it. (The point of a branch that starts from nothing is at no commit.) -/
theorem points_declared (records : List CommitRecord) (elsewhere : SortedMap String String) :
    (∀ v ∈ ofHistory records elsewhere, ∃ own, OwnInOrder records v.name own ∧
      v.commits = own.map hash ∧ Declared records elsewhere own v.branchPoint) ∧
    (∀ v ∈ ofHistory records elsewhere, v.branchPoint ≠ .none → v.branchPoint.name ≠ v.name) ∧
    ((records.map hash).Nodup → (∀ c ∈ records, elsewhere.find? c.hash = none) →
      ∀ v ∈ ofHistory records elsewhere, v.branchPoint ≠ .none →
        v.branchPoint.commitId ∈ records.map hash →
        ∃ w ∈ ofHistory records elsewhere, w.name = v.branchPoint.name ∧
          ∀ u ∈ ofHistory records elsewhere, v.branchPoint.commitId ∈ u.commits ↔ u = w) := by
  refine ⟨fun v hv => ?_, fun v hv hpoint => (point_of_mem hv hpoint).1, ?_⟩
  · obtain ⟨own, hown, hcommits, heq⟩ := exists_own_of_mem hv
    refine ⟨own, hown, hcommits, ?_⟩
    rw [heq]
    exact declared_findSome? records elsewhere own
  · intro hhashes hout v hv hpoint hmem
    obtain ⟨c, hc, hhash⟩ := List.mem_map.1 hmem
    have hlives := (point_of_mem hv hpoint).2
    rw [← hhash] at hlives ⊢
    rw [eq_label_of_livesOn hhashes hout hc hlives]
    exact exists_listing hhashes hc

theorem points_declared_sample :
    let start : CommitRecord := ⟨"c1", none, none, []⟩
    let fork : CommitRecord := ⟨"c2", some ⟨2, 0⟩, some "feature", ["c1"]⟩
    let merge : CommitRecord := ⟨"c3", some ⟨3, 0⟩, none, ["c1", "c2"]⟩
    let fix : CommitRecord := ⟨"c4", some ⟨4, 0⟩, some "fix", ["c0"]⟩
    let told := [merge, fork, start, fix]
    let elsewhere := (∅ : SortedMap String String).put "c0" "release"
    let feature : BranchView := ⟨"feature", ["c2"], ⟨"main", "c1"⟩⟩
    (told.map hash).Nodup ∧ (∀ c ∈ told, elsewhere.find? c.hash = none) ∧
      feature ∈ ofHistory told elsewhere ∧ feature.branchPoint ≠ .none ∧
      feature.branchPoint.commitId ∈ told.map hash ∧
      ⟨"fix", ["c4"], ⟨"release", "c0"⟩⟩ ∈ ofHistory told elsewhere ∧
      (∃ own, OwnInOrder told "feature" own ∧ feature.commits = own.map hash ∧
        Declared told elsewhere own feature.branchPoint) ∧
      feature.branchPoint.name ≠ feature.name ∧
      ∃ w ∈ ofHistory told elsewhere, w.name = "main" ∧
        ∀ u ∈ ofHistory told elsewhere, "c1" ∈ u.commits ↔ u = w := by
  intro start fork merge fix told elsewhere feature
  obtain ⟨hdeclared, hother, hlisted⟩ := points_declared told elsewhere
  have hviews : ofHistory told elsewhere = [⟨"main", ["c1", "c3"], .none⟩, feature,
      ⟨"fix", ["c4"], ⟨"release", "c0"⟩⟩] := by cbv
  have hfeature : feature ∈ ofHistory told elsewhere := by
    rw [hviews]
    decide
  have hfix : ⟨"fix", ["c4"], ⟨"release", "c0"⟩⟩ ∈ ofHistory told elsewhere := by
    rw [hviews]
    decide
  have hhashes : (told.map hash).Nodup := by decide
  have hout : ∀ c ∈ told, elsewhere.find? c.hash = none := by decide
  have hpoint : feature.branchPoint ≠ .none := by decide
  have hmem : feature.branchPoint.commitId ∈ told.map hash := by decide
  exact ⟨hhashes, hout, hfeature, hpoint, hmem, hfix, hdeclared feature hfeature,
    hother feature hfeature hpoint, hlisted hhashes hout feature hfeature hpoint hmem⟩

end BranchView
end Cityscape
