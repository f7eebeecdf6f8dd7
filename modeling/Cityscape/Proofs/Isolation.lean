import Cityscape.Proofs.Apart
import Cityscape.Proofs.ClassWalk
import Cityscape.Proofs.Selection

/-!
# `Isolation`: landscapes do not see each other

A query under a token looks at nodes of that token only: it starts from nodes that carry the
token, and every id that it follows belongs to the same token. So its answer depends on nothing
but the part of the store that calls under other tokens leave alone (`Store.isolation`).
-/

namespace Cityscape

/-! ## Walks that stay in one part -/

/-- What is loaded above files depends only on the directories that can be met from there. -/
theorem directoriesAbove_congr (S : NodeId → Prop) [DecidablePred S] {files : List FileRevision} :
    ∀ {ds ds' : List Directory},
      (ds'.filter fun d => S d.id) = (ds.filter fun d => S d.id) →
      (∀ d ∈ ds, ∀ p, S d.id → d.parent = some p → S p) →
      (∀ f ∈ files, ∀ p, f.parent = some p → S p) →
      directoriesAbove ds' files = directoriesAbove ds files := by
  induction files with
  | nil =>
    intro ds ds' _ _ _
    rfl
  | cons f files ih =>
    intro ds ds' hsame hclosed hfiles
    -- looking up an id of the part never meets a directory outside of it
    have hfind : ∀ (l : List Directory) id, S id →
        l.find? (fun d => d.id = id) = (l.filter fun d => S d.id).find? fun d => d.id = id := by
      intro l id hid
      rw [List.find?_filter]
      congr 1
      funext d
      by_cases hd : d.id = id <;> simp [hd, hid]
    have hmet : climb ds f.parent = climb ds' f.parent := by
      apply climb_congr S
      · intro id hid
        rw [hfind ds id hid, hfind ds' id hid, hsame]
      · intro id d p hid hd hp
        have heq : d.id = id := by simpa using List.find?_some hd
        exact hclosed d (List.mem_of_find?_eq_some hd) p (heq ▸ hid) hp
      · exact hfiles f List.mem_cons_self
    rw [directoriesAbove, directoriesAbove, ← hmet]
    show _ ++ _ = _ ++ _
    congr 1
    apply ih
    · -- what has been met is left out on both sides
      rw [List.filter_comm, hsame, List.filter_comm]
    · intro d hd
      exact hclosed d (List.mem_filter.1 hd).1
    · intro g hg
      exact hfiles g (List.mem_cons_of_mem f hg)

/-- A walk through inner classes depends only on the classes that can be met. -/
theorem classWalk_congr {inner inner' : ClassNode → List ClassNode} (S : NodeId → Prop)
    [DecidablePred S] (P : ClassNode → Prop) (hS : ∀ c, P c → S c.id)
    (hinner : ∀ c, P c → inner' c = inner c ∧ ∀ i ∈ inner c, P i) {unseen unseen' : List NodeId}
    {pending : List (String × ClassNode)}
    (hunseen : (unseen'.filter fun id => S id) = (unseen.filter fun id => S id))
    (hpending : ∀ x ∈ pending, P x.2) :
    classWalk inner' unseen' pending = classWalk inner unseen pending := by
  -- only classes of the part are asked for, so the other unseen ones do not matter
  have hmem : ∀ {u u' : List NodeId} {id}, (u'.filter fun id => S id) = (u.filter fun id => S id) →
      S id → (id ∈ u' ↔ id ∈ u) := by
    intro u u' id hu hid
    have h := congrArg (fun l => id ∈ l) hu
    simpa [List.mem_filter, hid] using h
  induction unseen, pending using classWalk.induct inner generalizing unseen' with
  | case1 unseen => rw [classWalk, classWalk]
  | case2 unseen owner c rest h _ key =>
    rename_i ih
    have hc : P c := hpending _ List.mem_cons_self
    obtain ⟨heq, hin⟩ := hinner c hc
    have h' : c.id ∈ unseen' := (hmem hunseen (hS c hc)).2 h
    rw [classWalk, classWalk, dif_pos h, dif_pos h', heq]
    show (key, c) :: _ = (key, c) :: _
    congr 1
    apply ih
    · unfold without
      rw [List.filter_comm, hunseen, List.filter_comm]
    · intro x hx
      rcases List.mem_append.1 hx with hx | hx
      · obtain ⟨i, hi, rfl⟩ := List.mem_map.1 hx
        exact hin i (List.mem_reverse.1 hi)
      · exact hpending x (List.mem_cons_of_mem _ hx)
  | case3 unseen owner c rest h ih =>
    have h' : c.id ∉ unseen' := fun hc =>
      h ((hmem hunseen (hS c (hpending _ List.mem_cons_self))).1 hc)
    rw [classWalk, classWalk, dif_neg h, dif_neg h']
    exact ih hunseen fun x hx => hpending x (List.mem_cons_of_mem _ hx)

namespace Store

/-! ## What a query looks at -/

/-- Two stores in which all references stay under one token, and which are the same under `b`. -/
structure AlikeUnder (owner : NodeId → String) (b : String) (s s' : Store) : Prop
    extends s.SameUnder owner b s' where
  fits : s.Fitting owner s
  fits' : s'.Fitting owner s'

namespace AlikeUnder

variable {owner : NodeId → String} {b : String} {s s' : Store}

section Lookups

theorem findRepository (h : s.AlikeUnder owner b s') (name : String) :
    s'.findRepository b name = s.findRepository b name := by
  apply h.repositories.find?_eq
  · intro r hr hq
    exact (h.fits.repositories r hr).own.trans (of_decide_eq_true hq).1
  · intro r hr hq
    exact (h.fits'.repositories r hr).own.trans (of_decide_eq_true hq).1

theorem repositoriesOf (h : s.AlikeUnder owner b s') : s'.repositoriesOf b = s.repositoriesOf b := by
  unfold Store.repositoriesOf
  rw [h.repositories.filter_eq]
  · intro r hr hq
    exact (h.fits.repositories r hr).own.trans (of_decide_eq_true hq)
  · intro r hr hq
    exact (h.fits'.repositories r hr).own.trans (of_decide_eq_true hq)

theorem findBranch (h : s.AlikeUnder owner b s') {repository : NodeId}
    (hr : owner repository = b) (name : String) :
    s'.findBranch repository name = s.findBranch repository name := by
  apply h.branches.find?_eq
  · intro x hx hq
    rw [(h.fits.branches x hx).own, (of_decide_eq_true hq).1, hr]
  · intro x hx hq
    rw [(h.fits'.branches x hx).own, (of_decide_eq_true hq).1, hr]

theorem findCommit (h : s.AlikeUnder owner b s') (hash : String) :
    s'.findCommit b hash = s.findCommit b hash := by
  apply h.commits.find?_eq
  · intro c hc hq
    exact (h.fits.commits c hc).own.trans (of_decide_eq_true hq).1
  · intro c hc hq
    exact (h.fits'.commits c hc).own.trans (of_decide_eq_true hq).1

theorem application (h : s.AlikeUnder owner b s') (name : String) :
    s'.application b name = s.application b name := by
  unfold Store.application
  have hfind : s'.findApplication b name = s.findApplication b name := by
    apply h.applications.find?_eq
    · intro a ha hq
      exact (h.fits.applications a ha).own.trans (of_decide_eq_true hq).1
    · intro a ha hq
      exact (h.fits'.applications a ha).own.trans (of_decide_eq_true hq).1
  rw [hfind]

theorem tracesOf (h : s.AlikeUnder owner b s') : s'.tracesOf b = s.tracesOf b := by
  apply h.traces.filter_eq
  · intro x hx hq
    exact (h.fits.traces x hx).own.trans (of_decide_eq_true hq)
  · intro x hx hq
    exact (h.fits'.traces x hx).own.trans (of_decide_eq_true hq)

end Lookups

/-! ## Commits -/

section Commits

/-- A repository that contains a commit is of the same token. -/
theorem token_of_mem_commits (hs : s.Fitting owner s) {r : Repository} (hr : r ∈ s.repositories)
    {c : NodeId} (hc : c ∈ r.commits) : owner c = r.token := by
  obtain ⟨x, hx, htoken⟩ := (hs.repositories r hr).commits c hc
  rw [← Sorted.key_of_get? hx, (hs.commits x (Sorted.mem_of_get? hx)).own, htoken]

theorem cityName (h : s.AlikeUnder owner b s') {c : NodeId} (hc : owner c = b) :
    s'.cityName c = s.cityName c := by
  have hfind : s'.repositoryOfCommit c = s.repositoryOfCommit c := by
    apply h.repositories.find?_eq
    · intro r hr hq
      rw [(h.fits.repositories r hr).own,
        ← token_of_mem_commits h.fits hr (SortedSet.contains_iff.1 hq), hc]
    · intro r hr hq
      rw [(h.fits'.repositories r hr).own,
        ← token_of_mem_commits h.fits' hr (SortedSet.contains_iff.1 hq), hc]
  unfold Store.cityName
  rw [hfind]

theorem commitsOf (h : s.AlikeUnder owner b s') {r : Repository} (hr : r ∈ s.repositories)
    (hb : r.token = b) : s'.commitsOf r = s.commitsOf r := by
  apply h.commits.filterMap_eq
  intro c hc
  exact (token_of_mem_commits h.fits hr hc).trans hb

variable {c : Commit}

theorem branchName (h : s.AlikeUnder owner b s') (hc : c ∈ s.commits) (hb : c.token = b) :
    s'.branchName c = s.branchName c := by
  unfold Store.branchName
  cases hbranch : c.branch with
  | none => rfl
  | some id =>
    obtain ⟨-, -, hown⟩ := (h.fits.commits c hc).branch id hbranch
    rw [Option.bind_some, Option.bind_some, h.branches id (hown.trans hb)]

theorem ownParents (hs : s.Fitting owner s) (hc : c ∈ s.commits) (hb : c.token = b) :
    ∀ p ∈ c.parents.toList, owner p = b := by
  intro p hp
  obtain ⟨x, hx, htoken⟩ := (hs.commits c hc).parents p hp
  rw [← Sorted.key_of_get? hx, (hs.commits x (Sorted.mem_of_get? hx)).own, htoken, hb]

theorem commitRecord (h : s.AlikeUnder owner b s') (hc : c ∈ s.commits) (hb : c.token = b) :
    s'.commitRecord c = s.commitRecord c := by
  unfold Store.commitRecord
  rw [h.branchName hc hb, h.commits.filterMap_eq (ownParents h.fits hc hb)]

theorem outsideBranches (h : s.AlikeUnder owner b s') {commits : List Commit}
    (hcommits : ∀ c ∈ commits, c ∈ s.commits ∧ c.token = b) :
    s'.outsideBranches commits = s.outsideBranches commits := by
  have houtside : (commits.flatMap fun c =>
        (c.parents.toList.filter fun id => id ∉ commits.map Commit.id).filterMap s'.commits.get?)
      = commits.flatMap fun c =>
        (c.parents.toList.filter fun id => id ∉ commits.map Commit.id).filterMap s.commits.get? := by
    rw [List.flatMap_congr]
    intro c hc
    obtain ⟨hmem, hb⟩ := hcommits c hc
    apply h.commits.filterMap_eq
    intro p hp
    exact ownParents h.fits hmem hb p (List.mem_filter.1 hp).1
  unfold Store.outsideBranches
  simp only
  rw [houtside]
  congr 1
  apply List.filterMap_congr
  intro p hp
  obtain ⟨c, hc, hpc⟩ := List.mem_flatMap.1 hp
  obtain ⟨id, hid, hget⟩ := List.mem_filterMap.1 hpc
  obtain ⟨hmem, hb⟩ := hcommits c hc
  obtain ⟨x, hx, htoken⟩ := (h.fits.commits c hmem).parents id (List.mem_filter.1 hid).1
  obtain rfl := Option.some.inj (hget.symm.trans hx)
  rw [h.branchName (Sorted.mem_of_get? hget) (htoken.trans hb)]

theorem ownFiles (hs : s.Fitting owner s) (hc : c ∈ s.commits) (hb : c.token = b) :
    ∀ f ∈ c.fileRevisions.toList, owner f = b := by
  intro f hf
  obtain ⟨-, -, -, hown⟩ := (hs.commits c hc).files f hf
  exact hown.trans hb

theorem isCompleteOn (h : s.AlikeUnder owner b s') (hc : c ∈ s.commits) (hb : c.token = b)
    (branch : NodeId) : s'.isCompleteOn branch c = s.isCompleteOn branch c := by
  have hall : s'.allFilesHaveData c = s.allFilesHaveData c := by
    unfold Store.allFilesHaveData
    rw [Bool.eq_iff_iff, List.all_eq_true, List.all_eq_true]
    refine forall₂_congr fun f hf => ?_
    rw [h.files f (ownFiles h.fits hc hb f hf)]
  unfold Store.isCompleteOn
  rw [hall]

theorem latestComplete (h : s.AlikeUnder owner b s') (repository branch : String) :
    s'.latestComplete repository b branch = s.latestComplete repository b branch := by
  unfold Store.latestComplete
  rw [h.findRepository]
  cases hr : s.findRepository b repository with
  | none => rfl
  | some r =>
    obtain ⟨hmem, htoken, -⟩ := findRepository_spec hr
    have hown : owner r.id = b := (h.fits.repositories r hmem).own.trans htoken
    show ((s'.findBranch r.id branch).bind fun x => _) = (s.findBranch r.id branch).bind fun x => _
    rw [h.findBranch hown, h.commitsOf hmem htoken]
    congr 1
    funext x
    congr 1
    apply List.filter_congr
    intro c hc
    obtain ⟨hcommit, hct⟩ := h.fits.mem_commitsOf hmem hc
    exact h.isCompleteOn hcommit (hct.trans htoken) x.id

/-- The latest complete commit of a branch exists. -/
theorem mem_of_latestComplete (hs : s.Fitting owner s) {repository branch : String}
    (hc : s.latestComplete repository b branch = some c) : c ∈ s.commits := by
  unfold Store.latestComplete at hc
  obtain ⟨r, hr, hc⟩ := Option.bind_eq_some_iff.1 hc
  obtain ⟨x, hx, hc⟩ := Option.bind_eq_some_iff.1 hc
  obtain ⟨hmem, -, -⟩ := findRepository_spec hr
  exact (hs.mem_commitsOf hmem (List.mem_filter.1 (Commit.mem_of_least? hc)).1).1

/-- Tags are looked up by ids that exist, and no tag is lost. -/
theorem summary (h : s.AlikeUnder owner b s') (hc : c ∈ s.commits) (repository branch : String) :
    s'.summary repository branch c = s.summary repository branch c := by
  have htags : c.tags.toList.filterMap s'.tags.get? = c.tags.toList.filterMap s.tags.get? := by
    apply List.filterMap_congr
    intro t ht
    obtain ⟨x, hx⟩ := (h.fits.commits c hc).tags t ht
    obtain ⟨x', hx', rfl⟩ := h.tags _ _ hx
    rw [hx, hx']
  unfold Store.summary
  rw [htags]

end Commits

/-! ## Commits with everything below them -/

section Hydration

variable {f : FileRevision} {c : Commit}

theorem hydrateFile (h : s.AlikeUnder owner b s') (hf : f ∈ s.files) (hb : owner f.id = b) :
    s'.hydrateFile f = s.hydrateFile f := by
  have fits := h.fits.files f hf
  have hclasses : ∀ x ∈ f.classes.toList, owner x = b := by
    intro x hx
    obtain ⟨-, -, hown⟩ := fits.classes x hx
    exact hown.trans hb
  have hfunctions : ∀ x ∈ f.functions.toList, owner x = b := by
    intro x hx
    obtain ⟨-, -, hown⟩ := fits.functions x hx
    exact hown.trans hb
  unfold Store.hydrateFile
  rw [h.classes.filterMap_eq hclasses, h.functions.filterMap_eq hfunctions]
  congr 1
  apply List.map_congr_left
  intro x hx
  obtain ⟨id, hid, hget⟩ := List.mem_filterMap.1 hx
  have hx' : owner x.id = b := by
    rw [Sorted.key_of_get? hget]
    exact hclasses id hid
  unfold Store.hydrateClass
  rw [h.functions.filterMap_eq]
  intro g hg
  obtain ⟨-, -, hown⟩ := (h.fits.classes x (Sorted.mem_of_get? hget)).functions g hg
  exact hown.trans hx'

theorem mem_files (hs : s.Fitting owner s) (hc : c ∈ s.commits) (hb : c.token = b)
    (hf : f ∈ c.fileRevisions.toList.filterMap s.files.get?) : f ∈ s.files ∧ owner f.id = b := by
  obtain ⟨id, hid, hget⟩ := List.mem_filterMap.1 hf
  refine ⟨Sorted.mem_of_get? hget, ?_⟩
  rw [Sorted.key_of_get? hget]
  exact ownFiles hs hc hb id hid

theorem hydrate (h : s.AlikeUnder owner b s') (hc : c ∈ s.commits) (hb : c.token = b) :
    s'.hydrate c = s.hydrate c := by
  classical
  have hfiles := h.files.filterMap_eq (ownFiles h.fits hc hb)
  have habove : directoriesAbove s'.directories.toList
        (c.fileRevisions.toList.filterMap s.files.get?)
      = directoriesAbove s.directories.toList
        (c.fileRevisions.toList.filterMap s.files.get?) := by
    apply directoriesAbove_congr fun id => owner id = b
    · apply h.directories.filter_eq
      · exact fun d _ hd => of_decide_eq_true hd
      · exact fun d _ hd => of_decide_eq_true hd
    · -- a directory belongs to the token of its parent
      intro d hd p hdb hp
      obtain ⟨e, he, hmem, -⟩ := (h.fits.directories d hd).parent p hp
      obtain ⟨-, -, -, hown⟩ :=
        (h.fits.directories e (Sorted.mem_of_get? he)).subdirectories d.id hmem
      rw [← Sorted.key_of_get? he, ← hown, hdb]
    · intro f hf p hp
      obtain ⟨hmem, hfb⟩ := mem_files h.fits hc hb hf
      obtain ⟨q, e, hq, he, hlisted⟩ := (h.fits.files f hmem).parent
      obtain rfl := Option.some.inj (hp.symm.trans hq)
      obtain ⟨-, -, -, hown⟩ :=
        (h.fits.directories e (Sorted.mem_of_get? he)).fileRevisions f.id hlisted
      rw [← Sorted.key_of_get? he, ← hown, hfb]
  unfold Store.hydrate
  simp only
  rw [hfiles, habove]
  congr 1
  apply List.map_congr_left
  intro f hf
  obtain ⟨hmem, hfb⟩ := mem_files h.fits hc hb hf
  exact h.hydrateFile hmem hfb

theorem loadCommit (h : s.AlikeUnder owner b s') (hash : String) :
    s'.loadCommit hash b = s.loadCommit hash b := by
  unfold Store.loadCommit
  rw [h.findCommit]
  cases hfind : s.findCommit b hash with
  | none => rfl
  | some c =>
    obtain ⟨hc, htoken, -⟩ := Sorted.mem_of_find?_pair hfind
    exact congrArg Except.ok (h.hydrate hc htoken)

theorem commit_of_loadCommit {hash : String} {x : HydratedCommit}
    (hx : s.loadCommit hash b = .ok x) : ∃ c ∈ s.commits, c.token = b ∧ x = s.hydrate c := by
  unfold Store.loadCommit at hx
  cases hfind : s.findCommit b hash with
  | none =>
    rw [hfind] at hx
    cases hx
  | some c =>
    rw [hfind] at hx
    obtain ⟨hc, htoken, -⟩ := Sorted.mem_of_find?_pair hfind
    exact ⟨c, hc, htoken, (Except.ok.inj hx).symm⟩

end Hydration

/-! ## Answers -/

section Answers

theorem commitsNamed (h : s.AlikeUnder owner b s') (hashes : List String) :
    s'.commitsNamed b hashes = s.commitsNamed b hashes := by
  induction hashes with
  | nil => rfl
  | cons hash rest ih => rw [Store.commitsNamed, Store.commitsNamed, h.findCommit, ih]

theorem commitsSelected (h : s.AlikeUnder owner b s') (selector : Selector) :
    s'.commitsSelected b selector = s.commitsSelected b selector := by
  cases selector with
  | latest =>
    show Except.ok ((s'.repositoriesOf b).filterMap s'.mostRecentCommit)
      = .ok ((s.repositoriesOf b).filterMap s.mostRecentCommit)
    rw [h.repositoriesOf]
    congr 1
    apply List.filterMap_congr
    intro r hr
    obtain ⟨hmem, htoken⟩ := mem_repositoriesOf_iff.1 hr
    unfold Store.mostRecentCommit
    rw [h.commitsOf hmem htoken]
  | commit hash => exact h.commitsNamed _
  | compare first second => exact h.commitsNamed _

theorem structureOf (h : s.AlikeUnder owner b s') (selector : Selector) :
    s'.structureOf b selector = s.structureOf b selector := by
  rw [structureOf_eq, structureOf_eq, h.commitsSelected]
  cases hcs : s.commitsSelected b selector with
  | error e => rfl
  | ok cs =>
    have hdrawn : cs.map s'.drawn = cs.map s.drawn := by
      apply List.map_congr_left
      intro c hc
      obtain ⟨hmem, hb⟩ := h.fits.mem_of_commitsSelected hcs c hc
      have hown : owner c.id = b := (h.fits.commits c hmem).own.trans hb
      exact Prod.ext (h.cityName hown) (h.hydrate hmem hb)
    show (if cs = [] then _ else _) = if cs = [] then _ else _
    rw [hdrawn]

theorem mem_of_application {name : String} {a : Application} (ha : s.application b name = .ok a) :
    a ∈ s.applications ∧ a.token = b := by
  unfold Store.application at ha
  cases hfind : s.findApplication b name with
  | none =>
    rw [hfind] at ha
    cases ha
  | some x =>
    rw [hfind] at ha
    obtain rfl : x = a := Except.ok.inj ha
    obtain ⟨hx, htoken, -⟩ := Sorted.mem_of_find?_pair hfind
    exact ⟨hx, htoken⟩

theorem commitTree (h : s.AlikeUnder owner b s') (name : String) :
    s'.commitTree b name = s.commitTree b name := by
  unfold Store.commitTree
  rw [h.application]
  cases ha : s.application b name with
  | error e => rfl
  | ok a =>
    obtain ⟨hmem, htoken⟩ := mem_of_application ha
    simp only [bind, Except.bind]
    cases hrepo : a.repository with
    | none => rfl
    | some id =>
      obtain ⟨r, hr, hrt⟩ := (h.fits.applications a hmem).repository id hrepo
      have hrmem := Sorted.mem_of_get? hr
      have hrb : r.token = b := hrt.trans htoken
      -- the repository of the application belongs to the same token
      have hown : owner id = b := by
        rw [← Sorted.key_of_get? hr, (h.fits.repositories r hrmem).own, hrb]
      have hcommits : ∀ c ∈ s.commitsOf r, c ∈ s.commits ∧ c.token = b := by
        intro c hc
        obtain ⟨hcommit, hct⟩ := h.fits.mem_commitsOf hrmem hc
        exact ⟨hcommit, hct.trans hrb⟩
      have hrecords : (s.commitsOf r).map s'.commitRecord = (s.commitsOf r).map s.commitRecord := by
        apply List.map_congr_left
        intro c hc
        exact h.commitRecord (hcommits c hc).1 (hcommits c hc).2
      simp only
      rw [h.repositories id hown, hr]
      simp only
      rw [h.commitsOf hrmem hrb, hrecords, h.outsideBranches hcommits]

/-- A class that belongs to a token. -/
def OwnClass (owner : NodeId → String) (b : String) (s : Store) (c : ClassNode) : Prop :=
  c ∈ s.classes ∧ owner c.id = b

theorem innerClasses (h : s.AlikeUnder owner b s') {c : ClassNode} (hc : OwnClass owner b s c) :
    s'.innerClasses c = s.innerClasses c ∧ ∀ i ∈ s.innerClasses c, OwnClass owner b s i := by
  have hown : ∀ i ∈ c.innerClasses.toList, owner i = b := by
    intro i hi
    obtain ⟨-, -, hown⟩ := (h.fits.classes c hc.1).innerClasses i hi
    exact hown.trans hc.2
  refine ⟨h.classes.filterMap_eq hown, fun i hi => ?_⟩
  obtain ⟨id, hid, hget⟩ := List.mem_filterMap.1 hi
  refine ⟨Sorted.mem_of_get? hget, ?_⟩
  rw [Sorted.key_of_get? hget]
  exact hown id hid

theorem methods (h : s.AlikeUnder owner b s') {c : ClassNode} (hc : OwnClass owner b s c) :
    s'.methods c = s.methods c := by
  apply h.functions.filterMap_eq
  intro g hg
  obtain ⟨-, -, hown⟩ := (h.fits.classes c hc.1).functions g hg
  exact hown.trans hc.2

/-- The classes that are shown for a file belong to its token, and are the same. -/
theorem classesShown (h : s.AlikeUnder owner b s') {f : FileRevision} (hf : f ∈ s.files)
    (hb : owner f.id = b) (path : String) :
    s'.classesShown path (s.hydrateFile f) = s.classesShown path (s.hydrateFile f) ∧
      ∀ x ∈ s.classesShown path (s.hydrateFile f), OwnClass owner b s x.2 := by
  classical
  have hpending : ∀ x ∈ (s.hydrateFile f).classes.reverse.map fun c => (path, c.node),
      OwnClass owner b s x.2 := by
    intro x hx
    obtain ⟨y, hy, rfl⟩ := List.mem_map.1 hx
    obtain ⟨c, hc, rfl⟩ := List.mem_map.1 (List.mem_reverse.1 hy)
    obtain ⟨id, hid, hget⟩ := List.mem_filterMap.1 hc
    obtain ⟨-, -, hown⟩ := (h.fits.files f hf).classes id hid
    refine ⟨Sorted.mem_of_get? hget, ?_⟩
    show owner c.id = b
    rw [Sorted.key_of_get? hget, hown, hb]
  -- the walk may see classes of others as unseen, but it does not meet them
  have hunseen : ((s'.classes.toList.map ClassNode.id).filter fun id => owner id = b)
      = (s.classes.toList.map ClassNode.id).filter fun id => owner id = b := by
    have hsame : (s'.classes.toList.filter fun c => owner c.id = b)
        = s.classes.toList.filter fun c => owner c.id = b := by
      apply h.classes.filter_eq
      · exact fun c _ hc => of_decide_eq_true hc
      · exact fun c _ hc => of_decide_eq_true hc
    rw [List.filter_map, List.filter_map]
    exact congrArg (List.map ClassNode.id) hsame
  constructor
  · exact classWalk_congr (fun id => owner id = b) (OwnClass owner b s) (fun c hc => hc.2)
      (fun c hc => h.innerClasses hc) hunseen hpending
  · intro x hx
    obtain ⟨_, hown, -⟩ := (s.walks_classesShown path (s.hydrateFile f)).forall
      (P := fun _ => OwnClass owner b s) (fun _ _ hc => (h.innerClasses hc).2) hpending x hx
    exact hown

theorem addFile (h : s.AlikeUnder owner b s') {f : FileRevision} (hf : f ∈ s.files)
    (hb : owner f.id = b) (path : String) (m : CodeMetrics) :
    CodeMetrics.addFile s' path m (s.hydrateFile f)
      = CodeMetrics.addFile s path m (s.hydrateFile f) := by
  obtain ⟨hshown, hown⟩ := h.classesShown hf hb path
  unfold CodeMetrics.addFile
  rw [hshown]
  apply List.foldl_ext
  intro m x hx
  obtain ⟨key, c⟩ := x
  have hmethods : s'.methods c = s.methods c := h.methods (hown (key, c) hx)
  show (s'.methods c).foldl _ _ = (s.methods c).foldl _ _
  rw [hmethods]

theorem metricsOf (h : s.AlikeUnder owner b s') (name hash : String) :
    s'.metricsOf b name hash = s.metricsOf b name hash := by
  unfold Store.metricsOf
  rw [h.application, h.loadCommit]
  cases ha : s.application b name with
  | error e =>
    show Except.error e = Except.error e
    rfl
  | ok a =>
    cases hx : s.loadCommit hash b with
    | error e =>
      show Except.error e = Except.error e
      rfl
    | ok x =>
      show Except.ok (CodeMetrics.ofCommit s' a.rootDirectory x)
        = Except.ok (CodeMetrics.ofCommit s a.rootDirectory x)
      obtain ⟨c, hc, hb, rfl⟩ := commit_of_loadCommit hx
      unfold CodeMetrics.ofCommit
      congr 1
      apply List.foldl_ext
      intro m y hy
      obtain ⟨f, hf, rfl⟩ := List.mem_map.1 hy
      obtain ⟨hmem, hfb⟩ := mem_files h.fits hc hb hf
      cases hpath : (s.hydrate c).pathBelow a.rootDirectory (s.hydrateFile f).file with
      | none => rfl
      | some path => exact h.addFile hmem hfb path m

theorem latestCommit (h : s.AlikeUnder owner b s') (repository branch : String) :
    s'.latestCommit b repository branch = s.latestCommit b repository branch := by
  unfold Store.latestCommit
  rw [h.latestComplete]
  cases hc : s.latestComplete repository b branch with
  | none => rfl
  | some c =>
    show Except.ok _ = Except.ok _
    rw [h.summary (mem_of_latestComplete h.fits hc)]

theorem timestamps (h : s.AlikeUnder owner b s') (htraces : s.tracesOf b ≠ []) (now now' : Int64) :
    s'.timestamps now' b = s.timestamps now b := by
  unfold Store.timestamps
  rw [h.tracesOf]
  cases ht : s.tracesOf b with
  | nil => exact absurd ht htraces
  | cons x l => rfl

end Answers

end AlikeUnder

/-! ## Isolation -/

/-- Every query under a token has the same answer, or fails alike. Only the times of a landscape
without traces are left out, which is the time of asking. -/
structure SameAnswers (b : String) (s s' : Store) : Prop where
  structureOf : ∀ selector, s'.structureOf b selector = s.structureOf b selector
  commitTree : ∀ name, s'.commitTree b name = s.commitTree b name
  metricsOf : ∀ name hash, s'.metricsOf b name hash = s.metricsOf b name hash
  latestCommit : ∀ repository branch,
    s'.latestCommit b repository branch = s.latestCommit b repository branch
  timestamps : s.tracesOf b ≠ [] → ∀ now now', s'.timestamps now' b = s.timestamps now b

theorem AlikeUnder.sameAnswers {owner : NodeId → String} {b : String} {s s' : Store}
    (h : s.AlikeUnder owner b s') : s.SameAnswers b s' where
  structureOf := h.structureOf
  commitTree := h.commitTree
  metricsOf := h.metricsOf
  latestCommit := h.latestCommit
  timestamps := h.timestamps

/-- A call under one token, whether it succeeds or fails, changes no answer under another. As
everywhere, an id is allocated once and never used again: the calls must not use up all ids. -/
theorem isolation (calls : List Ingestion) (i : Ingestion) (b : String) (hb : b ≠ i.token)
    (hids : (∅ : Store).idsIssued (calls ++ [i]) < 2 ^ 64) :
    ((∅ : Store).after calls).SameAnswers b (i.edit ((∅ : Store).after calls)).store := by
  have hcount : (∅ : Store).idsIssued (calls ++ [i])
      = (∅ : Store).idsIssued calls + (i.edit ((∅ : Store).after calls)).issued :=
    idsIssued_append ∅ calls [i]
  rw [hcount] at hids
  obtain ⟨owner, hs⟩ := sound_after_empty calls (by omega)
  obtain ⟨owner', -, hready, hsteps⟩ := hs.call i hids
  obtain ⟨hs', -⟩ := hsteps.sound_and_grows hready.sound hids
  have same := hsteps.sameUnder hready.sound hids hb
  exact AlikeUnder.sameAnswers { same with
    fits := hready.sound.fitting
    fits' := hs'.fitting }

theorem isolation_sample :
    "t" ≠ "u" ∧ (∅ : Store).idsIssued (Ingestion.sample ++ [Ingestion.sampleElsewhere]) < 2 ^ 64 ∧
      ((∅ : Store).after Ingestion.sample).SameAnswers "t"
        (Ingestion.sampleElsewhere.edit ((∅ : Store).after Ingestion.sample)).store :=
  ⟨by decide, by decide +kernel,
    isolation Ingestion.sample Ingestion.sampleElsewhere "t" (by decide) (by decide +kernel)⟩

end Store

end Cityscape
