import Cityscape.Proofs.Commits
import Cityscape.Proofs.Selection

/-!
# `Views`: what can be seen of a history does not depend on ids

Two stores may have handed out ids in different orders. If they say the same of every commit, and
list the parents of each in the same order, then the branches behind an application, the files of
a commit and the newest commit of a repository look the same (`SameHistory.sameViews`). Each commit
of one store has a twin in the other one, with the same token and hash.
-/

namespace Cityscape

namespace Store

variable {owner owner' : NodeId → String} {n m : Nat} {s s' : Store}

/-- The hashes of the parents of a commit, in order of their ids. -/
def parentHashes (s : Store) (c : Commit) : List String :=
  (c.parents.toList.filterMap s.commits.get?).map Commit.hash

/-- The content hash and the path of each file that is loaded with a commit. -/
def filesLoaded (s : Store) (h : HydratedCommit) : Finset (Option String × List String) :=
  (h.files.map fun f => s.fileKey f.file).toFinset

/-- Two stores say the same of all commits, and have the same repositories and applications. -/
structure SameHistory (s s' : Store) : Prop where
  accounts : s'.account = s.account
  applications : s'.applications = s.applications
  repositories : ∀ id, (s'.repositories.get? id).map (fun r => (r.token, r.name))
    = (s.repositories.get? id).map fun r => (r.token, r.name)
  parents : ∀ c ∈ s.commits, ∀ c' ∈ s'.commits, c'.token = c.token → c'.hash = c.hash →
    s'.parentHashes c' = s.parentHashes c

/-- The branches behind every application, the files of every commit that is loaded, and the hash
of the newest commit of every repository are the same. -/
structure SameViews (s s' : Store) : Prop where
  commitTree : ∀ token name, s'.commitTree token name = s.commitTree token name
  files : ∀ token hash, (s'.loadCommit hash token).map s'.filesLoaded
    = (s.loadCommit hash token).map s.filesLoaded
  newest : ∀ token name, ((s'.findRepository token name).bind s'.mostRecentCommit).map Commit.hash
    = ((s.findRepository token name).bind s.mostRecentCommit).map Commit.hash

/-! ## What an account tells -/

theorem Keyed.account_eq_accountOf (h : s.Keyed) {c : Commit} (hc : c ∈ s.commits) :
    s.account c.token c.hash = some (s.accountOf c) := by
  rw [h.account_eq hc, accountAt, Sorted.get?_key hc, Option.map_some]

/-- The name of the branch of a commit is in its account. -/
theorem Sound.branchName_eq (hs : s.Sound owner n) {c : Commit} (hc : c ∈ s.commits) :
    s.branchName c = (s.accountOf c).branch.map BranchKey.name := by
  show s.branchName c = (s.branchKey c.branch).map BranchKey.name
  unfold branchName
  cases hbranch : c.branch with
  | none => rfl
  | some id =>
    obtain ⟨b, hb, -⟩ := (hs.fitting.commits c hc).branch id hbranch
    have hmem := Sorted.mem_of_get? hb
    obtain ⟨r, hr, -⟩ := (hs.fitting.branches b hmem).repository
    rw [Option.bind_some, hb, ← Sorted.key_of_get? hb,
      branchKey_eq hmem (Sorted.mem_of_get? hr) (Sorted.key_of_get? hr)]
    rfl

/-- Which repositories contain a commit is in its account. -/
theorem Keyed.mem_commits_iff (h : s.Keyed) {r : Repository} (hr : r ∈ s.repositories)
    {c : Commit} : c.id ∈ r.commits ↔ (r.token, r.name) ∈ (s.accountOf c).repositories := by
  show c.id ∈ r.commits ↔ (r.token, r.name) ∈ s.holders c.id
  rw [mem_holders]
  constructor
  · intro hc
    exact ⟨r, hr, hc, rfl⟩
  · rintro ⟨r', hr', hc, hkey⟩
    rwa [← h.repositories r' hr' r hr hkey]

/-- The commits of a repository have different hashes. -/
theorem Sound.nodup_hashes (hs : s.Sound owner n) {r : Repository} (hr : r ∈ s.repositories) :
    ((s.commitsOf r).map Commit.hash).Nodup := by
  apply List.Nodup.map_on
  · intro c hc d hd hhash
    apply hs.keyed.eq_of_hash (mem_commitsOf_iff.1 hc).1 (mem_commitsOf_iff.1 hd).1 _ hhash
    rw [(hs.fitting.mem_commitsOf hr hc).2, (hs.fitting.mem_commitsOf hr hd).2]
  · apply List.Nodup.filterMap
    · intro i j c hi hj
      rw [← Sorted.key_of_get? hi, ← Sorted.key_of_get? hj]
    · exact Sorted.nodup_of_ascending r.commits.ascending

/-- A parent of a commit is a commit of the same token, whose hash is in the account. -/
theorem Sound.mem_parents_iff (hs : s.Sound owner n) {c p : Commit} (hc : c ∈ s.commits)
    (hp : p ∈ s.commits) :
    p.id ∈ c.parents ↔ p.token = c.token ∧ p.hash ∈ (s.accountOf c).parents := by
  show _ ↔ _ ∧ p.hash ∈ s.commits.namesIn Commit.hash c.parents
  rw [Sorted.mem_namesIn]
  constructor
  · intro hid
    obtain ⟨x, hx, htoken⟩ := (hs.fitting.commits c hc).parents p.id hid
    obtain rfl := Option.some.inj ((Sorted.get?_key hp).symm.trans hx)
    exact ⟨htoken, p.id, hid, p, hx, rfl⟩
  · rintro ⟨htoken, i, hi, x, hx, hhash⟩
    obtain ⟨y, hy, hytoken⟩ := (hs.fitting.commits c hc).parents i hi
    obtain rfl := Option.some.inj (hx.symm.trans hy)
    have heq : x = p :=
      hs.keyed.eq_of_hash (Sorted.mem_of_get? hx) hp (hytoken.trans htoken.symm) hhash
    rwa [← heq, Sorted.key_of_get? hx]

/-- The hashes and branches of the parents that a repository does not contain. -/
def outsidePairs (s : Store) (r : Repository) : List (String × String) :=
  ((s.commitsOf r).flatMap fun c =>
      (c.parents.toList.filter fun id => id ∉ (s.commitsOf r).map Commit.id).filterMap
        s.commits.get?).filterMap
    fun p => (s.branchName p).map fun b => (p.hash, b)

theorem outsideBranches_commitsOf (s : Store) (r : Repository) :
    s.outsideBranches (s.commitsOf r) = Sorted.ofList (s.outsidePairs r) := rfl

theorem mem_outsidePairs {r : Repository} {x : String × String} :
    x ∈ s.outsidePairs r ↔ ∃ c ∈ s.commitsOf r, ∃ p ∈ s.commits,
      p.id ∈ c.parents ∧ p.id ∉ r.commits ∧ p.hash = x.1 ∧ s.branchName p = some x.2 := by
  unfold outsidePairs
  simp only [List.mem_filterMap, List.mem_flatMap, List.mem_filter, Option.map_eq_some_iff,
    decide_eq_true_eq, List.mem_map, not_exists, not_and]
  constructor
  · rintro ⟨p, ⟨c, hc, id, ⟨hid, hout⟩, hget⟩, b, hb, rfl⟩
    obtain rfl := Sorted.key_of_get? hget
    have hp := Sorted.mem_of_get? hget
    exact ⟨c, hc, p, hp, hid, fun hin => hout p (mem_commitsOf_iff.2 ⟨hp, hin⟩) rfl, rfl, hb⟩
  · rintro ⟨c, hc, p, hp, hid, hout, hhash, hb⟩
    refine ⟨p, ⟨c, hc, p.id, ⟨hid, fun d hd he => hout ?_⟩, Sorted.get?_key hp⟩, x.2, hb,
      Prod.ext hhash rfl⟩
    rw [← he]
    exact (mem_commitsOf_iff.1 hd).2

/-- Parents of the commits of a repository with one hash are one commit. -/
theorem Sound.outsidePairs_functional (hs : s.Sound owner n) {r : Repository}
    (hr : r ∈ s.repositories) :
    ∀ x ∈ s.outsidePairs r, ∀ y ∈ s.outsidePairs r, x.1 = y.1 → x = y := by
  intro x hx y hy hxy
  obtain ⟨c, hc, p, hp, hpc, -, hpx, hbx⟩ := mem_outsidePairs.1 hx
  obtain ⟨d, hd, q, hq, hqd, -, hqy, hby⟩ := mem_outsidePairs.1 hy
  have hpt := ((hs.mem_parents_iff (mem_commitsOf_iff.1 hc).1 hp).1 hpc).1
  have hqt := ((hs.mem_parents_iff (mem_commitsOf_iff.1 hd).1 hq).1 hqd).1
  have hpq : p = q := by
    apply hs.keyed.eq_of_hash hp hq _ (hpx.trans (hxy.trans hqy.symm))
    rw [hpt, hqt, (hs.fitting.mem_commitsOf hr hc).2, (hs.fitting.mem_commitsOf hr hd).2]
  rw [hpq, hby] at hbx
  exact Prod.ext hxy (Option.some.inj hbx).symm

/-! ## Twins -/

namespace SameHistory

theorem symm (h : s.SameHistory s') : s'.SameHistory s where
  accounts := h.accounts.symm
  applications := h.applications.symm
  repositories id := (h.repositories id).symm
  parents c' hc' c hc htoken hhash := (h.parents c hc c' hc' htoken.symm hhash.symm).symm

/-- Commits with the same token and hash have the same account. -/
theorem accountOf_eq (h : s.SameHistory s') (hs : s.Sound owner n) (hs' : s'.Sound owner' m)
    {c c' : Commit} (hc : c ∈ s.commits) (hc' : c' ∈ s'.commits) (htoken : c'.token = c.token)
    (hhash : c'.hash = c.hash) : s'.accountOf c' = s.accountOf c := by
  have hold := hs.keyed.account_eq_accountOf hc
  have hnew := hs'.keyed.account_eq_accountOf hc'
  rw [h.accounts, htoken, hhash, hold] at hnew
  exact (Option.some.inj hnew).symm

/-- Every commit has a twin. -/
theorem exists_twin (h : s.SameHistory s') (hs : s.Sound owner n) (hs' : s'.Sound owner' m)
    {c : Commit} (hc : c ∈ s.commits) :
    ∃ c' ∈ s'.commits, c'.token = c.token ∧ c'.hash = c.hash := by
  have hold := hs.keyed.account_eq_accountOf hc
  rw [← h.accounts] at hold
  obtain ⟨c', hfind, -⟩ := Option.map_eq_some_iff.1 hold
  exact ⟨c', hs'.keyed.findCommit_eq_some_iff.1 hfind⟩

/-- The repository with an id has the same token and name. -/
theorem exists_repository (h : s.SameHistory s') {r : Repository} (hr : r ∈ s.repositories) :
    ∃ r' ∈ s'.repositories, r'.id = r.id ∧ r'.token = r.token ∧ r'.name = r.name := by
  have hget := h.repositories r.id
  rw [Sorted.get?_key hr, Option.map_some] at hget
  obtain ⟨r', hr', hkey⟩ := Option.map_eq_some_iff.1 hget
  obtain ⟨htoken, hname⟩ := Prod.ext_iff.1 hkey
  exact ⟨r', Sorted.mem_of_get? hr', Sorted.key_of_get? hr', htoken, hname⟩

section Twins

variable {r r' : Repository} {c c' : Commit}

/-- A repository contains a commit just if the other one contains its twin. -/
theorem mem_commits_iff (h : s.SameHistory s') (hs : s.Sound owner n) (hs' : s'.Sound owner' m)
    (hr : r ∈ s.repositories) (hr' : r' ∈ s'.repositories) (hrt : r'.token = r.token)
    (hrn : r'.name = r.name) (hc : c ∈ s.commits) (hc' : c' ∈ s'.commits)
    (htoken : c'.token = c.token) (hhash : c'.hash = c.hash) :
    c'.id ∈ r'.commits ↔ c.id ∈ r.commits := by
  rw [hs'.keyed.mem_commits_iff hr', hs.keyed.mem_commits_iff hr,
    h.accountOf_eq hs hs' hc hc' htoken hhash, hrt, hrn]

/-- The commits of a repository have twins in the other one. -/
theorem exists_twin_of_mem_commitsOf (h : s.SameHistory s') (hs : s.Sound owner n)
    (hs' : s'.Sound owner' m) (hr : r ∈ s.repositories) (hr' : r' ∈ s'.repositories)
    (hrt : r'.token = r.token) (hrn : r'.name = r.name) (hc : c ∈ s.commitsOf r) :
    ∃ c' ∈ s'.commitsOf r', c'.token = c.token ∧ c'.hash = c.hash := by
  obtain ⟨hmem, hid⟩ := mem_commitsOf_iff.1 hc
  obtain ⟨c', hc', htoken, hhash⟩ := h.exists_twin hs hs' hmem
  have hid' := (h.mem_commits_iff hs hs' hr hr' hrt hrn hmem hc' htoken hhash).2 hid
  exact ⟨c', mem_commitsOf_iff.2 ⟨hc', hid'⟩, htoken, hhash⟩

theorem branchName_eq (h : s.SameHistory s') (hs : s.Sound owner n) (hs' : s'.Sound owner' m)
    (hc : c ∈ s.commits) (hc' : c' ∈ s'.commits) (htoken : c'.token = c.token)
    (hhash : c'.hash = c.hash) : s'.branchName c' = s.branchName c := by
  rw [hs'.branchName_eq hc', hs.branchName_eq hc, h.accountOf_eq hs hs' hc hc' htoken hhash]

theorem commitDate_eq (h : s.SameHistory s') (hs : s.Sound owner n) (hs' : s'.Sound owner' m)
    (hc : c ∈ s.commits) (hc' : c' ∈ s'.commits) (htoken : c'.token = c.token)
    (hhash : c'.hash = c.hash) : c'.commitDate = c.commitDate :=
  congrArg CommitAccount.commitDate (h.accountOf_eq hs hs' hc hc' htoken hhash)

/-- Twins have the same record. -/
theorem commitRecord_eq (h : s.SameHistory s') (hs : s.Sound owner n) (hs' : s'.Sound owner' m)
    (hc : c ∈ s.commits) (hc' : c' ∈ s'.commits) (htoken : c'.token = c.token)
    (hhash : c'.hash = c.hash) : s'.commitRecord c' = s.commitRecord c := by
  have hparents : s'.parentHashes c' = s.parentHashes c := h.parents c hc c' hc' htoken hhash
  unfold parentHashes at hparents
  unfold commitRecord
  rw [hhash, h.commitDate_eq hs hs' hc hc' htoken hhash, h.branchName_eq hs hs' hc hc' htoken hhash,
    hparents]

end Twins

/-! ## Views -/

section Views

variable {r r' : Repository}

/-- The records of a repository are the same, in whatever order. -/
theorem records_perm (h : s.SameHistory s') (hs : s.Sound owner n) (hs' : s'.Sound owner' m)
    (hr : r ∈ s.repositories) (hr' : r' ∈ s'.repositories) (hrt : r'.token = r.token)
    (hrn : r'.name = r.name) :
    ((s'.commitsOf r').map s'.commitRecord).Perm ((s.commitsOf r).map s.commitRecord) := by
  -- no record is listed twice, so having the same members is enough
  have nodup : ∀ {l : List Commit} {f : Commit → CommitRecord}, (∀ c, (f c).hash = c.hash) →
      (l.map Commit.hash).Nodup → (l.map f).Nodup := by
    intro l f hf hl
    have hmap : (l.map f).map CommitRecord.hash = l.map Commit.hash := by
      rw [List.map_map]
      exact List.map_congr_left fun c _ => hf c
    rw [← hmap] at hl
    exact hl.of_map _
  apply (List.perm_ext_iff_of_nodup (nodup (fun _ => rfl) (hs'.nodup_hashes hr'))
    (nodup (fun _ => rfl) (hs.nodup_hashes hr))).2
  intro x
  rw [List.mem_map, List.mem_map]
  constructor
  · rintro ⟨c', hc', rfl⟩
    obtain ⟨c, hc, htoken, hhash⟩ :=
      h.symm.exists_twin_of_mem_commitsOf hs' hs hr' hr hrt.symm hrn.symm hc'
    refine ⟨c, hc, ?_⟩
    exact h.symm.commitRecord_eq hs' hs (mem_commitsOf_iff.1 hc').1 (mem_commitsOf_iff.1 hc).1
      htoken hhash
  · rintro ⟨c, hc, rfl⟩
    obtain ⟨c', hc', htoken, hhash⟩ := h.exists_twin_of_mem_commitsOf hs hs' hr hr' hrt hrn hc
    refine ⟨c', hc', ?_⟩
    exact h.commitRecord_eq hs hs' (mem_commitsOf_iff.1 hc).1 (mem_commitsOf_iff.1 hc').1
      htoken hhash

theorem mem_outsidePairs_of_mem (h : s.SameHistory s') (hs : s.Sound owner n)
    (hs' : s'.Sound owner' m) (hr : r ∈ s.repositories) (hr' : r' ∈ s'.repositories)
    (hrt : r'.token = r.token) (hrn : r'.name = r.name) {x : String × String}
    (hx : x ∈ s.outsidePairs r) : x ∈ s'.outsidePairs r' := by
  obtain ⟨c, hc, p, hp, hpc, hout, hhash, hbranch⟩ := mem_outsidePairs.1 hx
  have hmem := (mem_commitsOf_iff.1 hc).1
  obtain ⟨htp, hparent⟩ := (hs.mem_parents_iff hmem hp).1 hpc
  obtain ⟨c', hc', hct, hch⟩ := h.exists_twin_of_mem_commitsOf hs hs' hr hr' hrt hrn hc
  obtain ⟨p', hp', hpt, hph⟩ := h.exists_twin hs hs' hp
  have hmem' := (mem_commitsOf_iff.1 hc').1
  refine mem_outsidePairs.2 ⟨c', hc', p', hp', ?_, ?_, hph.trans hhash, ?_⟩
  · rw [hs'.mem_parents_iff hmem' hp', hpt, htp, hct, hph,
      h.accountOf_eq hs hs' hmem hmem' hct hch]
    exact ⟨rfl, hparent⟩
  · rwa [h.mem_commits_iff hs hs' hr hr' hrt hrn hp hp' hpt hph]
  · rw [h.branchName_eq hs hs' hp hp' hpt hph, hbranch]

theorem outsideBranches_eq (h : s.SameHistory s') (hs : s.Sound owner n) (hs' : s'.Sound owner' m)
    (hr : r ∈ s.repositories) (hr' : r' ∈ s'.repositories) (hrt : r'.token = r.token)
    (hrn : r'.name = r.name) :
    s'.outsideBranches (s'.commitsOf r') = s.outsideBranches (s.commitsOf r) := by
  rw [outsideBranches_commitsOf, outsideBranches_commitsOf]
  apply Sorted.ofList_congr (hs'.outsidePairs_functional hr')
  intro x
  constructor
  · exact h.symm.mem_outsidePairs_of_mem hs' hs hr' hr hrt.symm hrn.symm
  · exact h.mem_outsidePairs_of_mem hs hs' hr hr' hrt hrn

theorem commitTree_eq (h : s.SameHistory s') (hs : s.Sound owner n) (hs' : s'.Sound owner' m)
    (token name : String) : s'.commitTree token name = s.commitTree token name := by
  have happlication : s'.application token name = s.application token name := by
    unfold application findApplication
    rw [h.applications]
  unfold commitTree
  rw [happlication]
  cases s.application token name with
  | error e =>
    show Except.error e = Except.error e
    rfl
  | ok a =>
    simp only [bind, Except.bind]
    cases a.repository with
    | none => rfl
    | some id =>
      have hget := h.repositories id
      simp only
      cases hr : s.repositories.get? id with
      | none =>
        rw [hr, Option.map_none, Option.map_eq_none_iff] at hget
        rw [hget]
      | some r =>
        rw [hr, Option.map_some] at hget
        obtain ⟨r', hr', hkey⟩ := Option.map_eq_some_iff.1 hget
        obtain ⟨hrt, hrn⟩ := Prod.ext_iff.1 hkey
        have hmem := Sorted.mem_of_get? hr
        have hmem' := Sorted.mem_of_get? hr'
        have hhashes : (((s'.commitsOf r').map s'.commitRecord).map CommitRecord.hash).Nodup := by
          rw [List.map_map]
          exact hs'.nodup_hashes hmem'
        rw [hr']
        simp only
        rw [h.outsideBranches_eq hs hs' hmem hmem' hrt hrn,
          BranchView.ofHistory_congr (h.records_perm hs hs' hmem hmem' hrt hrn) hhashes]

theorem files_eq (h : s.SameHistory s') (token hash : String) :
    (s'.loadCommit hash token).map s'.filesLoaded = (s.loadCommit hash token).map s.filesLoaded := by
  have hloaded : ∀ (s : Store) (c : Commit), s.filesLoaded (s.hydrate c) = (s.accountOf c).files := by
    intro s c
    show (((c.fileRevisions.toList.filterMap s.files.get?).map s.hydrateFile).map
      fun f => s.fileKey f.file).toFinset = _
    rw [List.map_map]
    rfl
  have haccount : (s'.findCommit token hash).map s'.accountOf
      = (s.findCommit token hash).map s.accountOf :=
    congrFun (congrFun h.accounts token) hash
  unfold loadCommit
  cases hfind : s.findCommit token hash with
  | none =>
    rw [hfind, Option.map_none, Option.map_eq_none_iff] at haccount
    rw [haccount]
    rfl
  | some c =>
    rw [hfind, Option.map_some] at haccount
    obtain ⟨c', hfind', hsame⟩ := Option.map_eq_some_iff.1 haccount
    rw [hfind']
    show Except.ok (s'.filesLoaded (s'.hydrate c')) = Except.ok (s.filesLoaded (s.hydrate c))
    rw [hloaded, hloaded, hsame]

theorem newest_eq (h : s.SameHistory s') (hs : s.Sound owner n) (hs' : s'.Sound owner' m)
    (token name : String) :
    ((s'.findRepository token name).bind s'.mostRecentCommit).map Commit.hash
      = ((s.findRepository token name).bind s.mostRecentCommit).map Commit.hash := by
  cases hfind : s.findRepository token name with
  | none =>
    have hnone : s'.findRepository token name = none := by
      cases hfind' : s'.findRepository token name with
      | none => rfl
      | some r' =>
        obtain ⟨hr', hrt, hrn⟩ := findRepository_spec hfind'
        obtain ⟨r, hr, -, ht, hn⟩ := h.symm.exists_repository hr'
        have hkey : (r.token, r.name) = (token, name) := Prod.ext (ht.trans hrt) (hn.trans hrn)
        exact absurd hkey (Sorted.find?_pair_eq_none_iff.1 hfind r hr)
    rw [hnone]
    rfl
  | some r =>
    obtain ⟨hr, hrt, hrn⟩ := findRepository_spec hfind
    obtain ⟨r', hr', -, ht, hn⟩ := h.exists_repository hr
    have hfind' : s'.findRepository token name = some r' :=
      hs'.keyed.findRepository_eq_some_iff.2 ⟨hr', ht.trans hrt, hn.trans hrn⟩
    rw [hfind', Option.bind_some, Option.bind_some]
    apply Commit.newest_congr
    · intro c' hc'
      obtain ⟨c, hc, htoken, hhash⟩ :=
        h.symm.exists_twin_of_mem_commitsOf hs' hs hr' hr ht.symm hn.symm hc'
      exact ⟨c, hc, h.symm.commitDate_eq hs' hs (mem_commitsOf_iff.1 hc').1
        (mem_commitsOf_iff.1 hc).1 htoken hhash, hhash⟩
    · intro c hc
      obtain ⟨c', hc', htoken, hhash⟩ := h.exists_twin_of_mem_commitsOf hs hs' hr hr' ht hn hc
      exact ⟨c', hc', h.commitDate_eq hs hs' (mem_commitsOf_iff.1 hc).1
        (mem_commitsOf_iff.1 hc').1 htoken hhash, hhash⟩

end Views

/-- Stores with the same history look the same. -/
theorem sameViews (h : s.SameHistory s') (hs : s.Sound owner n) (hs' : s'.Sound owner' m) :
    s.SameViews s' where
  commitTree := h.commitTree_eq hs hs'
  files := h.files_eq
  newest := h.newest_eq hs hs'

end SameHistory

end Store

end Cityscape
