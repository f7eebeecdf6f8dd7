import Cityscape.Proofs.Overlays
import Cityscape.Proofs.Roots
import Cityscape.Proofs.Selection

/-!
# `Newest`: the landscape of the newest commits

The newest commits of the repositories of a token are drawn together. Which city a commit goes
to is looked up again, by the commit: it is that of the first repository that contains it. So the
city of a repository shows the newest commits that this look-up brings it
(`Store.latest_of_calls`). These are its own newest commit and no other one, unless repositories
share a newest commit. A repository in which no newest commit is looked up has no city
(`Store.missing_city`).
-/

namespace Cityscape

/-- One commit comes after another one: it has a later date, or the same one and a lesser hash. -/
theorem Commit.byRecency_eq_lt_iff {a b : Commit} : byRecency a b = .lt ↔
    compare a.commitDate b.commitDate = .lt
      ∨ a.commitDate = b.commitDate ∧ compare b.hash a.hash = .lt := by
  unfold byRecency
  rw [Ordering.then_eq_lt, Std.LawfulEqCmp.compare_eq_iff_eq]

/-- The city of a repository shows the given files and no others. -/
def Landscape.ShowsIn (l : Landscape) (r : Repository) (files : FileRevision → Prop) : Prop :=
  ∃ city, l.cities.find? (stableId r.name) = some city ∧ city.id = stableId r.name ∧
    city.name = r.name ∧ ∀ x, x ∈ city.buildingIds ↔ ∃ f, files f ∧ f.HasKey x

/-- Two repositories of a landscape that have been told of the same commit. -/
def Ingestion.sampleForked : List Ingestion := sampleForks ++ [.commit (.sampleFork "r2")]

namespace Store

/-- The newest commit of a repository. Dates decide, and no date is the earliest one; of several
commits with one date it is the one with the least hash. -/
structure NewestOf (s : Store) (r : Repository) (c : Commit) : Prop where
  mem : c ∈ s.commits
  contained : c.id ∈ r.commits
  newest : ∀ x ∈ s.commits, x.id ∈ r.commits → x = c ∨
    compare x.commitDate c.commitDate = .lt
      ∨ x.commitDate = c.commitDate ∧ compare c.hash x.hash = .lt

/-- The commit is the newest one of a repository of the token, and is looked up in this one. -/
def DrawnFor (s : Store) (r : Repository) (c : Commit) : Prop :=
  s.repositoryOfCommit c.id = some r ∧ ∃ q ∈ s.repositories, q.token = r.token ∧ s.NewestOf q c

/-- The files of a commit. -/
def FileOf (s : Store) (c : Commit) (f : FileRevision) : Prop :=
  f ∈ s.files ∧ f.id ∈ c.fileRevisions

/-- What the landscape of the newest commits shows of a repository. -/
structure LatestShows (s : Store) (r : Repository) (l : Landscape) : Prop where
  /-- It has a city just if some newest commit is looked up in it. -/
  city : (l.cities.find? (stableId r.name)).isSome ↔ ∃ c, s.DrawnFor r c
  /-- Its city shows the files of those commits. -/
  files : (∃ c, s.DrawnFor r c) → l.ShowsIn r fun f => ∃ c, s.DrawnFor r c ∧ s.FileOf c f
  /-- Its city shows the files of its own newest commit, if no other repository contains that one
  and it does not contain that of another one. -/
  own : ∀ c, s.NewestOf r c → (∀ q ∈ s.repositories, c.id ∈ q.commits → q = r) →
    (∀ q ∈ s.repositories, ∀ d, s.NewestOf q d → d.id ∈ r.commits → q = r) →
      l.ShowsIn r (s.FileOf c)

variable {owner : NodeId → String} {n : Nat} {s : Store} {r q : Repository} {c d : Commit}
  {token : String}

/-! ## The newest commit of a repository -/

theorem newestOf_iff : s.NewestOf r c ↔
    c ∈ s.commitsOf r ∧ ∀ x ∈ s.commitsOf r, x ≠ c → Commit.byRecency x c = .lt := by
  simp only [mem_commitsOf_iff, Commit.byRecency_eq_lt_iff, ← or_iff_not_imp_left]
  constructor
  · exact fun h => ⟨⟨h.mem, h.contained⟩, fun x hx => h.newest x hx.1 hx.2⟩
  · exact fun h => ⟨h.1.1, h.1.2, fun x hx hxr => h.2 x ⟨hx, hxr⟩⟩

theorem Sound.mostRecentCommit_eq_some_iff (hs : s.Sound owner n) (hr : r ∈ s.repositories) :
    s.mostRecentCommit r = some c ↔ s.NewestOf r c := by
  rw [newestOf_iff]
  apply Commit.greatest?_eq_some_iff
  -- commits of one repository with the same hash are one commit
  intro x hx y hy he
  obtain ⟨hxmem, hxt⟩ := hs.fitting.mem_commitsOf hr hx
  obtain ⟨hymem, hyt⟩ := hs.fitting.mem_commitsOf hr hy
  exact hs.keyed.eq_of_hash hxmem hymem (hxt.trans hyt.symm) (Commit.hash_eq_of_byRecency he)

/-- The commits that are drawn are the newest ones of the repositories. -/
theorem Sound.mem_latest_iff (hs : s.Sound owner n) :
    c ∈ (s.repositoriesOf token).filterMap s.mostRecentCommit ↔
      ∃ q ∈ s.repositories, q.token = token ∧ s.NewestOf q c := by
  rw [List.mem_filterMap]
  constructor
  · rintro ⟨q, hq, hc⟩
    obtain ⟨hmem, htoken⟩ := mem_repositoriesOf_iff.1 hq
    exact ⟨q, hmem, htoken, (hs.mostRecentCommit_eq_some_iff hmem).1 hc⟩
  · rintro ⟨q, hq, htoken, hc⟩
    exact ⟨q, mem_repositoriesOf_iff.2 ⟨hq, htoken⟩, (hs.mostRecentCommit_eq_some_iff hq).2 hc⟩

/-- A repository with a commit has a newest one. -/
theorem Sound.exists_newestOf (hs : s.Sound owner n) (hr : r ∈ s.repositories) {id : NodeId}
    (hid : id ∈ r.commits) : ∃ c, s.NewestOf r c := by
  obtain ⟨x, hx, -⟩ := (hs.fitting.repositories r hr).commits id hid
  have hmem : x ∈ s.commitsOf r := List.mem_filterMap.2 ⟨id, hid, hx⟩
  cases hfound : s.mostRecentCommit r with
  | none =>
    rw [Commit.greatest?_eq_none_iff.1 hfound] at hmem
    exact absurd hmem List.not_mem_nil
  | some c => exact ⟨c, (hs.mostRecentCommit_eq_some_iff hr).1 hfound⟩

/-! ## The city of a commit -/

theorem mem_of_repositoryOfCommit {id : NodeId} (h : s.repositoryOfCommit id = some r) :
    r ∈ s.repositories ∧ id ∈ r.commits := by
  unfold repositoryOfCommit at h
  have hcontains : r.commits.contains id = true := by simpa using List.find?_some h
  exact ⟨List.mem_of_find?_eq_some h, SortedSet.contains_iff.1 hcontains⟩

/-- A commit of a repository is looked up in one of the same token. -/
theorem Sound.exists_repositoryOfCommit (hs : s.Sound owner n) (hq : q ∈ s.repositories)
    (hc : c ∈ s.commitsOf q) :
    ∃ r ∈ s.repositories, r.token = q.token ∧ s.repositoryOfCommit c.id = some r := by
  have hid := (mem_commitsOf_iff.1 hc).2
  cases hfind : s.repositoryOfCommit c.id with
  | none => exact absurd (SortedSet.contains_iff.2 hid) (List.find?_eq_none.1 hfind q hq)
  | some r =>
    obtain ⟨hr, hrid⟩ := mem_of_repositoryOfCommit hfind
    have hcr : c ∈ s.commitsOf r := mem_commitsOf_iff.2 ⟨(mem_commitsOf_iff.1 hc).1, hrid⟩
    refine ⟨r, hr, ?_, rfl⟩
    rw [← (hs.fitting.mem_commitsOf hr hcr).2, (hs.fitting.mem_commitsOf hq hc).2]

/-- Whether a newest commit goes to the city of a repository. -/
theorem Sound.drawnFor_iff (hs : s.Sound owner n) (hr : r ∈ s.repositories)
    (hstable : ∀ q ∈ s.repositories, q.token = r.token → stableId r.name = stableId q.name →
      r.name = q.name) :
    s.DrawnFor r c ↔ c ∈ (s.repositoriesOf r.token).filterMap s.mostRecentCommit ∧
      stableId r.name = stableId (s.cityName c.id) := by
  rw [hs.mem_latest_iff]
  unfold DrawnFor cityName
  constructor
  · rintro ⟨hfind, hnewest⟩
    rw [hfind]
    exact ⟨hnewest, rfl⟩
  · rintro ⟨⟨q, hq, htoken, hnewest⟩, hname⟩
    obtain ⟨p, hp, hpt, hfind⟩ := hs.exists_repositoryOfCommit hq (newestOf_iff.1 hnewest).1
    rw [hfind] at hname ⊢
    have hpr : p.token = r.token := hpt.trans htoken
    have heq : r = p := hs.keyed.repositories r hr p hp (Prod.ext hpr.symm (hstable p hp hpr hname))
    exact ⟨congrArg some heq.symm, q, hq, htoken, hnewest⟩

/-- Only its own newest commit is drawn for a repository that is apart from the others. -/
theorem drawnFor_iff_of_apart (hr : r ∈ s.repositories) (hs : s.Sound owner n)
    (hc : s.NewestOf r c) (halone : ∀ q ∈ s.repositories, c.id ∈ q.commits → q = r)
    (hothers : ∀ q ∈ s.repositories, ∀ d, s.NewestOf q d → d.id ∈ r.commits → q = r) :
    s.DrawnFor r d ↔ d = c := by
  constructor
  · rintro ⟨hfind, q, hq, -, hd⟩
    obtain rfl := hothers q hq d hd (mem_of_repositoryOfCommit hfind).2
    rw [← hs.mostRecentCommit_eq_some_iff hr] at hc hd
    exact Option.some.inj (hd.symm.trans hc)
  · rintro rfl
    obtain ⟨p, hp, -, hfind⟩ := hs.exists_repositoryOfCommit hr (newestOf_iff.1 hc).1
    obtain rfl := halone p hp (mem_of_repositoryOfCommit hfind).2
    exact ⟨hfind, p, hr, rfl, hc⟩

/-! ## The landscape -/

/-- The cities of drawn commits are those of their repositories. -/
theorem isSome_city_ofCommits {cs : List Commit} {k : String} :
    ((Landscape.ofCommits token (cs.map s.drawn)).cities.find? k).isSome ↔
      ∃ c ∈ cs, k = stableId (s.cityName c.id) := by
  rw [← Option.isSome_map (f := City.entity)]
  refine (Landscape.has_ofCommits token (cs.map s.drawn) .city k).trans ?_
  simp only [List.mem_map, exists_exists_and_eq_and]
  rfl

/-- A city has the name of one of the commits that are drawn into it. -/
theorem named_of_city {cs : List Commit} {k : String} {city : City}
    (h : (Landscape.ofCommits token (cs.map s.drawn)).cities.find? k = some city) :
    city.id = k ∧ ∃ c ∈ cs, k = stableId (s.cityName c.id) ∧ city.name = s.cityName c.id := by
  have hentity : (Landscape.ofCommits token (cs.map s.drawn)).entity? .city k = some city.entity :=
    congrArg (Option.map City.entity) h
  obtain ⟨m, hm, hkey, hnamed⟩ := Landscape.city_ofCommits _ _ hentity
  obtain ⟨c, hc, rfl⟩ := List.mem_map.1 hm
  exact ⟨(congrArg Entity.id hnamed).trans hkey.symm, c, hc, hkey, congrArg Entity.name hnamed⟩

/-- A city lists the files of the commits that are drawn into it. -/
theorem Sound.mem_buildingIds_iff (hs : s.Sound owner n) {cs : List Commit} {k x : String}
    {city : City}
    (h : (Landscape.ofCommits token (cs.map s.drawn)).cities.find? k = some city) :
    x ∈ city.buildingIds ↔ ∃ f, (∃ c, (c ∈ cs ∧ k = stableId (s.cityName c.id)) ∧ s.FileOf c f) ∧
      f.HasKey x := by
  have hbuildings : (Landscape.ofCommits token (cs.map s.drawn)).list .cityBuilding k
      = city.buildingIds := by
    show ((Option.map City.buildingIds _).getD [] : List String) = _
    rw [h]
    rfl
  have hlist := hs.mem_list_ofCommits token (fun c => s.cityName c.id) cs
    (by decide : Link.child .cityBuilding ≠ .district) k x
  rw [← hbuildings]
  refine hlist.trans ?_
  simp only [HydratedCommit.Places, mem_files_hydrate, FileOf]
  constructor
  · rintro ⟨c, hc, _, ⟨f, hid, hget, rfl⟩, hcity, hkey⟩
    exact ⟨f, ⟨c, ⟨hc, hcity⟩, Sorted.mem_of_get? hget, hid⟩, hkey⟩
  · rintro ⟨f, ⟨c, ⟨hc, hcity⟩, hmem, hid⟩, hkey⟩
    exact ⟨c, hc, _, ⟨f, hid, Sorted.get?_key hmem, rfl⟩, hcity, hkey⟩

/-- The landscape of the newest commits shows for each repository what is drawn for it. -/
theorem Sound.latestShows (hs : s.Sound owner n) (hr : r ∈ s.repositories)
    (hstable : ∀ q ∈ s.repositories, q.token = r.token → stableId r.name = stableId q.name →
      r.name = q.name) :
    s.LatestShows r (Landscape.ofCommits r.token
      (((s.repositoriesOf r.token).filterMap s.mostRecentCommit).map s.drawn)) := by
  have hdrawn : ∀ c, s.DrawnFor r c ↔ _ := fun c => hs.drawnFor_iff hr hstable
  generalize (s.repositoriesOf r.token).filterMap s.mostRecentCommit = cs at hdrawn
  have hcity : ((Landscape.ofCommits r.token (cs.map s.drawn)).cities.find?
      (stableId r.name)).isSome ↔ ∃ c, s.DrawnFor r c := by
    simp only [isSome_city_ofCommits, hdrawn]
  have hfiles : (∃ c, s.DrawnFor r c) →
      (Landscape.ofCommits r.token (cs.map s.drawn)).ShowsIn r
        fun f => ∃ c, s.DrawnFor r c ∧ s.FileOf c f := by
    intro hexists
    obtain ⟨city, hfind⟩ := Option.isSome_iff_exists.1 (hcity.2 hexists)
    obtain ⟨hid, c, hc, hkey, hnamed⟩ := named_of_city hfind
    -- the commit that the city is named after is looked up in the repository
    have hname : s.cityName c.id = r.name := by
      unfold cityName
      rw [((hdrawn c).2 ⟨hc, hkey⟩).1]
    refine ⟨city, hfind, hid, hnamed.trans hname, fun x => ?_⟩
    simp only [hdrawn]
    exact hs.mem_buildingIds_iff hfind
  refine ⟨hcity, hfiles, fun c hc halone hothers => ?_⟩
  have honly : ∀ d, s.DrawnFor r d ↔ d = c := fun d =>
    drawnFor_iff_of_apart hr hs hc halone hothers
  have hshows := hfiles ⟨c, (honly c).2 rfl⟩
  simpa only [honly, exists_eq_left] using hshows

/-- If a repository of the token has a commit, there is a landscape of the newest commits. -/
theorem Sound.structureOf_latest (hs : s.Sound owner n)
    (hcommit : ∃ r ∈ s.repositories, r.token = token ∧ ∃ id, id ∈ r.commits) :
    s.structureOf token .latest = .ok (Landscape.ofCommits token
      (((s.repositoriesOf token).filterMap s.mostRecentCommit).map s.drawn)) := by
  obtain ⟨r, hr, htoken, id, hid⟩ := hcommit
  obtain ⟨c, hc⟩ := hs.exists_newestOf hr hid
  have hne := List.ne_nil_of_mem (hs.mem_latest_iff.2 ⟨r, hr, htoken, hc⟩)
  exact (s.structureOf_eq token .latest).trans (if_neg hne)

/-- After any calls, if a repository of the token has a commit and the ids of cities tell the
repositories apart: there is a landscape of the newest commits, and it shows for each repository
the newest commits that are looked up in it. -/
theorem latest_of_calls (calls : List Ingestion) (token : String)
    (hids : (∅ : Store).idsIssued calls < 2 ^ 64)
    (hcommit : ∃ r ∈ ((∅ : Store).after calls).repositories, r.token = token ∧
      ∃ id, id ∈ r.commits)
    (hstable : ∀ r ∈ ((∅ : Store).after calls).repositories, r.token = token →
      ∀ q ∈ ((∅ : Store).after calls).repositories, q.token = token →
        stableId r.name = stableId q.name → r.name = q.name) :
    ∃ l, ((∅ : Store).after calls).structureOf token .latest = .ok l ∧
      ∀ r ∈ ((∅ : Store).after calls).repositories, r.token = token →
        ((∅ : Store).after calls).LatestShows r l := by
  obtain ⟨owner, hs⟩ := sound_after_empty calls hids
  generalize (∅ : Store).after calls = s at hs hcommit hstable
  refine ⟨_, hs.structureOf_latest hcommit, fun r hr htoken => ?_⟩
  subst htoken
  exact hs.latestShows hr fun q hq hqt => hstable r hr rfl q hq hqt

theorem stableId_sampleForked : ∀ r ∈ ((∅ : Store).after Ingestion.sampleForked).repositories,
    ∀ q ∈ ((∅ : Store).after Ingestion.sampleForked).repositories,
      stableId r.name = stableId q.name → r.name = q.name := by
  have hlist : ∀ r ∈ ((∅ : Store).after Ingestion.sampleForked).repositories.toList,
      ∀ q ∈ ((∅ : Store).after Ingestion.sampleForked).repositories.toList,
        stableId r.name = stableId q.name → r.name = q.name := by decide +kernel
  exact hlist

theorem commits_sampleForked : ∃ r ∈ ((∅ : Store).after Ingestion.sampleForked).repositories,
    r.token = "t" ∧ ∃ id, id ∈ r.commits := by
  have hlist : ∃ r ∈ ((∅ : Store).after Ingestion.sampleForked).repositories.toList,
      r.token = "t" ∧ r.commits.toList ≠ [] := by decide +kernel
  obtain ⟨r, hr, htoken, hne⟩ := hlist
  exact ⟨r, hr, htoken, List.exists_mem_of_ne_nil _ hne⟩

theorem latest_of_calls_sample :
    (∅ : Store).idsIssued Ingestion.sampleForked < 2 ^ 64 ∧
      ∃ l, ((∅ : Store).after Ingestion.sampleForked).structureOf "t" .latest = .ok l ∧
        ∀ r ∈ ((∅ : Store).after Ingestion.sampleForked).repositories, r.token = "t" →
          ((∅ : Store).after Ingestion.sampleForked).LatestShows r l := by
  have hids : (∅ : Store).idsIssued Ingestion.sampleForked < 2 ^ 64 := by decide +kernel
  exact ⟨hids, latest_of_calls Ingestion.sampleForked "t" hids commits_sampleForked
    fun r hr _ q hq _ => stableId_sampleForked r hr q hq⟩

/-- The newest commit of the second repository is drawn into the city of the first one, and the
second one has no city. -/
theorem missing_city :
    (∅ : Store).idsIssued Ingestion.sampleForked < 2 ^ 64 ∧
      ∃ r ∈ ((∅ : Store).after Ingestion.sampleForked).repositories, r.token = "t" ∧ r.name = "r2" ∧
        ∃ c l, ((∅ : Store).after Ingestion.sampleForked).NewestOf r c ∧
          ((∅ : Store).after Ingestion.sampleForked).structureOf "t" .latest = .ok l ∧
          ¬l.ShowsIn r (((∅ : Store).after Ingestion.sampleForked).FileOf c) := by
  have hids : (∅ : Store).idsIssued Ingestion.sampleForked < 2 ^ 64 := by decide +kernel
  obtain ⟨owner, hs⟩ := sound_after_empty _ hids
  have hstable := stableId_sampleForked
  have hcommit := commits_sampleForked
  have hnewest : ((((∅ : Store).after Ingestion.sampleForked).findRepository "t" "r2").bind
      ((∅ : Store).after Ingestion.sampleForked).mostRecentCommit).isSome = true := by
    decide +kernel
  have hfirst : ∀ c ∈ ((∅ : Store).after Ingestion.sampleForked).commits.toList,
      (((∅ : Store).after Ingestion.sampleForked).repositoryOfCommit c.id).map Repository.name
        = some "r1" := by decide +kernel
  generalize (∅ : Store).after Ingestion.sampleForked = s at hs hstable hcommit hnewest hfirst ⊢
  obtain ⟨c, hc⟩ := Option.isSome_iff_exists.1 hnewest
  obtain ⟨r, hfind, hc⟩ := Option.bind_eq_some_iff.1 hc
  obtain ⟨hr, htoken, hname⟩ := findRepository_spec hfind
  have hshows := hs.latestShows hr fun q hq _ => hstable r hr q hq
  rw [htoken] at hshows
  refine ⟨hids, r, hr, htoken, hname, c, _, (hs.mostRecentCommit_eq_some_iff hr).1 hc,
    hs.structureOf_latest hcommit, ?_⟩
  rintro ⟨city, hcity, -⟩
  -- every commit is looked up in the first repository
  obtain ⟨d, hd, _, -, -, hnew⟩ := hshows.city.1 (Option.isSome_of_eq_some hcity)
  have hone := hfirst d hnew.mem
  rw [hd, Option.map_some, hname] at hone
  exact absurd hone (by decide)

end Store

end Cityscape
