import Cityscape.Proofs.Hydration
import Cityscape.Proofs.Outlines
import Cityscape.Proofs.Selection
import Cityscape.Proofs.Versions

/-!
# `VersionViews`: what is seen of versions after a span

A span leaves versions alone (`Store.SameVersions`), and so it does not change what is seen of
them. Loading a commit again gives the same files and classes below the same directories, so the
landscapes differ in functions only and metrics of files and classes not at all; what is asked
about branches and complete commits is the same (`Store.spans_keep_versions`).
-/

namespace Cityscape

/-- Calls after which a span can name a file of a commit. -/
def Ingestion.sampleTraceable : List Ingestion :=
  sample ++
    [.repository
      { landscapeToken := "t", repositoryName := "shop", branchName := "main"
        applicationPaths := Sorted.ofList [("app", "")] },
    .commit
      { landscapeToken := "t", repositoryName := "shop", commitHash := "c3"
        addedFiles := [⟨"h3", "src/c"⟩] }]

/-- A span that puts its function into the file of the commit. -/
def SpanFact.sampleTraced : SpanFact :=
  { landscapeToken := "t", applicationName := "app", traceId := "x", spanId := "z"
    functionFqn := "src.c.run", startTime := 1, endTime := 2, commitId := some "c3" }

namespace Store

/-- What is seen of versions is the same. An application that only the second store has shows
neither files nor classes. -/
structure SameVersionViews (s s' : Store) : Prop where
  latestComplete : ∀ repository token branch,
    s'.latestComplete repository token branch = s.latestComplete repository token branch
  latestCommit : ∀ token repository branch,
    s'.latestCommit token repository branch = s.latestCommit token repository branch
  commitTree : ∀ token name a, s.application token name = .ok a →
    s'.commitTree token name = s.commitTree token name
  metrics : ∀ token name hash a, s.application token name = .ok a →
    (s'.metricsOf token name hash).map CodeMetrics.withoutMethods
      = (s.metricsOf token name hash).map CodeMetrics.withoutMethods
  newMetrics : ∀ token name hash m, s.findApplication token name = none →
    s'.metricsOf token name hash = .ok m → m.withoutMethods = {}
  landscapes : ∀ token selector,
    (∃ e, s.structureOf token selector = .error e ∧ s'.structureOf token selector = .error e) ∨
      ∃ l l', s.structureOf token selector = .ok l ∧ s'.structureOf token selector = .ok l' ∧
        l.SameButFunctions l'

namespace SameVersions

variable {owner : NodeId → String} {n m : Nat} {s s' : Store}

/-! ## Complete commits and branches -/

theorem findRepository (v : s.SameVersions s') : s'.findRepository = s.findRepository := by
  funext token name
  unfold Store.findRepository
  rw [v.repositories]

theorem commitsOf (v : s.SameVersions s') : s'.commitsOf = s.commitsOf := by
  funext r
  unfold Store.commitsOf
  rw [v.commits]

theorem isCompleteOn (v : s.SameVersions s') (hs : s.Fitting owner s) {c : Commit}
    (hc : c ∈ s.commits) (branch : NodeId) :
    s'.isCompleteOn branch c = s.isCompleteOn branch c := by
  have hall : s'.allFilesHaveData c = s.allFilesHaveData c := by
    unfold Store.allFilesHaveData
    rw [Bool.eq_iff_iff, List.all_eq_true, List.all_eq_true]
    refine forall₂_congr fun id hid => ?_
    obtain ⟨f, hf, -⟩ := (hs.commits c hc).files id hid
    obtain ⟨f', hf', hgain⟩ := v.files _ _ hf
    rw [hf, hf', hgain.same]
  unfold Store.isCompleteOn
  rw [hall]

theorem latestComplete (v : s.SameVersions s') (hs : s.Fitting owner s)
    (repository token branch : String) :
    s'.latestComplete repository token branch = s.latestComplete repository token branch := by
  have hbranch : s'.findBranch = s.findBranch := by
    funext r name
    unfold Store.findBranch
    rw [v.branches]
  unfold Store.latestComplete
  rw [v.findRepository, hbranch, v.commitsOf]
  cases s.findRepository token repository with
  | none => rfl
  | some r =>
    show ((s.findBranch r.id branch).bind fun b => _) = (s.findBranch r.id branch).bind fun b => _
    congr 1
    funext b
    congr 1
    apply List.filter_congr
    intro c hc
    exact v.isCompleteOn hs (mem_commitsOf_iff.1 hc).1 b.id

theorem latestCommit (v : s.SameVersions s') (hs : s.Fitting owner s)
    (token repository branch : String) :
    s'.latestCommit token repository branch = s.latestCommit token repository branch := by
  unfold Store.latestCommit Store.summary
  rw [v.latestComplete hs, v.tags]

/-- An application that is there is found again. -/
theorem application (v : s.SameVersions s') (hs' : s'.Keyed) {token name : String}
    {a : Application} (ha : s.application token name = .ok a) :
    s'.application token name = .ok a := by
  unfold Store.application at ha ⊢
  cases hfind : s.findApplication token name with
  | none =>
    rw [hfind] at ha
    cases ha
  | some x =>
    rw [hfind] at ha
    obtain rfl : x = a := Except.ok.inj ha
    obtain ⟨hx, htoken, hname⟩ := Sorted.mem_of_find?_pair hfind
    obtain ⟨x', hx', rfl⟩ := v.applications.mem hx
    have hfind' : s'.findApplication token name = some x :=
      hs'.applications.find?_eq_some_iff.2 ⟨hx', htoken, hname⟩
    rw [hfind']

theorem commitTree (v : s.SameVersions s') (hs' : s'.Keyed) {token name : String}
    {a : Application} (ha : s.application token name = .ok a) :
    s'.commitTree token name = s.commitTree token name := by
  have hname : s'.branchName = s.branchName := by
    funext c
    unfold Store.branchName
    rw [v.branches]
  have hrecord : s'.commitRecord = s.commitRecord := by
    funext c
    unfold Store.commitRecord
    rw [hname, v.commits]
  have houtside : s'.outsideBranches = s.outsideBranches := by
    funext cs
    unfold Store.outsideBranches
    rw [hname, v.commits]
  unfold Store.commitTree
  rw [v.application hs' ha, ha, v.repositories, v.commitsOf, hrecord, houtside]

/-! ## Commits with everything below them -/

/-- A class has the same functions. -/
theorem hydrateClass (v : s.SameVersions s') (hs : s.Fitting owner s) {c : ClassNode}
    (hc : c ∈ s.classes) : s'.hydrateClass c = s.hydrateClass c := by
  unfold Store.hydrateClass
  rw [v.functions.filterMap_eq]
  intro i hi
  obtain ⟨x, hx, -⟩ := (hs.classes c hc).functions i hi
  exact ⟨x, hx⟩

/-- A file has the same classes. -/
theorem classes_hydrateFile (v : s.SameVersions s') (hs : s.Fitting owner s) {f f' : FileRevision}
    (h : f.Gains f') : (s'.hydrateFile f').classes = (s.hydrateFile f).classes := by
  have hclasses : f'.classes = f.classes := by rw [h.same]
  show (f'.classes.toList.filterMap s'.classes.get?).map s'.hydrateClass
    = (f.classes.toList.filterMap s.classes.get?).map s.hydrateClass
  rw [hclasses, v.classes]
  apply List.map_congr_left
  intro c hc
  obtain ⟨id, -, hget⟩ := List.mem_filterMap.1 hc
  exact v.hydrateClass hs (Sorted.mem_of_get? hget)

/-- A commit that is loaded again has the same files and classes, below the same directories. -/
theorem alike_hydrate (v : s.SameVersions s') (g : s.Grows s') (hs : s.Sound owner n)
    (hs' : s'.Sound owner m) {c : Commit} (hc : c ∈ s.commits) :
    (s.hydrate c).Alike (s'.hydrate c) where
  commit := rfl
  files := by
    have hids : ∀ i ∈ c.fileRevisions.toList, ∃ f, s.files.get? i = some f := by
      intro i hi
      obtain ⟨f, hf, -⟩ := (hs.fitting.commits c hc).files i hi
      exact ⟨f, hf⟩
    show List.Forall₂ _ ((c.fileRevisions.toList.filterMap s.files.get?).map s.hydrateFile)
      ((c.fileRevisions.toList.filterMap s'.files.get?).map s'.hydrateFile)
    rw [List.forall₂_map_left_iff, List.forall₂_map_right_iff]
    refine (v.files.forall₂_filterMap hids).imp ?_
    rintro f f' ⟨hid, hf, hf', hgain⟩
    have hloaded : s.hydrateFile f ∈ (s.hydrate c).files :=
      mem_files_hydrate.2 ⟨f, hid, hf, rfl⟩
    have hloaded' : s'.hydrateFile f' ∈ (s'.hydrate c).files := by
      have hkey := Sorted.key_of_get? hf'
      exact mem_files_hydrate.2 ⟨f', hkey ▸ hid, hkey ▸ hf', rfl⟩
    refine ⟨hgain.same, v.classes_hydrateFile hs.fitting hgain, ?_⟩
    rw [ancestors_hydrate hloaded', ancestors_hydrate hloaded]
    obtain ⟨p, d, hp, hd, -⟩ := (hs.fitting.files f (Sorted.mem_of_get? hf)).parent
    have hparent : f'.parent = f.parent := by rw [hgain.same]
    have hclimb := hs.trees.climb_of_grows hs'.trees g.directories d (Sorted.mem_of_get? hd)
    rw [Sorted.key_of_get? hd, ← hp] at hclimb
    show (climb s'.directories.toList f'.parent).map Directory.bare
      = (climb s.directories.toList f.parent).map Directory.bare
    rw [hparent, hclimb]

/-! ## Landscapes -/

theorem commitsSelected (v : s.SameVersions s') (token : String) (selector : Selector) :
    s'.commitsSelected token selector = s.commitsSelected token selector := by
  have hnamed : ∀ hashes, s'.commitsNamed token hashes = s.commitsNamed token hashes := by
    intro hashes
    induction hashes with
    | nil => rfl
    | cons hash rest ih =>
      unfold Store.commitsNamed Store.findCommit
      rw [v.commits, ih]
  cases selector with
  | latest =>
    unfold Store.commitsSelected Store.repositoriesOf Store.mostRecentCommit
    rw [v.repositories, v.commitsOf]
  | commit hash => exact hnamed _
  | compare first second => exact hnamed _

theorem landscapes (v : s.SameVersions s') (g : s.Grows s') (hs : s.Sound owner n)
    (hs' : s'.Sound owner m) (token : String) (selector : Selector) :
    (∃ e, s.structureOf token selector = .error e ∧ s'.structureOf token selector = .error e) ∨
      ∃ l l', s.structureOf token selector = .ok l ∧ s'.structureOf token selector = .ok l' ∧
        l.SameButFunctions l' := by
  rw [structureOf_eq, structureOf_eq, v.commitsSelected]
  cases hcs : s.commitsSelected token selector with
  | error e => exact .inl ⟨e, rfl, rfl⟩
  | ok cs =>
    by_cases hnil : cs = []
    · exact .inl ⟨_, if_pos hnil, if_pos hnil⟩
    · refine .inr ⟨_, _, if_neg hnil, if_neg hnil, ?_⟩
      apply Landscape.sameButFunctions_ofCommits
      rw [List.forall₂_map_left_iff, List.forall₂_map_right_iff, List.forall₂_same]
      intro c hc
      have hcity : s'.cityName c.id = s.cityName c.id := by
        unfold Store.cityName Store.repositoryOfCommit
        rw [v.repositories]
      exact ⟨hcity, v.alike_hydrate g hs hs' (hs.fitting.mem_of_commitsSelected hcs c hc).1⟩

/-! ## Metrics -/

/-- A commit that is loaded is alike in both stores, or there is none in both. -/
theorem loadCommit (v : s.SameVersions s') (g : s.Grows s') (hs : s.Sound owner n)
    (hs' : s'.Sound owner m) (hash token : String) :
    (∃ c ∈ s.commits, s.loadCommit hash token = .ok (s.hydrate c) ∧
      s'.loadCommit hash token = .ok (s'.hydrate c) ∧ (s.hydrate c).Alike (s'.hydrate c)) ∨
      s.loadCommit hash token = .error (.unknownCommit hash) ∧
        s'.loadCommit hash token = .error (.unknownCommit hash) := by
  unfold Store.loadCommit Store.findCommit
  rw [v.commits]
  cases hfind : s.commits.toList.find? fun c => c.token = token ∧ c.hash = hash with
  | none => exact .inr ⟨rfl, rfl⟩
  | some c =>
    have hc := (Sorted.mem_of_find?_pair hfind).1
    exact .inl ⟨c, hc, rfl, rfl, v.alike_hydrate g hs hs' hc⟩

theorem metrics (v : s.SameVersions s') (g : s.Grows s') (hs : s.Sound owner n)
    (hs' : s'.Sound owner m) {token name : String} (hash : String) {a : Application}
    (ha : s.application token name = .ok a) :
    (s'.metricsOf token name hash).map CodeMetrics.withoutMethods
      = (s.metricsOf token name hash).map CodeMetrics.withoutMethods := by
  unfold Store.metricsOf
  rw [v.application hs'.keyed ha, ha]
  rcases v.loadCommit g hs hs' hash token with ⟨c, -, hc, hc', halike⟩ | ⟨hc, hc'⟩
  · rw [hc, hc']
    exact congrArg Except.ok (CodeMetrics.withoutMethods_ofCommit halike v.classes a.rootDirectory)
  · rw [hc, hc']
    rfl

/-- No file of a commit is below a directory that is not there. -/
theorem ofCommit_of_new (s : Store) {root : NodeId} (hroot : s.directories.get? root = none)
    (c : Commit) : CodeMetrics.ofCommit s root (s.hydrate c) = {} := by
  have hpath : ∀ f ∈ (s.hydrate c).files, (s.hydrate c).pathBelow root f.file = none := by
    intro f hf
    apply HydratedCommit.pathBelow_eq_none
    intro d hd he
    rw [ancestors_hydrate hf] at hd
    have hfind := (mem_climb_iff.1 hd).find?
    rw [he] at hfind
    exact absurd (hfind.symm.trans hroot) (Option.some_ne_none d)
  unfold CodeMetrics.ofCommit
  generalize ({} : CodeMetrics) = start
  generalize (s.hydrate c).files = fs at hpath
  induction fs with
  | nil => rfl
  | cons f fs ih =>
    rw [List.foldl_cons, hpath f List.mem_cons_self]
    exact ih fun g hg => hpath g (List.mem_cons_of_mem f hg)

theorem newMetrics (v : s.SameVersions s') (g : s.Grows s') (hs : s.Sound owner n)
    (hs' : s'.Sound owner m) {token name hash : String} {x : CodeMetrics}
    (hnone : s.findApplication token name = none) (hx : s'.metricsOf token name hash = .ok x) :
    x.withoutMethods = {} := by
  unfold Store.metricsOf Store.application at hx
  cases hfind : s'.findApplication token name with
  | none =>
    rw [hfind] at hx
    cases hx
  | some a =>
    rw [hfind] at hx
    obtain ⟨ha, htoken, hname⟩ := Sorted.mem_of_find?_pair hfind
    have hroot : s.directories.get? a.rootDirectory = none :=
      (v.newApplications a ha).resolve_left fun hold =>
        Sorted.find?_pair_eq_none_iff.1 hnone a hold (Prod.ext htoken hname)
    rcases v.loadCommit g hs hs' hash token with ⟨c, -, -, hc', halike⟩ | ⟨-, hc'⟩
    · rw [hc'] at hx
      rw [← Except.ok.inj hx, CodeMetrics.withoutMethods_ofCommit halike v.classes,
        ofCommit_of_new s hroot]
      rfl
    · rw [hc'] at hx
      cases hx

theorem sameVersionViews (v : s.SameVersions s') (g : s.Grows s') (hs : s.Sound owner n)
    (hs' : s'.Sound owner m) : s.SameVersionViews s' where
  latestComplete := v.latestComplete hs.fitting
  latestCommit := v.latestCommit hs.fitting
  commitTree _ _ _ := v.commitTree hs'.keyed
  metrics _ _ hash _ := v.metrics g hs hs' hash
  newMetrics _ _ _ _ := v.newMetrics g hs hs'
  landscapes := v.landscapes g hs hs'

end SameVersions

/-- After any calls, a span that is told next leaves versions alone, whether it is taken in or
not, and so is what is seen of them. -/
theorem spans_keep_versions (calls : List Ingestion) (f : SpanFact)
    (hids : (∅ : Store).idsIssued (calls ++ [.span f]) < 2 ^ 64) :
    ((∅ : Store).after calls).SameVersions ((∅ : Store).after (calls ++ [.span f])) ∧
      ((∅ : Store).after calls).SameVersionViews ((∅ : Store).after (calls ++ [.span f])) := by
  obtain ⟨owner, n, hready, hn⟩ := ready_after_empty calls (.span f) hids
  obtain ⟨hs', g⟩ := ((Ingestion.span f).runs hready hn).1.sound_and_grows hready.sound hn
  have v := Ingestion.sameVersions hready hn
  rw [after_concat]
  exact ⟨v, v.sameVersionViews g hready.sound hs'⟩

theorem spans_keep_versions_sample :
    (∅ : Store).idsIssued (Ingestion.sampleTraceable ++ [.span .sampleTraced]) < 2 ^ 64 ∧
      (Ingestion.span .sampleTraced).succeeds ((∅ : Store).after Ingestion.sampleTraceable) = true ∧
      ((∅ : Store).after Ingestion.sampleTraceable).SameVersions
        ((∅ : Store).after (Ingestion.sampleTraceable ++ [.span .sampleTraced])) ∧
      ((∅ : Store).after Ingestion.sampleTraceable).SameVersionViews
        ((∅ : Store).after (Ingestion.sampleTraceable ++ [.span .sampleTraced])) := by
  have hids : (∅ : Store).idsIssued
      (Ingestion.sampleTraceable ++ [.span .sampleTraced]) < 2 ^ 64 := by decide +kernel
  exact ⟨hids, by decide +kernel, spans_keep_versions Ingestion.sampleTraceable .sampleTraced hids⟩

end Store

end Cityscape
