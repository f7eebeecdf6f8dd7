import Cityscape.Proofs.Hydration
import Cityscape.Proofs.MetricEntries
import Cityscape.Proofs.Registrations
import Cityscape.Proofs.Roots
import Cityscape.Query.Answer

/-!
# `MetricPaths`: which files the metrics of an application show

The metrics of an application show the files of a commit that lie below the directory in which the
application lives, each under its path from there; of several files with one path the last one is
shown. Whether a file lies below the directory is found out by climbing from the file, while the
directory has been found by going down from the root of a repository. In a forest of tries both
come to the same: the names that lead down to the file start with those that lead to the directory
(`Store.LivesAt.pathBelow_iff`).
-/

namespace Cityscape

/-! ## Climbing past a directory -/

namespace Store

variable {owner : NodeId → String} {n : Nat} {s : Store} {a d e : Directory} {names : List String}

theorem mem_directories_of_climb {next : Option NodeId} (h : a ∈ climb s.directories.toList next) :
    a ∈ s.directories := List.mem_of_find?_eq_some (mem_climb_iff.1 h).find?

/-- From a directory that is met on the way up, names lead down again. -/
theorem Sound.leads_of_mem_climb (hs : s.Sound owner n) : ∀ d ∈ s.directories,
    a ∈ climb s.directories.toList (some d.id) → ∃ names, s.Leads a names d := by
  refine hs.trees.directory_induction fun d hd ih hclimb => ?_
  rw [hs.trees.climb_eq_cons hd] at hclimb
  rcases List.mem_cons.1 hclimb with rfl | hclimb
  · exact ⟨[], rfl⟩
  cases hp : d.parent with
  | none =>
    rw [hp, climb] at hclimb
    exact absurd hclimb List.not_mem_nil
  | some p =>
    obtain ⟨e, he, hmem, -⟩ := (hs.fitting.directories d hd).parent p hp
    rw [hp, ← Sorted.key_of_get? he] at hclimb
    obtain ⟨names, hnames⟩ := ih p e hp he hclimb
    exact ⟨names ++ [d.name], leads_append.2
      ⟨e, hnames, leads_single.2 (mem_childrenNamed.2 ⟨hmem, Sorted.get?_key hd, rfl⟩)⟩⟩

/-- The way up from where names lead passes the directory where they begin, and meets the names
before it. -/
theorem Sound.climb_of_leads (hs : s.Sound owner n) (ha : a ∈ s.directories)
    (h : s.Leads a names e) : ∃ below,
      climb s.directories.toList (some e.id) = below ++ climb s.directories.toList (some a.id) ∧
        (below.map Directory.name).reverse = names ∧ ∀ x ∈ below, a.id.val < x.id.val := by
  induction names generalizing a with
  | nil =>
    obtain rfl : e = a := h
    exact ⟨[], rfl, rfl, fun x hx => absurd hx List.not_mem_nil⟩
  | cons name rest ih =>
    obtain ⟨c, hc, he⟩ := h
    obtain ⟨hx, hget, hname⟩ := mem_childrenNamed.1 hc
    obtain ⟨c', hget', hp, -⟩ := (hs.fitting.directories a ha).subdirectories c.id hx
    obtain rfl : c = c' := Option.some.inj (hget.symm.trans hget')
    have hmem := mem_of_childrenNamed hc
    obtain ⟨-, -, -, hlt⟩ := (hs.fitting.directories c hmem).parent a.id hp
    obtain ⟨below, hclimb, hnames, hbelow⟩ := ih hmem he
    refine ⟨below ++ [c], ?_, ?_, ?_⟩
    · rw [hclimb, hs.trees.climb_eq_cons hmem, hp, List.append_assoc]
      rfl
    · rw [List.map_append, List.reverse_append, hnames, List.map_singleton, hname]
      rfl
    · intro x hx
      rcases List.mem_append.1 hx with hx | hx
      · exact UInt64.lt_trans hlt (hbelow x hx)
      · rw [List.mem_singleton.1 hx]
        exact hlt

/-! ## The path of a file below a directory -/

/-- Where names lead down from a directory, the way up leads back to it, past the same names. -/
theorem Sound.leadsUp_of_leads (hs : s.Sound owner n) (ha : a ∈ s.directories)
    (h : s.Leads a names e) : ∃ past, LeadsUp s.directories.get? a.id (some e.id) past ∧
      (past.map Directory.name).reverse = names := by
  obtain ⟨past, hclimb, hnames, hids⟩ := hs.climb_of_leads ha h
  rw [hs.trees.climb_eq_cons ha] at hclimb
  refine ⟨past, leadsUp_iff_climb.2 ⟨a, _, hclimb, rfl, fun x hx hid => ?_⟩, hnames⟩
  have hlt := hids x hx
  rw [hid] at hlt
  exact UInt64.lt_irrefl _ hlt

/-- A file lies below a directory if names lead from there to where it hangs, and its path is made
of these names and its own. -/
theorem Sound.pathBelow_eq_some_iff (hs : s.Sound owner n) {c : Commit} {f : HydratedFile}
    (hf : f ∈ (s.hydrate c).files) (he : e ∈ s.directories) (hparent : f.file.parent = some e.id)
    (ha : a ∈ s.directories) {key : String} :
    (s.hydrate c).pathBelow a.id f.file = some key ↔
      ∃ names, s.Leads a names e ∧ "/".intercalate (names ++ [f.file.name]) = key := by
  rw [HydratedCommit.pathBelow_eq_some_iff (ancestors_hydrate hf), hparent]
  constructor
  · rintro ⟨past, hway, rfl⟩
    obtain ⟨d, rest, hclimb, hid, -⟩ := leadsUp_iff_climb.1 hway
    have hmet : d ∈ climb s.directories.toList (some e.id) := by
      rw [hclimb]
      exact List.mem_append_right _ List.mem_cons_self
    obtain rfl := Sorted.eq_of_key_eq (mem_directories_of_climb hmet) ha hid
    obtain ⟨names, hnames⟩ := hs.leads_of_mem_climb e he hmet
    obtain ⟨past', hway', hmap⟩ := hs.leadsUp_of_leads ha hnames
    exact ⟨names, hnames, by rw [← hmap, hway.unique hway']⟩
  · rintro ⟨names, hnames, rfl⟩
    obtain ⟨past, hway, hmap⟩ := hs.leadsUp_of_leads ha hnames
    exact ⟨past, hway, by rw [hmap]⟩

theorem HangsAt.relativePath {root : NodeId} {segments : List String} {f : FileRevision}
    (h : s.HangsAt root segments f) (hs : s.Sound owner n) (hf : f ∈ s.files) :
    s.relativePath f = segments := by
  obtain ⟨below', top', hsplit', -, -, hnames'⟩ := hs.hangsAt hf h.topAbove
  obtain ⟨below, top, hsplit, -, -, hnames⟩ := h
  obtain ⟨rfl, -⟩ := List.append_inj' (hsplit.symm.trans hsplit') rfl
  exact hnames'.symm.trans hnames

/-- A file hangs below a directory of a tree if names lead from there to where it hangs: they come
after those of the directory, and before that of the file. -/
theorem Sound.hangsAt_iff_leads (hs : s.Sound owner n) {top : Directory} (ht : top ∈ s.directories)
    (ha : a ∈ s.directories) (htop : s.topAbove (some a.id) = some top.id)
    (he : e ∈ s.directories) {x : FileRevision} (hx : x ∈ s.files) (hparent : x.parent = some e.id)
    (rest : List String) :
    rest ≠ [] ∧ s.HangsAt top.id (s.namesAbove (some a.id) ++ rest) x ↔
      ∃ names, s.Leads a names e ∧ rest = names ++ [x.name] := by
  have hrelative : s.relativePath x = s.namesAbove (some e.id) ++ [x.name] := by
    rw [relativePath_eq, hparent]
  constructor
  · rintro ⟨hrest, hangs⟩
    have htop' := hangs.topAbove
    rw [hparent] at htop'
    have hpath := hangs.relativePath hs hx
    obtain ⟨names, last, rfl⟩ := List.eq_nil_or_concat rest |>.resolve_left hrest
    rw [List.concat_eq_append, hrelative, ← List.append_assoc] at hpath
    obtain ⟨hnames, hlast⟩ := List.append_inj' hpath rfl
    -- the names down to where the file hangs begin with those down to the directory
    have hdown := hs.trees.leads_of_topAbove ht e he htop'
    rw [hnames] at hdown
    obtain ⟨m, hm, hbelow⟩ := leads_append.1 hdown
    obtain rfl := hs.trees.leads_unique ht hm (hs.trees.leads_of_topAbove ht a ha htop)
    exact ⟨names, hbelow, by rw [List.concat_eq_append, hlast]⟩
  · rintro ⟨names, hnames, rfl⟩
    refine ⟨List.append_ne_nil_of_right_ne_nil _ (List.cons_ne_nil _ _), ?_⟩
    have htop' : s.topAbove x.parent = some top.id := by
      rw [hparent, hs.trees.topAbove_of_leads ha hnames, htop]
    have hangs := hs.hangsAt hx htop'
    rwa [hrelative, hs.trees.namesAbove_of_leads ha hnames, List.append_assoc] at hangs

/-- If an application lives at a path in a repository, the files below its directory are those that
hang in the repository with a longer path that begins with this one. -/
theorem LivesAt.pathBelow_iff {r : Repository} {path : List String} {app : Application}
    (h : s.LivesAt r path app) (hs : s.Sound owner n) (hr : r ∈ s.repositories) {c : Commit}
    {f : HydratedFile} (hf : f ∈ (s.hydrate c).files) {key : String} :
    (s.hydrate c).pathBelow app.rootDirectory f.file = some key ↔
      ∃ rest, rest ≠ [] ∧ s.HangsAt r.rootDirectory (path ++ rest) f.file ∧
        "/".intercalate rest = key := by
  obtain ⟨a, ha, hroot, htop, rfl⟩ := h.root
  obtain ⟨x, -, hget, rfl⟩ := mem_files_hydrate.1 hf
  have hx := Sorted.mem_of_get? hget
  obtain ⟨p, e, hp, he, -⟩ := (hs.fitting.files x hx).parent
  obtain ⟨top, hgettop, -⟩ := (hs.fitting.repositories r hr).root
  rw [← Sorted.key_of_get? he] at hp
  rw [← Sorted.key_of_get? hgettop] at htop ⊢
  rw [← hroot, hs.pathBelow_eq_some_iff hf (Sorted.mem_of_get? he) hp ha]
  have hplaces := hs.hangsAt_iff_leads (Sorted.mem_of_get? hgettop) ha htop
    (Sorted.mem_of_get? he) hx hp
  constructor
  · rintro ⟨names, hnames, hkey⟩
    obtain ⟨hrest, hangs⟩ := (hplaces _).2 ⟨names, hnames, rfl⟩
    exact ⟨names ++ [x.name], hrest, hangs, hkey⟩
  · rintro ⟨rest, hrest, hangs, hkey⟩
    obtain ⟨names, hnames, rfl⟩ := (hplaces _).1 ⟨hrest, hangs⟩
    exact ⟨names, hnames, hkey⟩

end Store

/-! ## The last one of some members -/

/-- In a list in ascending order the last of some members is the one that comes after all others. -/
theorem getLast?_filter_eq_some_iff {α : Type} {r : α → α → Prop} (hasymm : ∀ a b, r a b → ¬r b a)
    {p : α → Bool} {l : List α} (h : l.Pairwise r) {x : α} :
    (l.filter p).getLast? = some x ↔
      x ∈ l ∧ p x = true ∧ ∀ y ∈ l, p y = true → y = x ∨ r y x := by
  have hlast : ∀ {x : α}, (l.filter p).getLast? = some x →
      x ∈ l ∧ p x = true ∧ ∀ y ∈ l, p y = true → y = x ∨ r y x := by
    intro x hx
    obtain ⟨before, hsplit⟩ := List.getLast?_eq_some_iff.1 hx
    obtain ⟨hmem, hp⟩ := List.mem_filter.1 (List.mem_of_getLast? hx)
    refine ⟨hmem, hp, fun y hy hpy => ?_⟩
    have hy := List.mem_filter.2 ⟨hy, hpy⟩
    have hsorted := h.filter p
    rw [hsplit] at hy hsorted
    rcases List.mem_append.1 hy with hy | hy
    · exact .inr ((List.pairwise_append.1 hsorted).2.2 y hy x (List.mem_singleton_self x))
    · exact .inl (List.mem_singleton.1 hy)
  refine ⟨hlast, ?_⟩
  rintro ⟨hx, hp, hmax⟩
  have hne := List.ne_nil_of_mem (List.mem_filter.2 ⟨hx, hp⟩)
  obtain ⟨z, hz⟩ := Option.ne_none_iff_exists'.1 (mt List.getLast?_eq_none_iff.1 hne)
  obtain ⟨hzmem, hzp, hzmax⟩ := hlast hz
  rw [hz]
  rcases hmax z hzmem hzp with rfl | hzx
  · rfl
  · rcases hzmax x hx hp with rfl | hxz
    · rfl
    · exact absurd hxz (hasymm z x hzx)

/-! ## The metrics of an application -/

namespace Store

variable {owner : NodeId → String} {n : Nat} {s : Store}

/-- A file of a commit lies below a directory of a repository, and the key is its path from
there. -/
structure ShownAs (s : Store) (c : Commit) (root : NodeId) (path : List String) (key : String)
    (x : FileRevision) : Prop where
  stored : s.files.get? x.id = some x
  file : x.id ∈ c.fileRevisions
  place : ∃ rest, rest ≠ [] ∧ s.HangsAt root (path ++ rest) x ∧ "/".intercalate rest = key

/-- The keys are those of the files below the directory, and under each key the metrics of the file
with the greatest id are shown. -/
structure FollowsPlace (s : Store) (c : Commit) (root : NodeId) (path : List String)
    (m : CodeMetrics) : Prop where
  keys : ∀ key, (m.fileMetrics.find? key).isSome ↔ ∃ x, s.ShownAs c root path key x
  values : ∀ key v, m.fileMetrics.find? key = some v → ∃ x, s.ShownAs c root path key x ∧
    (∀ y, s.ShownAs c root path key y → y.id.val ≤ x.id.val) ∧ v = FileMetrics.ofMetrics x.metrics

/-- The files of a hydrated commit are in the order of their ids. -/
theorem files_hydrate_ascending (s : Store) (c : Commit) :
    (s.hydrate c).files.Pairwise fun x y => x.file.id.val < y.file.id.val := by
  show ((c.fileRevisions.toList.filterMap s.files.get?).map s.hydrateFile).Pairwise _
  rw [List.pairwise_map, List.pairwise_filterMap]
  refine c.fileRevisions.ascending.imp fun {i j} hlt x hx y hy => ?_
  show x.id.val < y.id.val
  rw [Sorted.key_of_get? hx, Sorted.key_of_get? hy]
  exact NodeId.compare_eq_lt.1 hlt

/-- The files that are looked at under a key are those that lie below the directory. -/
theorem LivesAt.shownAs_iff {r : Repository} {path : List String} {a : Application}
    (h : s.LivesAt r path a) (hs : s.Sound owner n) (hr : r ∈ s.repositories) {c : Commit}
    {key : String} {x : FileRevision} :
    s.ShownAs c r.rootDirectory path key x ↔
      s.hydrateFile x ∈ (s.hydrate c).files ∧
        (s.hydrate c).pathBelow a.rootDirectory x = some key := by
  constructor
  · rintro ⟨hget, hmem, hplace⟩
    have hfile := mem_files_hydrate.2 ⟨x, hmem, hget, rfl⟩
    exact ⟨hfile, (h.pathBelow_iff hs hr hfile).2 hplace⟩
  · rintro ⟨hfile, hpath⟩
    obtain ⟨x', hmem, hget, he⟩ := mem_files_hydrate.1 hfile
    obtain rfl : x = x' := congrArg HydratedFile.file he
    exact ⟨hget, hmem, (h.pathBelow_iff hs hr hfile).1 hpath⟩

theorem LivesAt.followsPlace {r : Repository} {path : List String} {a : Application}
    (h : s.LivesAt r path a) (hs : s.Sound owner n) (hr : r ∈ s.repositories) (c : Commit) :
    s.FollowsPlace c r.rootDirectory path
      (CodeMetrics.ofCommit s a.rootDirectory (s.hydrate c)) := by
  have hlast : ∀ key f, ((s.hydrate c).files.filter fun f =>
      (s.hydrate c).pathBelow a.rootDirectory f.file = some key).getLast? = some f ↔ _ :=
    fun key f => getLast?_filter_eq_some_iff (fun _ _ hlt hgt => UInt64.lt_asymm hlt hgt)
      (s.files_hydrate_ascending c)
  constructor
  · intro key
    rw [CodeMetrics.find?_fileMetrics_ofCommit, Option.isSome_map, List.getLast?_isSome,
      ← List.length_pos_iff, List.length_pos_iff_exists_mem]
    constructor
    · rintro ⟨f, hf⟩
      obtain ⟨hf, hpath⟩ := List.mem_filter.1 hf
      obtain ⟨x, -, -, rfl⟩ := mem_files_hydrate.1 hf
      exact ⟨x, (h.shownAs_iff hs hr).2 ⟨hf, of_decide_eq_true hpath⟩⟩
    · rintro ⟨x, hx⟩
      obtain ⟨hf, hpath⟩ := (h.shownAs_iff hs hr).1 hx
      exact ⟨s.hydrateFile x, List.mem_filter.2 ⟨hf, decide_eq_true hpath⟩⟩
  · intro key v hv
    rw [CodeMetrics.find?_fileMetrics_ofCommit] at hv
    obtain ⟨f, hf, rfl⟩ := Option.map_eq_some_iff.1 hv
    obtain ⟨hf, hpath, hmax⟩ := (hlast key f).1 hf
    obtain ⟨x, -, -, rfl⟩ := mem_files_hydrate.1 hf
    refine ⟨x, (h.shownAs_iff hs hr).2 ⟨hf, of_decide_eq_true hpath⟩, fun y hy => ?_, rfl⟩
    obtain ⟨hy, hypath⟩ := (h.shownAs_iff hs hr).1 hy
    rcases hmax _ hy (decide_eq_true hypath) with he | hlt
    · rw [show y = x from congrArg HydratedFile.file he]
      exact UInt64.le_refl _
    · exact UInt64.le_of_lt hlt

end Store

/-- A fact that puts an application into a directory of its repository. -/
def RepositoryFact.sampleMove : RepositoryFact :=
  { landscapeToken := "t", repositoryName := "shop", branchName := "main"
    applicationPaths := Sorted.ofList [("app", "src")] }

/-- Calls of which the last but one registers an application that a span has shown before. -/
def Ingestion.sampleMoved : List Ingestion :=
  [.repository { landscapeToken := "t", repositoryName := "shop", branchName := "main" },
    .span
      { landscapeToken := "t", applicationName := "app", traceId := "x", spanId := "y"
        functionFqn := "a.run", startTime := 1, endTime := 2 },
    .commit
      { landscapeToken := "t", repositoryName := "shop", commitHash := "c"
        addedFiles := [⟨"h1", "src/a.rs"⟩, ⟨"h2", "b.rs"⟩] },
    .file
      { landscapeToken := "t", repositoryName := "shop", fileHash := "h1"
        metrics := Sorted.ofList [("loc", .ofInt 12)] },
    .repository .sampleMove,
    .repository { landscapeToken := "t", repositoryName := "tools", branchName := "main" }]

namespace Store

/-- After any calls, the metrics of an application at a commit follow the place where the
application has been registered last, wherever it has been before and whenever the commit has been
told. -/
theorem metrics_follow_place (calls : List Ingestion)
    (hids : (∅ : Store).idsIssued calls < 2 ^ 64) (f : RepositoryFact) (name path : String)
    (hlast : LastRegistration calls f name path) (c : Commit)
    (hc : c ∈ ((∅ : Store).after calls).commits) (htoken : c.token = f.landscapeToken) :
    ∃ r m, ((∅ : Store).after calls).findRepository f.landscapeToken
        (displayName f.repositoryName) = some r ∧
      ((∅ : Store).after calls).metricsOf f.landscapeToken name c.hash = .ok m ∧
      ((∅ : Store).after calls).FollowsPlace c r.rootDirectory (splitPath path) m := by
  obtain ⟨owner, hs⟩ := sound_after_empty calls hids
  obtain ⟨r, hr, a, ha, hlives⟩ := registered_of_calls calls hids hlast
  have hfind := hs.keyed.findCommit_eq_some_iff.2 ⟨hc, htoken, rfl⟩
  refine ⟨r, _, hr, ?_, hlives.followsPlace hs (findRepository_spec hr).1 c⟩
  unfold metricsOf application loadCommit
  rw [ha, hfind]
  rfl

/-- The files that are shown are read off what is known of the application and the commit. -/
theorem fileMetrics_metricsOf (s : Store) (token name hash : String) :
    (s.metricsOf token name hash).toOption.map CodeMetrics.fileMetrics
      = (s.application token name).toOption.bind fun a => (s.loadCommit hash token).toOption.map
        fun h => .putMany ∅ CodeMetrics.ofFile (h.filesBelow a.rootDirectory) := by
  unfold metricsOf
  cases s.application token name with
  | error e => rfl
  | ok a =>
    cases s.loadCommit hash token with
    | error e => rfl
    | ok h =>
      show some (CodeMetrics.ofCommit s a.rootDirectory h).fileMetrics = _
      rw [CodeMetrics.ofCommit_eq]
      rfl

/-- An application that a span has shown first is registered when the commit is there already, and
after that another repository comes in. The file below its directory is shown, and the other one is
not. -/
theorem metrics_follow_place_sample :
    ∃ c r m, (∅ : Store).idsIssued Ingestion.sampleMoved < 2 ^ 64 ∧
      LastRegistration Ingestion.sampleMoved .sampleMove "app" "src" ∧
      c ∈ ((∅ : Store).after Ingestion.sampleMoved).commits ∧ c.token = "t" ∧
      ((∅ : Store).after Ingestion.sampleMoved).findRepository "t" "shop" = some r ∧
      ((∅ : Store).after Ingestion.sampleMoved).metricsOf "t" "app" c.hash = .ok m ∧
      ((∅ : Store).after Ingestion.sampleMoved).FollowsPlace c r.rootDirectory
        (splitPath "src") m ∧
      m.fileMetrics.toList = [("a.rs", ⟨"12", "UNKNOWN"⟩)] := by
  have hids : (∅ : Store).idsIssued Ingestion.sampleMoved < 2 ^ 64 := by decide +kernel
  have hlast : LastRegistration Ingestion.sampleMoved .sampleMove "app" "src" := by
    refine ⟨⟨Ingestion.sampleMoved.take 4, Ingestion.sampleMoved.drop 5, rfl, ?_⟩, by decide,
      List.mem_singleton_self _⟩
    intro i hi
    obtain rfl := List.mem_singleton.1 hi
    rintro ⟨-, -, hname⟩
    exact List.not_mem_nil hname
  have hfound : (((∅ : Store).after Ingestion.sampleMoved).findCommit "t" "c").isSome = true := by
    decide +kernel
  obtain ⟨c, hfind⟩ := Option.isSome_iff_exists.1 hfound
  obtain ⟨owner, hs⟩ := sound_after_empty Ingestion.sampleMoved hids
  obtain ⟨hc, htoken, hhash⟩ := hs.keyed.findCommit_eq_some_iff.1 hfind
  obtain ⟨r, m, hr, hm, hfollows⟩ :=
    metrics_follow_place Ingestion.sampleMoved hids .sampleMove "app" "src" hlast c hc htoken
  have hname : displayName RepositoryFact.sampleMove.repositoryName = "shop" := by decide
  have hfiles := fileMetrics_metricsOf ((∅ : Store).after Ingestion.sampleMoved) "t" "app" "c"
  have hshown : (((∅ : Store).after Ingestion.sampleMoved).application "t" "app").toOption.bind
      (fun a => (((∅ : Store).after Ingestion.sampleMoved).loadCommit "c" "t").toOption.map fun h =>
        SortedMap.putMany ∅ CodeMetrics.ofFile (h.filesBelow a.rootDirectory))
      = some (Sorted.ofList [("a.rs", ⟨"12", "UNKNOWN"⟩)]) := by decide +kernel
  rw [hname] at hr
  replace hm : ((∅ : Store).after Ingestion.sampleMoved).metricsOf "t" "app" c.hash = .ok m := hm
  rw [hshown, ← hhash, hm] at hfiles
  exact ⟨c, r, m, hids, hlast, hc, htoken, hr, hm, hfollows,
    congrArg Sorted.toList (Option.some.inj hfiles)⟩

end Store

end Cityscape
