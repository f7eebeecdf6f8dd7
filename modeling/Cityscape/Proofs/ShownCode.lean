import Cityscape.Proofs.ClassWalk
import Cityscape.Proofs.Hydration
import Cityscape.Proofs.MetricEntries
import Cityscape.Query.Answer

/-!
# `ShownCode`: which classes and functions the metrics of an application show

Each of the three maps of the metrics is made of a list of entries, so its keys are those of the
entries, and each value is that of an entry with its key. Main statement: in every store, whatever
its inner classes are, the entries are exactly those of the files below the application, of the
classes that lie in them and of the functions of both (`Store.code_shown`).
-/

namespace Cityscape

/-! ## What a map shows -/

namespace SortedMap

variable {α β : Type} {m : SortedMap String β}

/-- The keys of a map are those of some entries, and each value is what is shown of an entry with
its key. -/
structure Shows (m : SortedMap String β) (shown : α → β → Prop) (entry : String → α → Prop) :
    Prop where
  keys : ∀ key, (m.find? key).isSome ↔ ∃ x, entry key x
  values : ∀ key v, m.find? key = some v → ∃ x, entry key x ∧ shown x v

/-- A map that is made of a list of entries shows them. -/
theorem shows_putMany (render : α → β) (shown : α → β → Prop) (entries : List (String × α))
    (h : ∀ x, shown x (render x)) :
    (putMany ∅ render entries).Shows shown fun key x => (key, x) ∈ entries where
  keys key := by
    rw [find?_putMany, Option.isSome_map, List.getLast?_isSome, ← List.length_pos_iff,
      List.length_pos_iff_exists_mem]
    simp [List.mem_filter]
  values key v hv := by
    rw [find?_putMany] at hv
    obtain ⟨⟨k, x⟩, hlast, rfl⟩ := Option.map_eq_some_iff.1 hv
    obtain ⟨hmem, hkey⟩ := List.mem_filter.1 (List.mem_of_getLast? hlast)
    obtain rfl := of_decide_eq_true hkey
    exact ⟨x, hmem, h x⟩

theorem Shows.congr {shown : α → β → Prop} {entry entry' : String → α → Prop}
    (h : m.Shows shown entry) (he : ∀ key x, entry key x ↔ entry' key x) :
    m.Shows shown entry' := by
  obtain rfl : entry = entry' := funext₂ fun key x => propext (he key x)
  exact h

end SortedMap

/-! ## What is shown of metrics -/

/-- The text shows the metric with the given name, or that there is none. -/
def Metrics.Reads (m : Metrics) (name text : String) : Prop :=
  (∃ x, (name, x) ∈ m ∧ text = x.text .plain) ∨ (∀ x, (name, x) ∉ m) ∧ text = "UNKNOWN"

theorem Metrics.reads_metricText (m : Metrics) (name : String) :
    Metrics.Reads m name (metricText m name) := by
  unfold metricText
  cases hfind : m.find? name with
  | some x => exact .inl ⟨x, SortedMap.find?_iff_mem.1 hfind, rfl⟩
  | none =>
    refine .inr ⟨fun x hx => ?_, rfl⟩
    rw [SortedMap.find?_iff_mem.2 hx] at hfind
    cases hfind

/-- The texts are those of the metrics of a file. -/
def FileMetrics.Renders (v : FileMetrics) (m : Metrics) : Prop :=
  Metrics.Reads m "loc" v.loc ∧ Metrics.Reads m "cyclomatic_complexity" v.cyclomaticComplexity

/-- The texts are those of the metrics of a class. -/
def ClassMetrics.Renders (v : ClassMetrics) (m : Metrics) : Prop :=
  Metrics.Reads m "loc" v.loc ∧ Metrics.Reads m "LCOM4" v.lcom4 ∧
    Metrics.Reads m "cyclomatic_complexity_weighted" v.cyclomaticComplexityWeighted ∧
    Metrics.Reads m "cyclomatic_complexity" v.cyclomaticComplexity

/-- The texts are those of the metrics of a function. -/
def MethodMetrics.Renders (v : MethodMetrics) (m : Metrics) : Prop :=
  Metrics.Reads m "loc" v.loc ∧ Metrics.Reads m "nestedBlockDepth" v.nestedBlockDepth ∧
    Metrics.Reads m "cyclomatic_complexity" v.cyclomaticComplexity

theorem FileMetrics.renders_ofMetrics (m : Metrics) : (ofMetrics m).Renders m :=
  ⟨m.reads_metricText _, m.reads_metricText _⟩

theorem ClassMetrics.renders_ofMetrics (m : Metrics) : (ofMetrics m).Renders m :=
  ⟨m.reads_metricText _, m.reads_metricText _, m.reads_metricText _, m.reads_metricText _⟩

theorem MethodMetrics.renders_ofMetrics (m : Metrics) : (ofMetrics m).Renders m :=
  ⟨m.reads_metricText _, m.reads_metricText _, m.reads_metricText _⟩

/-! ## Exactly the code below the application -/

namespace Store

/-- A file of a commit lies at the path below a directory: the way up from the file leads there, and
the path is made of the names on the way down again and that of the file. -/
structure LiesAt (s : Store) (c : Commit) (root : NodeId) (path : String) (f : FileRevision) :
    Prop where
  stored : s.files.get? f.id = some f
  file : f.id ∈ c.fileRevisions
  place : ∃ past, LeadsUp s.directories.get? root f.parent past ∧
    path = "/".intercalate ((past.map Directory.name).reverse ++ [f.name])

/-- A function that is stored under one of the ids has the key that it gets under its owner. -/
def HasMethod (s : Store) (owner : String) (ids : SortedSet NodeId) (key : String)
    (g : FunctionNode) : Prop :=
  (∃ id ∈ ids, s.functions.get? id = some g) ∧ key = owner ++ "/" ++ g.name

/-- What the metrics of a commit show of the files that lie below a directory. -/
structure ShowsCode (s : Store) (root : NodeId) (c : Commit) (m : CodeMetrics) : Prop where
  /-- All classes that lie in a file have one turn each, under a key made of names. -/
  walks : ∀ path f, s.LiesAt c root path f →
    s.WalksThrough path f (s.classesShown path (s.hydrateFile f))
  files : m.fileMetrics.Shows (fun f v => v.Renders f.metrics) (s.LiesAt c root)
  classes : m.classMetrics.Shows (fun k v => v.Renders k.metrics) fun key k =>
    ∃ path f, s.LiesAt c root path f ∧ (key, k) ∈ s.classesShown path (s.hydrateFile f)
  /-- A function lies in a file outside of classes, or in one of the classes. -/
  methods : m.methodMetrics.Shows (fun g v => v.Renders g.metrics) fun key g =>
    ∃ path f, s.LiesAt c root path f ∧ (s.HasMethod path f.functions key g ∨
      ∃ owner k, (owner, k) ∈ s.classesShown path (s.hydrateFile f) ∧
        s.HasMethod owner k.functions key g)

variable {s : Store} {c : Commit} {root : NodeId}

/-- The files that have a path are those that lie at it. -/
theorem exists_filesBelow_hydrate (P : String → HydratedFile → Prop) :
    (∃ x ∈ (s.hydrate c).filesBelow root, P x.1 x.2) ↔
      ∃ path f, s.LiesAt c root path f ∧ P path (s.hydrateFile f) := by
  have hplace : ∀ f ∈ (s.hydrate c).files, ∀ path,
      (s.hydrate c).pathBelow root f.file = some path ↔ _ :=
    fun f hf path => HydratedCommit.pathBelow_eq_some_iff (ancestors_hydrate hf)
  unfold HydratedCommit.filesBelow
  simp only [List.mem_filterMap, Option.map_eq_some_iff]
  constructor
  · rintro ⟨_, ⟨g, hg, path, hpath, rfl⟩, hP⟩
    obtain ⟨f, hid, hget, rfl⟩ := mem_files_hydrate.1 hg
    exact ⟨path, f, ⟨hget, hid, (hplace _ hg path).1 hpath⟩, hP⟩
  · rintro ⟨path, f, ⟨hget, hid, hat⟩, hP⟩
    have hg := mem_files_hydrate.2 ⟨f, hid, hget, rfl⟩
    exact ⟨_, ⟨_, hg, path, (hplace _ hg path).2 hat, rfl⟩, hP⟩

theorem mem_methodEntries {owner key : String} {ids : SortedSet NodeId}
    {g : FunctionNode} :
    (key, g) ∈ methodEntries owner (ids.toList.filterMap s.functions.get?) ↔
      s.HasMethod owner ids key g := by
  unfold methodEntries HasMethod
  simp only [List.mem_map, List.mem_filterMap, Prod.mk.injEq]
  constructor
  · rintro ⟨_, hg, rfl, rfl⟩
    exact ⟨hg, rfl⟩
  · rintro ⟨hg, rfl⟩
    exact ⟨g, hg, rfl, rfl⟩

theorem mem_functionEntries {path key : String} {f : FileRevision} {g : FunctionNode} :
    (key, g) ∈ s.functionEntries (path, s.hydrateFile f) ↔ s.HasMethod path f.functions key g ∨
      ∃ owner c, (owner, c) ∈ s.classesShown path (s.hydrateFile f) ∧
        s.HasMethod owner c.functions key g := by
  unfold functionEntries
  rw [List.mem_append, List.mem_flatMap, Prod.exists]
  exact or_congr mem_methodEntries
    (exists₂_congr fun owner c => and_congr_right fun _ => mem_methodEntries)

theorem showsCode_ofCommit (s : Store) (root : NodeId) (c : Commit) :
    s.ShowsCode root c (CodeMetrics.ofCommit s root (s.hydrate c)) := by
  rw [CodeMetrics.ofCommit_eq]
  constructor
  case walks => exact fun path f _ => s.walksThrough_classesShown path f
  case files =>
    have hrevisions : SortedMap.putMany ∅ CodeMetrics.ofFile ((s.hydrate c).filesBelow root)
        = SortedMap.putMany ∅ (fun f => FileMetrics.ofMetrics f.metrics)
          (((s.hydrate c).filesBelow root).map fun x => (x.1, x.2.file)) := by
      unfold SortedMap.putMany
      rw [List.foldl_map]
      rfl
    rw [hrevisions]
    refine (SortedMap.shows_putMany (fun f : FileRevision => FileMetrics.ofMetrics f.metrics) _ _
      fun f => FileMetrics.renders_ofMetrics f.metrics).congr fun key f => ?_
    rw [List.mem_map]
    refine (exists_filesBelow_hydrate fun path g => (path, g.file) = (key, f)).trans ?_
    simp [hydrateFile]
  case classes =>
    refine (SortedMap.shows_putMany CodeMetrics.ofClass _ _
      fun k => ClassMetrics.renders_ofMetrics k.metrics).congr fun key k => ?_
    rw [List.mem_flatMap]
    exact exists_filesBelow_hydrate fun path g => (key, k) ∈ s.classesShown path g
  case methods =>
    refine (SortedMap.shows_putMany CodeMetrics.ofMethod _ _
      fun g => MethodMetrics.renders_ofMetrics g.metrics).congr fun key g => ?_
    rw [List.mem_flatMap]
    refine (exists_filesBelow_hydrate fun path f =>
      (key, g) ∈ s.functionEntries (path, f)).trans ?_
    exact exists₂_congr fun path f => and_congr_right fun _ => mem_functionEntries

/-- An application in a directory of a tree, with files in this directory, in another one below it
and outside of it. Classes lie in one another and in themselves, two have one name, and there are
ids without a node. -/
def sampleEntangled : Store :=
  { (∅ : Store) with
    applications := (∅ : Sorted Application.id).insert
      { id := 30, token := "t", name := "app", rootDirectory := 1 }
    commits := (∅ : Sorted Commit.id).insert
      { id := 20, token := "t", hash := "c", fileRevisions := Sorted.ofList [10, 11, 12, 13] }
    directories := Sorted.ofList
      [{ id := 1, name := "src", parent := some 14 }, { id := 14, name := "top" },
        { id := 15, name := "lib", parent := some 1 },
        { id := 16, name := "util", parent := some 15 }]
    files := Sorted.ofList
      [{ id := 10, name := "x.rs", parent := some 1, classes := Sorted.ofList [2, 3],
          functions := Sorted.ofList [7, 70] },
        { id := 11, name := "y.rs", parent := some 16 },
        { id := 12, name := "z.rs", parent := some 14 }]
    classes := Sorted.ofList
      [{ id := 2, name := "A", functions := Sorted.ofList [8],
          innerClasses := Sorted.ofList [3, 4] },
        { id := 3, name := "B", innerClasses := Sorted.ofList [2, 3, 4] },
        { id := 4, name := "A", functions := Sorted.ofList [9], innerClasses := Sorted.ofList [5] },
        { id := 6, name := "apart" }]
    functions := Sorted.ofList
      [{ id := 7, name := "f" }, { id := 8, name := "g" }, { id := 9, name := "h" }] }

/-- In every store the metrics of an application at a commit are found if both are known, and show
exactly the files below the application, the classes that lie in them and the functions of both. -/
theorem code_shown (s : Store) (token name hash : String) (a : Application) (c : Commit)
    (happlication : s.findApplication token name = some a)
    (hcommit : s.findCommit token hash = some c) :
    ∃ m, s.metricsOf token name hash = .ok m ∧ s.ShowsCode a.rootDirectory c m := by
  refine ⟨_, ?_, s.showsCode_ofCommit a.rootDirectory c⟩
  unfold metricsOf application loadCommit
  rw [happlication, hcommit]
  rfl

/-- The file below another directory is shown under its path from the application, and the file
outside is not shown. Each of three entangled classes has a turn, and two of them share a key. -/
theorem code_shown_sample :
    ∃ a c m, sampleEntangled.findApplication "t" "app" = some a ∧
      sampleEntangled.findCommit "t" "c" = some c ∧
      sampleEntangled.metricsOf "t" "app" "c" = .ok m ∧
      sampleEntangled.ShowsCode a.rootDirectory c m ∧
      m.fileMetrics.toList.map Prod.fst = ["lib/util/y.rs", "x.rs"] ∧
      m.classMetrics.toList.map Prod.fst = ["x.rs/B", "x.rs/B/A"] ∧
      m.methodMetrics.toList.map Prod.fst = ["x.rs/B/A/g", "x.rs/B/A/h", "x.rs/f"] := by
  have happlication : (sampleEntangled.findApplication "t" "app").isSome := by decide +kernel
  have hcommit : (sampleEntangled.findCommit "t" "c").isSome := by decide +kernel
  obtain ⟨a, ha⟩ := Option.isSome_iff_exists.1 happlication
  obtain ⟨c, hc⟩ := Option.isSome_iff_exists.1 hcommit
  obtain ⟨m, hm, hshows⟩ := code_shown sampleEntangled "t" "app" "c" a c ha hc
  have hkeys : (sampleEntangled.metricsOf "t" "app" "c").toOption.map
      (fun m => (m.fileMetrics.toList.map Prod.fst, m.classMetrics.toList.map Prod.fst,
        m.methodMetrics.toList.map Prod.fst))
        = some (["lib/util/y.rs", "x.rs"], ["x.rs/B", "x.rs/B/A"],
          ["x.rs/B/A/g", "x.rs/B/A/h", "x.rs/f"]) := by
    cbv
  rw [hm] at hkeys
  obtain ⟨hfiles, hrest⟩ := Prod.ext_iff.1 (Option.some.inj hkeys)
  obtain ⟨hclasses, hmethods⟩ := Prod.ext_iff.1 hrest
  exact ⟨a, c, m, ha, hc, hm, hshows, hfiles, hclasses, hmethods⟩

end Store

end Cityscape
