import Cityscape.Proofs.Paths
import Cityscape.Proofs.Projection
import Cityscape.Query.CodeMetrics
import Mathlib.Data.List.Forall2

/-!
# `Outlines`: what free functions cannot change

Two hydrated commits are alike if they differ in the free functions of their files, and in what
else the directories above these contain, and in nothing more (`HydratedCommit.Alike`). Drawing
a commit looks at free functions only to draw them, and at directories only for their ids and
names. So alike commits have the same landscape but for functions
(`Landscape.sameButFunctions_ofCommits`), and the same metrics but for those of functions
(`CodeMetrics.withoutMethods_ofCommit`).
-/

namespace Cityscape

/-- One file in two hydrated commits, with other free functions in each. -/
structure HydratedFile.Alike (h h' : HydratedCommit) (g g' : HydratedFile) : Prop where
  file : g'.file = { g.file with functions := g'.file.functions }
  classes : g'.classes = g.classes
  above : (h'.ancestors g'.file).map Directory.bare = (h.ancestors g.file).map Directory.bare

/-- Hydrated commits that differ in free functions, and in what else directories contain. -/
structure HydratedCommit.Alike (h h' : HydratedCommit) : Prop where
  commit : h'.commit = h.commit
  files : List.Forall₂ (HydratedFile.Alike h h') h.files h'.files

namespace HydratedFile.Alike

variable {h h' : HydratedCommit} {g g' : HydratedFile}

theorem buildingId (a : HydratedFile.Alike h h' g g') :
    g'.file.buildingId = g.file.buildingId := by
  rw [a.file]
  rfl

theorem building (a : HydratedFile.Alike h h' g g') (cityId districtId : String) :
    Landscape.building cityId districtId g'.file = Landscape.building cityId districtId g.file := by
  rw [a.file]
  rfl

/-- Either both files are in a directory or none of them is. -/
theorem isSome_parentOf (a : HydratedFile.Alike h h' g g') :
    (h'.parentOf g'.file).isSome = (h.parentOf g.file).isSome := by
  have hhead := congrArg List.head? a.above
  rw [List.head?_map, List.head?_map, h'.head?_ancestors, h.head?_ancestors] at hhead
  rw [← Option.isSome_map (f := Directory.bare), hhead, Option.isSome_map]

end HydratedFile.Alike

/-! ## Landscapes -/

namespace SortedMap

variable {κ α β : Type} [Ord κ] [Std.TransOrd κ] [Std.LawfulEqOrd κ] [DecidableEq κ]
  {m m' : SortedMap κ α} {g : α → β}

theorem map_find?_putNew_congr (h : ∀ k, (m'.find? k).map g = (m.find? k).map g) (b : κ) (v : α)
    (k : κ) : ((m'.putNew b v).find? k).map g = ((m.putNew b v).find? k).map g := by
  rw [find?_putNew, find?_putNew]
  by_cases hk : k = b
  · rw [if_pos hk, if_pos hk, Option.map_some, Option.map_some, ← Option.getD_map g v,
      ← Option.getD_map g v, h]
  · rw [if_neg hk, if_neg hk, h]

theorem map_find?_change_congr (h : ∀ k, (m'.find? k).map g = (m.find? k).map g) (b : κ)
    {u : α → α} {w : β → β} (hu : ∀ a, g (u a) = w (g a)) (k : κ) :
    ((m'.change b u).find? k).map g = ((m.change b u).find? k).map g := by
  have hmap : ∀ o : Option α, (o.map u).map g = (o.map g).map w := by
    intro o
    rw [Option.map_map, Option.map_map]
    exact congrArg (Option.map · o) (funext hu)
  rw [find?_change, find?_change]
  by_cases hk : k = b
  · rw [if_pos hk, if_pos hk, hmap, hmap, h]
  · rw [if_neg hk, if_neg hk, h]

end SortedMap

/-- A building without its free functions. -/
def Building.withoutFunctions (b : Building) : Building := { b with functionIds := [] }

namespace Landscape

/-- The landscapes differ in their functions and in what functions buildings list. -/
structure SameButFunctions (l l' : Landscape) : Prop where
  token : l'.landscapeToken = l.landscapeToken
  cities : l'.cities = l.cities
  districts : l'.districts = l.districts
  buildings : ∀ k, (l'.buildings.find? k).map Building.withoutFunctions
    = (l.buildings.find? k).map Building.withoutFunctions
  classes : l'.classes = l.classes

variable {l l' l'' : Landscape}

namespace SameButFunctions

protected theorem rfl : l.SameButFunctions l := ⟨rfl, rfl, rfl, fun _ => rfl, rfl⟩

theorem symm (h : l.SameButFunctions l') : l'.SameButFunctions l :=
  ⟨h.token.symm, h.cities.symm, h.districts.symm, fun k => (h.buildings k).symm, h.classes.symm⟩

theorem trans (h : l.SameButFunctions l') (h' : l'.SameButFunctions l'') :
    l.SameButFunctions l'' :=
  ⟨h'.token.trans h.token, h'.cities.trans h.cities, h'.districts.trans h.districts,
    fun k => (h'.buildings k).trans (h.buildings k), h'.classes.trans h.classes⟩

theorem drawCity (h : l.SameButFunctions l') (name : String) :
    (l.drawCity name).SameButFunctions (l'.drawCity name) :=
  { h with
    cities := by simp only [Landscape.drawCity, h.cities] }

theorem withDistrict (h : l.SameButFunctions l') (d : District) :
    (l.withDistrict d).SameButFunctions (l'.withDistrict d) :=
  { h with
    cities := by simp only [Landscape.withDistrict, h.cities]
    districts := by simp only [Landscape.withDistrict, h.districts] }

theorem withBuilding (h : l.SameButFunctions l') (b : Building) :
    (l.withBuilding b).SameButFunctions (l'.withBuilding b) :=
  { h with
    cities := by simp only [Landscape.withBuilding, h.cities]
    districts := by simp only [Landscape.withBuilding, h.districts]
    buildings := SortedMap.map_find?_putNew_congr h.buildings b.id b }

theorem drawClass (h : l.SameButFunctions l') (b : String) (c : ClassNode) :
    (l.drawClass b c).SameButFunctions (l'.drawClass b c) :=
  { h with
    buildings := SortedMap.map_find?_change_congr h.buildings b
      (w := fun b => { b with classIds := pushUnique b.classIds (stableId c.name) }) fun _ => rfl
    classes := by simp only [Landscape.drawClass, h.classes] }

/-- A free function is not seen. -/
theorem drawFreeFunction (l : Landscape) (b fqn : String) (g : FunctionNode) :
    l.SameButFunctions (l.drawFreeFunction b fqn g) :=
  { SameButFunctions.rfl (l := l) with
    buildings := SortedMap.map_find?_change fun _ => rfl }

theorem drawMethod (h : l.SameButFunctions l') (fqn : String) (g : FunctionNode) :
    (l.drawMethod fqn g).SameButFunctions (l'.drawMethod fqn g) :=
  { h with
    classes := by simp only [Landscape.drawMethod, h.classes] }

/-- The same is drawn onto both landscapes, again and again. -/
theorem foldl {α : Type} {f : Landscape → α → Landscape}
    (hf : ∀ {l l' : Landscape} (a : α), l.SameButFunctions l' →
      (f l a).SameButFunctions (f l' a)) (as : List α) (h : l.SameButFunctions l') :
    (as.foldl f l).SameButFunctions (as.foldl f l') := by
  induction as generalizing l l' with
  | nil => exact h
  | cons a as ih => exact ih (hf a h)

end SameButFunctions

/-! ### Districts -/

/-- Two drawings have come to the same so far, but for functions. -/
def SameSoFar {α : Type} (x y : Landscape × α) : Prop := x.1.SameButFunctions y.1 ∧ y.2 = x.2

theorem SameSoFar.drawDistrict {x y : Landscape × Option (String × String)} (h : SameSoFar x y)
    (cityId : String) (d : Directory) :
    SameSoFar (drawDistrict cityId x d) (drawDistrict cityId y d) := by
  obtain ⟨l, parent⟩ := x
  obtain ⟨l', parent'⟩ := y
  obtain ⟨hl, rfl : parent' = parent⟩ := h
  cases hfind : l.districts.find? d.id.text with
  | some old =>
    have hfind' : l'.districts.find? d.id.text = some old := by rw [hl.districts, hfind]
    unfold Landscape.drawDistrict
    simp only [hfind, hfind']
    exact ⟨hl, rfl⟩
  | none =>
    have hfind' : l'.districts.find? d.id.text = none := by rw [hl.districts, hfind]
    rw [drawDistrict_of_none parent' hfind, drawDistrict_of_none parent' hfind']
    exact ⟨hl.withDistrict _, rfl⟩

/-- Only ids and names of directories are drawn. -/
theorem drawDistricts_bare (l : Landscape) (cityId : String) (chain : List Directory) :
    l.drawDistricts cityId (chain.map Directory.bare) = l.drawDistricts cityId chain := by
  unfold drawDistricts
  rw [← List.map_reverse, List.foldl_map]
  rfl

theorem SameButFunctions.drawDistricts (h : l.SameButFunctions l') (cityId : String)
    (chain : List Directory) :
    SameSoFar (l.drawDistricts cityId chain) (l'.drawDistricts cityId chain) := by
  have hdown : ∀ (ds : List Directory) {x y : Landscape × Option (String × String)},
      SameSoFar x y →
        SameSoFar (ds.foldl (drawDistrict cityId) x) (ds.foldl (drawDistrict cityId) y) := by
    intro ds
    induction ds with
    | nil => exact fun hxy => hxy
    | cons d ds ih => exact fun hxy => ih (hxy.drawDistrict cityId d)
  obtain ⟨hl, hlast⟩ := hdown chain.reverse (x := (l, none)) (y := (l', none)) ⟨h, rfl⟩
  exact ⟨hl, congrArg (fun p => (Option.map Prod.fst p).getD "") hlast⟩

theorem SameButFunctions.drawRootDistrict (h : l.SameButFunctions l') (cityId : String) :
    SameSoFar (l.drawRootDistrict cityId) (l'.drawRootDistrict cityId) := by
  unfold Landscape.drawRootDistrict
  simp only [h.districts]
  split
  · exact ⟨h, rfl⟩
  · refine ⟨{ h with cities := ?_, districts := ?_ }, rfl⟩
    · simp only [listDistrict, h.cities]
    · simp only [listDistrict]

section Alike

variable {h h' : HydratedCommit} {g g' : HydratedFile}

/-- The directories above a file are the same. -/
theorem SameButFunctions.drawAbove (hl : l.SameButFunctions l')
    (a : HydratedFile.Alike h h' g g') (cityId : String) :
    SameSoFar (drawAbove cityId h l g.file) (drawAbove cityId h' l' g'.file) := by
  have hsome := a.isSome_parentOf
  unfold Landscape.drawAbove
  cases hp : h.parentOf g.file with
  | none =>
    rw [hp, Option.isSome_none, Option.isSome_eq_false_iff, Option.isNone_iff_eq_none] at hsome
    rw [hsome]
    exact hl.drawRootDistrict cityId
  | some d =>
    rw [hp, Option.isSome_some] at hsome
    obtain ⟨d', hp'⟩ := Option.isSome_iff_exists.1 hsome
    rw [hp']
    show SameSoFar (l.drawDistricts cityId (h.ancestors g.file))
      (l'.drawDistricts cityId (h'.ancestors g'.file))
    rw [← l.drawDistricts_bare, ← l'.drawDistricts_bare, a.above]
    exact hl.drawDistricts cityId _

theorem SameButFunctions.drawFile (hl : l.SameButFunctions l')
    (a : HydratedFile.Alike h h' g g') (cityId : String) :
    (drawFile cityId h l g.file).SameButFunctions (drawFile cityId h' l' g'.file) := by
  obtain ⟨habove, hname⟩ := hl.drawAbove a cityId
  rw [drawFile_eq, drawFile_eq, hname, a.building]
  exact habove.withBuilding _

theorem SameButFunctions.drawContents (hl : l.SameButFunctions l')
    (a : HydratedFile.Alike h h' g g') :
    (l.drawContents g).SameButFunctions (l'.drawContents g') := by
  have hclasses := foldl (f := Landscape.drawClass g.file.buildingId)
    (fun c hl => hl.drawClass g.file.buildingId c) (g.classes.map HydratedClass.node) hl
  -- free functions may differ, but they are not seen
  have hfree : ∀ (fs : List FunctionNode) (l : Landscape) (b fqn : String),
      l.SameButFunctions (fs.foldl (Landscape.drawFreeFunction b fqn) l) := by
    intro fs
    induction fs with
    | nil => exact fun _ _ _ => .rfl
    | cons f fs ih => exact fun l b fqn => (drawFreeFunction l b fqn f).trans (ih _ b fqn)
  unfold Landscape.drawContents
  rw [a.buildingId, a.classes]
  exact ((hfree _ _ _ _).symm.trans hclasses).trans (hfree _ _ _ _)

/-- Alike commits are drawn alike. -/
theorem SameButFunctions.drawCommit (hl : l.SameButFunctions l') (a : h.Alike h') (city : String) :
    (l.drawCommit city h).SameButFunctions (l'.drawCommit city h') := by
  have hclasses : h'.files.flatMap HydratedFile.classes
      = h.files.flatMap HydratedFile.classes := by
    have hmap : h'.files.map HydratedFile.classes = h.files.map HydratedFile.classes := by
      rw [← List.forall₂_eq_eq_eq, List.forall₂_map_left_iff, List.forall₂_map_right_iff]
      exact a.files.flip.imp fun _ _ hg => hg.classes
    rw [List.flatMap_def, List.flatMap_def, hmap]
  have hfiles : ((h.files.map HydratedFile.file).foldl
        (Landscape.drawFile (stableId city) h) (l.drawCity city)).SameButFunctions
      ((h'.files.map HydratedFile.file).foldl
        (Landscape.drawFile (stableId city) h') (l'.drawCity city)) := by
    rw [List.foldl_map, List.foldl_map]
    exact List.rel_foldl (P := SameButFunctions) (R := HydratedFile.Alike h h')
      (fun _ _ hl _ _ hg => hl.drawFile hg (stableId city)) (hl.drawCity city)
      a.files
  have hcontents := List.rel_foldl (P := SameButFunctions) (R := HydratedFile.Alike h h')
    (fun _ _ hl _ _ hg => hl.drawContents hg) hfiles a.files
  unfold Landscape.drawCommit
  rw [hclasses]
  refine foldl (fun c hl => ?_) _ hcontents
  exact foldl (fun f hl => hl.drawMethod c.node.name f) c.functions hl

end Alike

/-- Alike commits in the same cities have the same landscape but for functions. -/
theorem sameButFunctions_ofCommits (token : String) {cs cs' : List (String × HydratedCommit)}
    (h : List.Forall₂ (fun m m' => m'.1 = m.1 ∧ m.2.Alike m'.2) cs cs') :
    (ofCommits token cs).SameButFunctions (ofCommits token cs') :=
  List.rel_foldl (fun _ _ hl _ _ hm => hm.1 ▸ hl.drawCommit hm.2 _) .rfl h

end Landscape

/-! ## Metrics -/

/-- The path of a file depends only on the ids and names of the directories above it. -/
theorem HydratedFile.Alike.pathBelow {h h' : HydratedCommit} {g g' : HydratedFile}
    (a : HydratedFile.Alike h h' g g') (root : NodeId) :
    h'.pathBelow root g'.file = h.pathBelow root g.file := by
  have hname : g'.file.name = g.file.name := by rw [a.file]
  have hbare : ∀ (h : HydratedCommit) (f : FileRevision), h.pathBelow root f =
      let chain := (h.ancestors f).map Directory.bare
      let below := chain.takeWhile fun d => d.id ≠ root
      if below.length < chain.length then
        some ("/".intercalate ((below.map Directory.name).reverse ++ [f.name]))
      else none := by
    intro h f
    simp only [List.takeWhile_map, List.length_map, List.map_map]
    rfl
  rw [hbare, hbare, a.above, hname]

namespace CodeMetrics

/-- The metrics of files and classes. -/
def withoutMethods (m : CodeMetrics) : CodeMetrics := { m with methodMetrics := ∅ }

variable {m m' : CodeMetrics} {s s' : Store}

theorem withoutMethods_foldl_addMethod (owner : String) (fs : List FunctionNode)
    (m : CodeMetrics) : (fs.foldl (addMethod owner) m).withoutMethods = m.withoutMethods := by
  induction fs generalizing m with
  | nil => rfl
  | cons f fs ih => exact ih (addMethod owner m f)

/-- What is shown of a class, its functions apart, does not depend on the store. -/
theorem withoutMethods_addClass (h : m'.withoutMethods = m.withoutMethods)
    (shown : String × ClassNode) :
    (addClass s' m' shown).withoutMethods = (addClass s m shown).withoutMethods := by
  have hput : ∀ (s : Store) (m : CodeMetrics), (addClass s m shown).withoutMethods
      = { m.withoutMethods with
          classMetrics := m.withoutMethods.classMetrics.put shown.1
            (ClassMetrics.ofMetrics shown.2.metrics) } :=
    fun s m => withoutMethods_foldl_addMethod shown.1 (s.methods shown.2) _
  rw [hput, hput, h]

theorem withoutMethods_addFile (h : m'.withoutMethods = m.withoutMethods) {path : String}
    {g g' : HydratedFile} (hmetrics : g'.file.metrics = g.file.metrics)
    (hclasses : s'.classesShown path g' = s.classesShown path g) :
    (addFile s' path m' g').withoutMethods = (addFile s path m g).withoutMethods := by
  have hfold : ∀ (shown : List (String × ClassNode)) {m m' : CodeMetrics},
      m'.withoutMethods = m.withoutMethods →
      (shown.foldl (addClass s') m').withoutMethods
        = (shown.foldl (addClass s) m).withoutMethods := by
    intro shown
    induction shown with
    | nil => exact fun h => h
    | cons x shown ih => exact fun h => ih (withoutMethods_addClass h x)
  unfold addFile
  rw [hclasses]
  apply hfold
  rw [withoutMethods_foldl_addMethod, withoutMethods_foldl_addMethod, hmetrics]
  have hput := congrArg (fun m : CodeMetrics => { m with
    fileMetrics := m.fileMetrics.put path (FileMetrics.ofMetrics g.file.metrics) }) h
  exact hput

/-- Alike commits over the same classes have the same metrics but for functions. -/
theorem withoutMethods_ofCommit {h h' : HydratedCommit} (a : h.Alike h')
    (hclasses : s'.classes = s.classes) (root : NodeId) :
    (ofCommit s' root h').withoutMethods = (ofCommit s root h).withoutMethods := by
  have hshown : ∀ {g g' : HydratedFile}, HydratedFile.Alike h h' g g' → ∀ path,
      s'.classesShown path g' = s.classesShown path g := by
    intro g g' hg path
    unfold Store.classesShown Store.innerClasses
    rw [hclasses, hg.classes]
  refine List.rel_foldl (P := fun m m' : CodeMetrics => m'.withoutMethods = m.withoutMethods)
    (R := HydratedFile.Alike h h') ?_ rfl a.files
  intro m m' hm g g' hg
  simp only [hg.pathBelow root]
  cases h.pathBelow root g.file with
  | none => exact hm
  | some path =>
    have hmetrics : g'.file.metrics = g.file.metrics := by rw [hg.file]
    exact withoutMethods_addFile hm hmetrics (hshown hg path)

end CodeMetrics

end Cityscape
