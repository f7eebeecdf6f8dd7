import Cityscape.Landscape.Projection
import Cityscape.Proofs.Climbing
import Cityscape.Proofs.Landscapes
import Mathlib.Data.List.Induction

/-!
# `Projection`: the landscape of some commits

Commits are drawn into a landscape one after the other. What a commit shows
(`HydratedCommit.Shows`) and where that is listed (`HydratedCommit.Places`) is told by the
commit alone, and each part of its drawing adds its share, from districts and files over classes
to their functions.

Main statements: the landscape of any commits is well-formed (`wellFormed_ofCommits`), and it
has exactly the entities that its commits show, all in their lists (`shows_ofCommits`).
-/

namespace Cityscape

/-! ## What a commit shows -/

theorem NodeId.text_eq (id : NodeId) : id.text = toString id.val.toNat := rfl

namespace FileRevision

variable {f : FileRevision} {k fqn : String}

/-- The key of a file's building: the hash of its content, or its number if it has no hash. -/
def HasKey (f : FileRevision) (k : String) : Prop :=
  f.hash = some k ∨ f.hash = none ∧ k = "file-" ++ toString f.id.val.toNat

/-- The qualified name of a file: its name, behind that of its package if it has one. -/
def HasFqn (f : FileRevision) (fqn : String) : Prop :=
  (f.packageName = none ∨ f.packageName = some "") ∧ fqn = f.name ∨
    ∃ package, f.packageName = some package ∧ package ≠ "" ∧ fqn = package ++ "." ++ f.name

theorem hasKey_iff : f.HasKey k ↔ k = f.buildingId := by
  unfold HasKey buildingId
  cases f.hash with
  | none => simp [NodeId.text_eq]
  | some hash => simp [eq_comm]

theorem hasFqn_iff : f.HasFqn fqn ↔ fqn = f.qualifiedName := by
  unfold HasFqn qualifiedName
  cases f.packageName with
  | none => simp
  | some package =>
    by_cases h : package = ""
    · simp [h]
    · simp [h, String.isEmpty_iff]

end FileRevision

namespace HydratedCommit

/-- The directory of a file is not loaded. -/
def Rootless (h : HydratedCommit) (f : FileRevision) : Prop :=
  ∀ d ∈ h.directories, f.parent ≠ some d.id

/-- The id of a directory on the way up from a file, or of the root district for a file whose
directory is not loaded. -/
def IsAbove (h : HydratedCommit) (cityId : String) (f : FileRevision) (k : String) : Prop :=
  (∃ d, Reach h.directories.toList f.parent d ∧ k = toString d.id.val.toNat) ∨
    h.Rootless f ∧ k = cityId ++ "-root"

/-- The id of the directory that a file lies in, or of the root district if that directory is not
loaded. -/
def IsIn (h : HydratedCommit) (cityId : String) (f : FileRevision) (k : String) : Prop :=
  (∃ d ∈ h.directories, f.parent = some d.id ∧ k = toString d.id.val.toNat) ∨
    h.Rootless f ∧ k = cityId ++ "-root"

/-- The entities that a commit shows in a city. -/
def Shows (h : HydratedCommit) (city : String) : EntityKind → String → Prop
  | .city, k => k = stableId city
  | .district, k => ∃ f ∈ h.files, h.IsAbove (stableId city) f.file k
  | .building, k => ∃ f ∈ h.files, f.file.HasKey k
  | .classView, k => ∃ f ∈ h.files, ∃ c ∈ f.classes, k = stableId c.node.name
  | .functionView, k => ∃ f ∈ h.files,
      (∃ fqn, f.file.HasFqn fqn ∧ ∃ g ∈ f.functions, k = stableId (fqn ++ "::" ++ g.name))
        ∨ ∃ c ∈ f.classes, ∃ g ∈ c.functions, k = stableId (c.node.name ++ "::" ++ g.name)

/-- The lists in which a commit places what is in its files. -/
def Places (h : HydratedCommit) (city : String) : Link → String → String → Prop
  | .cityBuilding, k, x => ∃ f ∈ h.files, k = stableId city ∧ f.file.HasKey x
  | .districtBuilding, k, x => ∃ f ∈ h.files, h.IsIn (stableId city) f.file k ∧ f.file.HasKey x
  | .buildingClass, k, x =>
    ∃ f ∈ h.files, f.file.HasKey k ∧ ∃ c ∈ f.classes, x = stableId c.node.name
  | .buildingFunction, k, x => ∃ f ∈ h.files, f.file.HasKey k ∧
      ∃ fqn, f.file.HasFqn fqn ∧ ∃ g ∈ f.functions, x = stableId (fqn ++ "::" ++ g.name)
  | .classFunction, k, x => ∃ f ∈ h.files, ∃ c ∈ f.classes, k = stableId c.node.name ∧
      ∃ g ∈ c.functions, x = stableId (c.node.name ++ "::" ++ g.name)
  | .rootDistrict, _, _ | .district, _, _ | .subdistrict, _, _ => False

variable {h : HydratedCommit} {cityId k : String} {f : FileRevision}

/-- The id of the district that a file is drawn in. -/
def districtOf (h : HydratedCommit) (cityId : String) (f : FileRevision) : String :=
  match h.parentOf f with
  | some d => d.id.text
  | none => cityId ++ "-root"

theorem parentOf_eq_some_iff {d : Directory} :
    h.parentOf f = some d ↔ d ∈ h.directories ∧ f.parent = some d.id := by
  unfold parentOf
  rw [Option.bind_eq_some_iff]
  constructor
  · rintro ⟨id, hp, hd⟩
    exact ⟨Sorted.mem_of_get? hd, hp.trans (congrArg some (Sorted.key_of_get? hd).symm)⟩
  · rintro ⟨hd, hp⟩
    exact ⟨d.id, hp, Sorted.get?_key hd⟩

theorem parentOf_eq_none_iff : h.parentOf f = none ↔ h.Rootless f := by
  simp only [Option.eq_none_iff_forall_ne_some, ne_eq, parentOf_eq_some_iff, not_and, Rootless]

theorem isAbove_iff : h.IsAbove cityId f k ↔
    (∃ d ∈ h.ancestors f, k = d.id.text) ∨ h.parentOf f = none ∧ k = cityId ++ "-root" := by
  unfold IsAbove
  rw [parentOf_eq_none_iff]
  refine or_congr_left (exists_congr fun d => and_congr_left' ?_)
  exact mem_climb_iff.symm

theorem isIn_iff : h.IsIn cityId f k ↔ k = h.districtOf cityId f := by
  unfold IsIn districtOf
  rw [← parentOf_eq_none_iff]
  simp only [← and_assoc, ← parentOf_eq_some_iff]
  cases h.parentOf f with
  | none => simp
  | some d => simp [NodeId.text_eq]

/-- The first directory above a file is the one that contains it. -/
theorem head?_ancestors (h : HydratedCommit) (f : FileRevision) :
    (h.ancestors f).head? = h.parentOf f := by
  unfold ancestors parentOf
  cases hf : f.parent with
  | none => rw [climb, List.head?_nil, Option.bind_none]
  | some id =>
    rw [climb, Option.bind_some, Sorted.get?]
    split
    · rename_i hd
      exact hd.symm
    · rename_i d hd
      exact hd.symm

end HydratedCommit

namespace Landscape

variable {l : Landscape} {cityId : String} {parent : Option (String × String)}

/-! ## Districts -/

/-- What the next district is drawn below is a district with the given qualified name. -/
def Above (l : Landscape) (parent : Option (String × String)) : Prop :=
  ∀ p fqn, parent = some (p, fqn) → ∃ e, l.entity? .district p = some e ∧ e.fqn = some fqn

/-- The district of a directory as it is drawn below another one. -/
def newDistrict (cityId : String) (parent : Option (String × String)) (d : Directory) : District :=
  { id := d.id.text, name := d.name
    fqn := match parent with
      | some (_, parentFqn) => parentFqn ++ "." ++ d.name
      | none => d.name
    parentCityId := cityId, parentDistrictId := parent.map Prod.fst }

/-- The district of files without a directory. -/
def rootDistrict (cityId : String) : District :=
  { id := cityId ++ "-root", name := "root", fqn := "root", parentCityId := cityId
    parentDistrictId := none }

theorem qualifiedIn_newDistrict (h : l.Above parent) (d : Directory) :
    l.QualifiedIn (newDistrict cityId parent d).entity where
  root hnone := by
    cases parent with
    | none => rfl
    | some p => exact absurd hnone (Option.some_ne_none p.1)
  below p hsome := by
    cases parent with
    | none => exact absurd hsome.symm (Option.some_ne_none p)
    | some q =>
      obtain ⟨e, he, hfqn⟩ := h q.1 q.2 rfl
      exact ⟨e, q.2, Option.some.inj hsome ▸ he, hfqn, rfl⟩

theorem qualifiedIn_rootDistrict : l.QualifiedIn (rootDistrict cityId).entity where
  root _ := rfl
  below p hsome := absurd hsome.symm (Option.some_ne_none p)

theorem drawDistrict_of_some (parent : Option (String × String)) {d : Directory} {old : District}
    (hold : l.districts.find? d.id.text = some old) :
    drawDistrict cityId (l, parent) d = (l, some (old.id, old.fqn)) := by
  simp only [drawDistrict, hold]

theorem drawDistrict_of_none (parent : Option (String × String)) {d : Directory}
    (hnew : l.districts.find? d.id.text = none) :
    drawDistrict cityId (l, parent) d = (l.withDistrict (newDistrict cityId parent d),
      some (d.id.text, (newDistrict cityId parent d).fqn)) := by
  simp only [drawDistrict, hnew]
  cases parent <;> rfl

theorem find?_eq_none_of_not_has {x : String} (h : ¬l.Has .district x) :
    l.districts.find? x = none := by
  rw [← Option.not_isSome_iff_eq_none]
  exact fun hsome => h (Option.isSome_map.trans hsome)

theorem drawRootDistrict_of_has (h : l.Has .district (cityId ++ "-root")) :
    l.drawRootDistrict cityId = (l, cityId ++ "-root") := by
  have hkey : l.districts.hasKey (cityId ++ "-root") = true :=
    (SortedMap.isSome_find? _ _).symm.trans (Option.isSome_map.symm.trans h)
  unfold drawRootDistrict
  exact if_pos hkey

theorem drawRootDistrict_of_none (h : l.districts.find? (cityId ++ "-root") = none) :
    l.drawRootDistrict cityId = (l.withDistrict (rootDistrict cityId), cityId ++ "-root") := by
  simp only [drawRootDistrict, ← SortedMap.isSome_find?, h, Option.isSome_none,
    Bool.false_eq_true, if_false]
  rfl

/-- The districts above a file, and the id of the one that the file is in. -/
def drawAbove (cityId : String) (h : HydratedCommit) (l : Landscape) (f : FileRevision) :
    Landscape × String :=
  match h.parentOf f with
  | some _ => l.drawDistricts cityId (h.ancestors f)
  | none => l.drawRootDistrict cityId

/-! ## The districts above a file -/

/-- What the next district is drawn below is there. -/
def Stands (l : Landscape) (parent : Option (String × String)) : Prop :=
  ∀ p ∈ parent, l.Has .district p.1

theorem drawDistrict_extends (hl : l.Keyed) (hcity : l.Has .city cityId) (hparent : l.Stands parent)
    (d : Directory) :
    l.Extends (drawDistrict cityId (l, parent) d).1
      ∧ (drawDistrict cityId (l, parent) d).1.Has .district d.id.text
      ∧ (drawDistrict cityId (l, parent) d).2.map Prod.fst = some d.id.text := by
  cases hfind : l.districts.find? d.id.text with
  | some old =>
    have hentity : l.entity? .district d.id.text = some old.entity :=
      congrArg (Option.map District.entity) hfind
    have hid : old.id = d.id.text := keyed_iff.1 hl .district d.id.text old.entity hentity
    rw [drawDistrict_of_some parent hfind]
    exact ⟨.refl hl, has_iff.2 ⟨_, hentity⟩, congrArg some hid⟩
  | none =>
    have hnamed : ∀ p, (newDistrict cityId parent d).parentDistrictId = some p →
        (l.districts.find? p).isSome := by
      intro p hp
      obtain ⟨q, hq, rfl⟩ := Option.map_eq_some_iff.1 hp
      exact Option.isSome_map.symm.trans (hparent q hq)
    have hadds := adds_withDistrict (d := newDistrict cityId parent d) hfind
      (Option.isSome_map.symm.trans hcity) hnamed rfl rfl
    rw [drawDistrict_of_none parent hfind]
    exact ⟨hadds.extends hl rfl, hadds.has_iff.2 (.inr ⟨rfl, rfl⟩), rfl⟩

/-- Directories are drawn each below the one before. -/
theorem foldl_drawDistrict_extends (ds : List Directory) (hl : l.Keyed)
    (hcity : l.Has .city cityId) (hparent : l.Stands parent) :
    l.Extends (ds.foldl (drawDistrict cityId) (l, parent)).1
      ∧ (∀ d ∈ ds, (ds.foldl (drawDistrict cityId) (l, parent)).1.Has .district d.id.text)
      ∧ (ds.foldl (drawDistrict cityId) (l, parent)).2.map Prod.fst
        = (ds.getLast?.map fun d => d.id.text).or (parent.map Prod.fst) := by
  induction ds generalizing l parent with
  | nil => exact ⟨.refl hl, nofun, rfl⟩
  | cons d ds ih =>
    obtain ⟨hfirst, hd, hname⟩ := drawDistrict_extends hl hcity hparent d
    have hstands : (drawDistrict cityId (l, parent) d).1.Stands
        (drawDistrict cityId (l, parent) d).2 := by
      intro p hp
      rw [Option.mem_def.1 hp] at hname
      exact Option.some.inj hname ▸ hd
    obtain ⟨hrest, hds, hlast⟩ := ih hfirst.keyed (hfirst.has hcity) hstands
    refine ⟨hfirst.trans hrest, ?_, ?_⟩
    · rw [List.forall_mem_cons]
      exact ⟨hrest.has hd, hds⟩
    · rw [List.foldl_cons, hlast, hname, List.getLast?_cons]
      cases ds.getLast? <;> rfl

theorem drawRootDistrict_extends (hl : l.Keyed) (hcity : l.Has .city cityId) :
    l.Extends (l.drawRootDistrict cityId).1
      ∧ (l.drawRootDistrict cityId).1.Has .district (cityId ++ "-root")
      ∧ (l.drawRootDistrict cityId).2 = cityId ++ "-root" := by
  by_cases hroot : l.Has .district (cityId ++ "-root")
  · rw [drawRootDistrict_of_has hroot]
    exact ⟨.refl hl, hroot, rfl⟩
  · have hnew := find?_eq_none_of_not_has hroot
    have hadds := adds_withDistrict (d := rootDistrict cityId) hnew
      (Option.isSome_map.symm.trans hcity) nofun rfl rfl
    rw [drawRootDistrict_of_none hnew]
    exact ⟨hadds.extends hl rfl, hadds.has_iff.2 (.inr ⟨rfl, rfl⟩), rfl⟩

/-- The districts above a file are there, and the nearest one is named. -/
theorem drawAbove_extends (hl : l.Keyed) (hcity : l.Has .city cityId) (h : HydratedCommit)
    (f : FileRevision) :
    l.Extends (drawAbove cityId h l f).1
      ∧ (∀ k, h.IsAbove cityId f k → (drawAbove cityId h l f).1.Has .district k)
      ∧ (drawAbove cityId h l f).2 = h.districtOf cityId f := by
  have hhead := h.head?_ancestors f
  simp only [HydratedCommit.isAbove_iff]
  unfold drawAbove HydratedCommit.districtOf
  cases hf : h.parentOf f with
  | some d =>
    have hnone : l.Stands none := nofun
    obtain ⟨hextends, hall, hlast⟩ :=
      foldl_drawDistrict_extends (h.ancestors f).reverse hl hcity hnone
    refine ⟨hextends, ?_, ?_⟩
    · rintro k (⟨d, hd, rfl⟩ | ⟨hnone, -⟩)
      · exact hall d (List.mem_reverse.2 hd)
      · cases hnone
    · show (((h.ancestors f).reverse.foldl (drawDistrict cityId) (l, none)).2.map
        Prod.fst).getD "" = d.id.text
      rw [hlast, List.getLast?_reverse, hhead, hf]
      rfl
  | none =>
    have hnil : h.ancestors f = [] := List.head?_eq_none_iff.1 (hhead.trans hf)
    obtain ⟨hextends, hroot, hname⟩ := drawRootDistrict_extends hl hcity
    refine ⟨hextends, ?_, hname⟩
    rintro k (⟨d, hd, rfl⟩ | ⟨-, rfl⟩)
    · rw [hnil] at hd
      exact absurd hd List.not_mem_nil
    · exact hroot

/-! ## New districts -/

/-- A new district, with a city and a parent that are there. -/
theorem withDistrict_draws {d : District} (hl : l.WellFormed)
    (hnew : l.districts.find? d.id = none) (hcity : l.Has .city d.parentCityId)
    (hqualified : l.QualifiedIn d.entity) (hdistricts : d.districtIds = [])
    (hbuildings : d.buildingIds = []) :
    Draws l (l.withDistrict d) (fun κ k => κ = .district ∧ k = d.id) fun _ _ _ => False := by
  have hparent : ∀ p, d.parentDistrictId = some p → l.Has .district p := by
    intro p hp
    obtain ⟨q, _, hq, _⟩ := hqualified.below p hp
    exact has_iff.2 ⟨q, hq⟩
  have hfind : ∀ p, l.Has .district p → (l.districts.find? p).isSome := by
    intro p hp
    exact Option.isSome_map.symm.trans hp
  have hfits : l.Fits .district d.id d.entity d.entity.parent := {
    id := rfl
    owner := by
      intro link k hk
      cases link with
      | rootDistrict =>
        have hk : (if d.parentDistrictId = none then some d.parentCityId else none) = some k := hk
        split at hk
        · exact ⟨rfl, Option.some.inj hk ▸ hcity⟩
        · exact absurd hk.symm (Option.some_ne_none k)
      | district => exact ⟨rfl, Option.some.inj hk ▸ hcity⟩
      | subdistrict => exact ⟨rfl, hparent k hk⟩
      | cityBuilding | districtBuilding | buildingClass | buildingFunction | classFunction =>
        exact absurd hk.symm (Option.some_ne_none k)
    parent := fun _ _ _ => rfl
    function := nofun
    fresh := fun _ hhas => by
      have hsome := hfind d.id hhas
      rw [hnew] at hsome
      exact absurd hsome Bool.false_ne_true
    qualified := fun _ => hqualified }
  have hadds := adds_withDistrict hnew (Option.isSome_map.symm.trans hcity)
    (fun p hp => hfind p (hparent p hp)) hdistricts hbuildings
  exact (hadds.draws hl hfits).congr (fun _ _ => .rfl) fun _ _ _ => False.elim

/-- A directory is drawn below another one. -/
theorem drawDistrict_draws (hl : l.WellFormed) (hcity : l.Has .city cityId)
    (hparent : l.Above parent) (d : Directory) :
    Draws l (drawDistrict cityId (l, parent) d).1 (fun κ k => κ = .district ∧ k = d.id.text)
        (fun _ _ _ => False)
      ∧ (drawDistrict cityId (l, parent) d).1.Above (drawDistrict cityId (l, parent) d).2 := by
  cases hfind : l.districts.find? d.id.text with
  | some old =>
    have hentity : l.entity? .district d.id.text = some old.entity :=
      congrArg (Option.map District.entity) hfind
    have hid : old.id = d.id.text := hl.keyed .district d.id.text old.entity hentity
    rw [drawDistrict_of_some parent hfind]
    refine ⟨(Draws.refl hl).congr (fun κ k => ?_) fun _ _ _ => id, ?_⟩
    · rw [or_false]
      refine (or_iff_left_of_imp ?_).symm
      rintro ⟨rfl, rfl⟩
      exact has_iff.2 ⟨old.entity, hentity⟩
    · intro p fqn hp
      obtain ⟨rfl, rfl⟩ := Prod.ext_iff.1 (Option.some.inj hp)
      exact ⟨old.entity, hid ▸ hentity, rfl⟩
  | none =>
    have hdraws := withDistrict_draws (d := newDistrict cityId parent d) hl hfind hcity
      (qualifiedIn_newDistrict hparent d) rfl rfl
    rw [drawDistrict_of_none parent hfind]
    refine ⟨hdraws, ?_⟩
    intro p fqn hp
    obtain ⟨rfl, rfl⟩ := Prod.ext_iff.1 (Option.some.inj hp)
    exact ⟨(newDistrict cityId parent d).entity, SortedMap.map_find?_put_self, rfl⟩

/-- Directories are drawn each below the one before. -/
theorem foldl_drawDistrict (ds : List Directory) (hl : l.WellFormed) (hcity : l.Has .city cityId)
    (hparent : l.Above parent) :
    Draws l (ds.foldl (drawDistrict cityId) (l, parent)).1
      (fun κ k => κ = .district ∧ ∃ d ∈ ds, k = d.id.text) fun _ _ _ => False := by
  induction ds generalizing l parent with
  | nil =>
    refine (Draws.refl hl).congr (fun κ k => or_congr_right ?_) fun _ _ _ => id
    exact ⟨False.elim, fun ⟨_, _, hd, _⟩ => absurd hd List.not_mem_nil⟩
  | cons d ds ih =>
    obtain ⟨hdraws, habove⟩ := drawDistrict_draws hl hcity hparent d
    have hrest := ih hdraws.wellFormed (hdraws.hasKept hcity) habove
    refine (hdraws.trans hrest).congr (fun κ k => or_congr_right ?_) fun _ _ _ => .inl
    simp only [List.mem_cons, exists_eq_or_imp, and_or_left]

/-- The root district of a city is drawn, unless it is there. -/
theorem drawRootDistrict_draws (hl : l.WellFormed) (hcity : l.Has .city cityId) :
    Draws l (l.drawRootDistrict cityId).1 (fun κ k => κ = .district ∧ k = cityId ++ "-root")
      fun _ _ _ => False := by
  by_cases hroot : l.Has .district (cityId ++ "-root")
  · rw [drawRootDistrict_of_has hroot]
    refine (Draws.refl hl).congr (fun κ k => ?_) fun _ _ _ => id
    rw [or_false]
    refine (or_iff_left_of_imp ?_).symm
    rintro ⟨rfl, rfl⟩
    exact hroot
  · have hnew := find?_eq_none_of_not_has hroot
    rw [drawRootDistrict_of_none hnew]
    exact withDistrict_draws hl hnew hcity qualifiedIn_rootDistrict rfl rfl

theorem drawAbove_draws (hl : l.WellFormed) (hcity : l.Has .city cityId) (h : HydratedCommit)
    (f : FileRevision) :
    Draws l (drawAbove cityId h l f).1 (fun κ k => κ = .district ∧ h.IsAbove cityId f k)
      fun _ _ _ => False := by
  simp only [HydratedCommit.isAbove_iff]
  unfold drawAbove
  cases hf : h.parentOf f with
  | some d =>
    have hnone : l.Above none := nofun
    refine (foldl_drawDistrict (h.ancestors f).reverse hl hcity hnone).congr (fun κ k => ?_)
      fun _ _ _ => id
    simp only [List.mem_reverse, reduceCtorEq, false_and, or_false]
  | none =>
    have hnil : h.ancestors f = [] := List.head?_eq_none_iff.1 ((h.head?_ancestors f).trans hf)
    refine (drawRootDistrict_draws hl hcity).congr (fun κ k => ?_) fun _ _ _ => id
    simp only [hnil, List.not_mem_nil, false_and, exists_false, true_and, false_or]

/-! ## Files -/

/-- A file as it is drawn in a district. -/
def building (cityId districtId : String) (f : FileRevision) : Building :=
  { id := f.buildingId, name := f.name, fqn := f.qualifiedName, parentCityId := cityId
    parentDistrictId := districtId, language := f.language, metrics := f.metrics }

theorem drawFile_eq (h : HydratedCommit) (l : Landscape) (f : FileRevision) :
    drawFile cityId h l f = (drawAbove cityId h l f).1.withBuilding
      (building cityId (drawAbove cityId h l f).2 f) := by
  unfold drawFile drawAbove
  cases h.parentOf f <;> rfl

theorem isAbove_districtOf (h : HydratedCommit) (f : FileRevision) :
    h.IsAbove cityId f (h.districtOf cityId f) := by
  rw [HydratedCommit.isAbove_iff]
  unfold HydratedCommit.districtOf
  cases hf : h.parentOf f with
  | some d => exact .inl ⟨d, List.mem_of_head? ((h.head?_ancestors f).trans hf), rfl⟩
  | none => exact .inr ⟨rfl, rfl⟩

/-- A file is drawn in its district, after the districts above it. -/
theorem drawFile_draws (h : HydratedCommit) (hl : l.WellFormed) (hcity : l.Has .city cityId)
    (f : FileRevision) :
    Draws l (drawFile cityId h l f)
      (fun κ k => κ = .district ∧ h.IsAbove cityId f k ∨ κ = .building ∧ k = f.buildingId)
      fun link k x => x = f.buildingId ∧
        (link = .cityBuilding ∧ k = cityId
          ∨ link = .districtBuilding ∧ k = h.districtOf cityId f) := by
  have hdraws := drawAbove_draws hl hcity h f
  rw [drawFile_eq, (drawAbove_extends hl.toKeyed hcity h f).2.2]
  generalize (drawAbove cityId h l f).1 = l' at hdraws
  let b := building cityId (h.districtOf cityId f) f
  have hcity' : l'.Has .city cityId := hdraws.hasKept hcity
  have hdistrict' : l'.Has .district (h.districtOf cityId f) :=
    hdraws.hasNew ⟨rfl, isAbove_districtOf h f⟩
  have howner : ∀ link k, b.entity.parent link = some k →
      link.child = .building ∧ l'.Has link.owner k := by
    intro link k hk
    cases link with
    | cityBuilding => exact ⟨rfl, Option.some.inj hk ▸ hcity'⟩
    | districtBuilding => exact ⟨rfl, Option.some.inj hk ▸ hdistrict'⟩
    | rootDistrict | district | subdistrict | buildingClass | buildingFunction | classFunction =>
      exact absurd hk.symm (Option.some_ne_none k)
  have hfits := fits_of_owners (by decide) (by decide) howner
  have hadds : Adds l' (l'.withBuilding b) .building b.id b.entity b.entity.parent :=
    adds_withBuilding (Option.isSome_map.symm.trans hcity')
      (Option.isSome_map.symm.trans hdistrict') rfl rfl
  refine (hdraws.trans (hadds.draws hdraws.wellFormed hfits)).congr (fun _ _ => .rfl) ?_
  rintro link k x ⟨rfl, ⟨rfl, rfl⟩ | ⟨rfl, rfl⟩⟩
  · exact .inr ⟨rfl, rfl⟩
  · exact .inr ⟨rfl, rfl⟩

/-! ## Classes and functions -/

/-- A class is drawn in a building. -/
theorem drawClass_draws {b : String} (hl : l.WellFormed) (hb : l.Has .building b) (c : ClassNode) :
    Draws l (drawClass b l c) (fun κ k => κ = .classView ∧ k = stableId c.name)
      fun link k x => link = .buildingClass ∧ k = b ∧ x = stableId c.name := by
  have howner : ∀ link k, (classView b c).entity.parent link = some k →
      link.child = .classView ∧ l.Has link.owner k := by
    intro link k hk
    cases link with
    | buildingClass => exact ⟨rfl, Option.some.inj hk ▸ hb⟩
    | rootDistrict | district | cityBuilding | subdistrict | districtBuilding | buildingFunction
        | classFunction => exact absurd hk.symm (Option.some_ne_none k)
  have hfits := fits_of_owners (by decide) (by decide) howner
  have hadds := adds_drawClass (Option.isSome_map.symm.trans hb) c
  refine (hadds.draws hl hfits).congr (fun _ _ => .rfl) ?_
  rintro link k x ⟨rfl, rfl, rfl⟩
  exact ⟨rfl, rfl⟩

/-- A function fits below an owner that it names. -/
theorem fits_function {link : Link} {owner : String} {v : FunctionView}
    (hlink : link = .buildingFunction ∨ link = .classFunction) (howner : l.Has link.owner owner)
    (hparent : v.parentId = owner) :
    l.Fits .functionView v.id v.entity fun place => if place = link then some owner else none where
  id := rfl
  owner place k hk := by
    split at hk
    · rename_i hplace
      rw [hplace, ← Option.some.inj hk]
      exact ⟨by rcases hlink with rfl | rfl <;> rfl, howner⟩
    · exact absurd hk.symm (Option.some_ne_none k)
  parent _ _ hne := absurd rfl hne
  function _ := by
    refine ⟨link, owner, if_pos rfl, ?_⟩
    rcases hlink with rfl | rfl <;> exact congrArg some hparent
  fresh := nofun
  qualified := nofun

/-- A free function is drawn in a building. -/
theorem drawFreeFunction_draws {b : String} (fqn : String) (hl : l.WellFormed)
    (hb : l.Has .building b) (g : FunctionNode) :
    Draws l (drawFreeFunction b fqn l g) (fun κ k => κ = .functionView ∧ k = functionId fqn g.name)
      fun link k x => link = .buildingFunction ∧ k = b ∧ x = functionId fqn g.name := by
  have hadds := adds_drawFreeFunction fqn (Option.isSome_map.symm.trans hb) g
  have hfits := fits_function (v := functionView b fqn g) (.inl rfl) hb rfl
  refine (hadds.draws hl hfits).congr (fun _ _ => .rfl) ?_
  rintro link k x ⟨rfl, rfl, rfl⟩
  exact ⟨if_pos rfl, rfl⟩

/-- A function is drawn in its class. -/
theorem drawMethod_draws {fqn : String} (hl : l.WellFormed)
    (hc : l.Has .classView (stableId fqn)) (g : FunctionNode) :
    Draws l (drawMethod fqn l g) (fun κ k => κ = .functionView ∧ k = functionId fqn g.name)
      fun link k x => link = .classFunction ∧ k = stableId fqn ∧ x = functionId fqn g.name := by
  have hadds := adds_drawMethod (Option.isSome_map.symm.trans hc) g
  have hfits := fits_function (v := functionView (stableId fqn) fqn g) (.inr rfl) hc rfl
  refine (hadds.draws hl hfits).congr (fun _ _ => .rfl) ?_
  rintro link k x ⟨rfl, rfl, rfl⟩
  exact ⟨if_pos rfl, rfl⟩

/-- The classes and the free functions of a file. -/
theorem drawContents_draws {f : HydratedFile} (hl : l.WellFormed)
    (hb : l.Has .building f.file.buildingId) :
    Draws l (l.drawContents f)
      (fun κ k => κ = .classView ∧ (∃ c ∈ f.classes, k = stableId c.node.name)
        ∨ κ = .functionView ∧ ∃ g ∈ f.functions, k = functionId f.file.qualifiedName g.name)
      fun link k x => k = f.file.buildingId ∧
        (link = .buildingClass ∧ (∃ c ∈ f.classes, x = stableId c.node.name)
          ∨ link = .buildingFunction
            ∧ ∃ g ∈ f.functions, x = functionId f.file.qualifiedName g.name) := by
  let needed : EntityKind → String → Prop := fun κ k => κ = .building ∧ k = f.file.buildingId
  have hneeds : ∀ l : Landscape, l.Has .building f.file.buildingId →
      ∀ κ k, needed κ k → l.Has κ k := by
    rintro l hb κ k ⟨rfl, rfl⟩
    exact hb
  have hclasses := Draws.foldl (f.classes.map HydratedClass.node) needed
    (fun l c _ hl hn => drawClass_draws hl (hn _ _ ⟨rfl, rfl⟩) c) hl (hneeds l hb)
  have hfunctions := Draws.foldl f.functions needed
    (fun l g _ hl hn => drawFreeFunction_draws f.file.qualifiedName hl (hn _ _ ⟨rfl, rfl⟩) g)
    hclasses.wellFormed (hneeds _ (hclasses.hasKept hb))
  refine (hclasses.trans hfunctions).congr (fun κ k => or_congr_right ?_) ?_
  · simp only [List.mem_map, exists_exists_and_eq_and, and_left_comm, exists_and_left]
  · rintro link k x ⟨rfl, ⟨rfl, c, hc, rfl⟩ | ⟨rfl, g, hg, rfl⟩⟩
    · exact .inl ⟨c.node, List.mem_map_of_mem hc, rfl, rfl, rfl⟩
    · exact .inr ⟨g, hg, rfl, rfl, rfl⟩

/-- The functions of a class. -/
theorem drawMethods_draws {c : HydratedClass} (hl : l.WellFormed)
    (hc : l.Has .classView (stableId c.node.name)) :
    Draws l (l.drawMethods c)
      (fun κ k => ∃ g ∈ c.functions, κ = .functionView ∧ k = functionId c.node.name g.name)
      fun link k x => ∃ g ∈ c.functions,
        link = .classFunction ∧ k = stableId c.node.name ∧ x = functionId c.node.name g.name :=
  Draws.foldl c.functions (fun κ k => κ = .classView ∧ k = stableId c.node.name)
    (fun _ g _ hl hn => drawMethod_draws hl (hn _ _ ⟨rfl, rfl⟩) g) hl
    (by rintro κ k ⟨rfl, rfl⟩; exact hc)

/-! ## Commits -/

theorem drawCity_draws (hl : l.WellFormed) (name : String) :
    Draws l (l.drawCity name) (fun κ k => κ = .city ∧ k = stableId name) fun _ _ _ => False := by
  let e : Entity := { id := stableId name, name }
  have hfits : l.Fits .city e.id e e.parent :=
    fits_of_owners (by decide) (by decide) fun _ k hk => absurd hk.symm (Option.some_ne_none k)
  exact ((adds_drawCity l name).draws hl hfits).congr (fun _ _ => .rfl) fun _ _ _ => False.elim

/-- The files of a commit are drawn into a city that is there. -/
theorem drawFiles_draws (hl : l.WellFormed) {city : String} (hcity : l.Has .city (stableId city))
    (h : HydratedCommit) :
    Draws l
      ((h.files.flatMap HydratedFile.classes).foldl drawMethods <| h.files.foldl drawContents <|
        (h.files.map HydratedFile.file).foldl (drawFile (stableId city) h) l)
      (fun κ k => κ ≠ .city ∧ h.Shows city κ k) (h.Places city) := by
  -- files need their city, contents their building and the functions of a class need the class
  have hfiles := Draws.foldl (h.files.map HydratedFile.file)
    (fun κ k => κ = .city ∧ k = stableId city)
    (fun l f _ hl hn => drawFile_draws h hl (hn _ _ ⟨rfl, rfl⟩) f) hl
    (by rintro κ k ⟨rfl, rfl⟩; exact hcity)
  have hcontents := Draws.foldl h.files
    (fun κ k => κ = .building ∧ ∃ f ∈ h.files, k = f.file.buildingId)
    (fun l f hf hl hn => drawContents_draws (f := f) hl (hn _ _ ⟨rfl, f, hf, rfl⟩))
    hfiles.wellFormed
    (by
      rintro κ k ⟨rfl, f, hf, rfl⟩
      exact hfiles.hasNew ⟨f.file, List.mem_map_of_mem hf, .inr ⟨rfl, rfl⟩⟩)
  have hmethods := Draws.foldl (h.files.flatMap HydratedFile.classes)
    (fun κ k => κ = .classView
      ∧ ∃ c ∈ h.files.flatMap HydratedFile.classes, k = stableId c.node.name)
    (fun l c hc hl hn => drawMethods_draws (c := c) hl (hn _ _ ⟨rfl, c, hc, rfl⟩))
    hcontents.wellFormed
    (by
      rintro κ k ⟨rfl, c, hc, rfl⟩
      obtain ⟨f, hf, hc⟩ := List.mem_flatMap.1 hc
      exact hcontents.hasNew ⟨f, hf, .inl ⟨rfl, c, hc, rfl⟩⟩)
  refine ((hfiles.trans hcontents).trans hmethods).congr
    (fun κ k => or_congr_right ?_) fun link k x => ?_
  · cases κ with
    | city | district | building | classView =>
      simp [HydratedCommit.Shows, FileRevision.hasKey_iff]
    | functionView =>
      simp only [reduceCtorEq, false_and, List.mem_map, or_self, and_false, exists_false,
        true_and, false_or, List.mem_flatMap, HydratedCommit.Shows, FileRevision.hasFqn_iff,
        exists_eq_left, ne_eq, not_false_eq_true]
      constructor
      case mp =>
        rintro (⟨f, hf, hg⟩ | ⟨c, ⟨f, hf, hc⟩, hg⟩)
        · exact ⟨f, hf, .inl hg⟩
        · exact ⟨f, hf, .inr ⟨c, hc, hg⟩⟩
      case mpr =>
        rintro ⟨f, hf, hg | ⟨c, hc, hg⟩⟩
        · exact .inl ⟨f, hf, hg⟩
        · exact .inr ⟨c, ⟨f, hf, hc⟩, hg⟩
  · intro hplaced
    cases link with
    | rootDistrict | district | subdistrict => exact hplaced.elim
    | cityBuilding =>
      obtain ⟨f, hf, rfl, hkey⟩ := hplaced
      obtain rfl := FileRevision.hasKey_iff.1 hkey
      exact .inl (.inl ⟨f.file, List.mem_map_of_mem hf, rfl, .inl ⟨rfl, rfl⟩⟩)
    | districtBuilding =>
      obtain ⟨f, hf, hdistrict, hkey⟩ := hplaced
      obtain rfl := HydratedCommit.isIn_iff.1 hdistrict
      obtain rfl := FileRevision.hasKey_iff.1 hkey
      exact .inl (.inl ⟨f.file, List.mem_map_of_mem hf, rfl, .inr ⟨rfl, rfl⟩⟩)
    | buildingClass =>
      obtain ⟨f, hf, hkey, hx⟩ := hplaced
      obtain rfl := FileRevision.hasKey_iff.1 hkey
      exact .inl (.inr ⟨f, hf, rfl, .inl ⟨rfl, hx⟩⟩)
    | buildingFunction =>
      obtain ⟨f, hf, hkey, fqn, hfqn, hx⟩ := hplaced
      obtain rfl := FileRevision.hasKey_iff.1 hkey
      obtain rfl := FileRevision.hasFqn_iff.1 hfqn
      exact .inl (.inr ⟨f, hf, rfl, .inr ⟨rfl, hx⟩⟩)
    | classFunction =>
      obtain ⟨f, hf, c, hc, rfl, g, hg, rfl⟩ := hplaced
      exact .inr ⟨c, List.mem_flatMap.2 ⟨f, hf, hc⟩, g, hg, rfl, rfl, rfl⟩

/-- A commit is drawn. -/
theorem drawCommit_draws (hl : l.WellFormed) (city : String) (h : HydratedCommit) :
    Draws l (l.drawCommit city h) (h.Shows city) (h.Places city) := by
  have hcity := drawCity_draws hl city
  have hfiles := drawFiles_draws hcity.wellFormed (hcity.hasNew ⟨rfl, rfl⟩) h
  refine (hcity.trans hfiles).congr (fun κ k => or_congr_right ?_) fun link k x => .inr
  cases κ with
  | city => simp [HydratedCommit.Shows]
  | district | building | classView | functionView => simp

/-- The only city that a commit can bring is the one that it is drawn into. -/
theorem city_drawCommit (hl : l.WellFormed) {city k : String} {h : HydratedCommit} {e : Entity}
    (he : (l.drawCommit city h).entity? .city k = some e) :
    l.entity? .city k = some e ∨ k = stableId city ∧ e = { id := stableId city, name := city } := by
  have hcity := drawCity_draws hl city
  have hfiles := drawFiles_draws hcity.wellFormed (hcity.hasNew ⟨rfl, rfl⟩) h
  have hhas : (l.drawCity city).Has .city k :=
    ((hfiles.has .city k).1 (has_iff.2 ⟨e, he⟩)).resolve_right fun hnew => hnew.1 rfl
  obtain ⟨e', he'⟩ := has_iff.1 hhas
  have hkept := hfiles.kept .city k e' he'
  obtain rfl : e' = e := Option.some.inj (hkept.symm.trans he)
  exact ((adds_drawCity l city).entity_cases he').imp_right fun hnew => hnew.2

/-- Commits are drawn one after the other, each into the city named with it. -/
def ofCommits (token : String) (commits : List (String × HydratedCommit)) : Landscape :=
  commits.foldl (fun l m => l.drawCommit m.1 m.2) (ofToken token)

theorem wellFormed_ofToken (token : String) : (ofToken token).WellFormed where
  keyed kind _ _ he := by cases kind <;> cases he
  nodup link _ := by cases link <;> exact .nil
  listed link _ _ hx := by cases link <;> cases hx
  parents link _ _ _ _ he := by cases link <;> cases he
  functions _ _ he := by cases he
  districts _ _ _ _ _ he := by cases he
  qualified _ _ he := by cases he

theorem ofCommits_draws (token : String) (commits : List (String × HydratedCommit)) :
    Draws (ofToken token) (ofCommits token commits)
      (fun κ k => ∃ m ∈ commits, m.2.Shows m.1 κ k)
      fun link k x => ∃ m ∈ commits, m.2.Places m.1 link k x :=
  Draws.foldl commits (fun _ _ => False) (fun _ m _ hl _ => drawCommit_draws hl m.1 m.2)
    (wellFormed_ofToken token) fun _ _ => False.elim

/-- The landscape of any commits is well-formed, and no district in it is above itself. -/
theorem wellFormed_ofCommits (token : String) (commits : List (String × HydratedCommit)) :
    (ofCommits token commits).WellFormed
      ∧ ∀ x, ¬Relation.TransGen (ofCommits token commits).ParentDistrict x x := by
  have hl := (ofCommits_draws token commits).wellFormed
  exact ⟨hl, hl.acyclic⟩

theorem has_ofCommits (token : String) (commits : List (String × HydratedCommit))
    (kind : EntityKind) (k : String) :
    (ofCommits token commits).Has kind k ↔ ∃ m ∈ commits, m.2.Shows m.1 kind k := by
  have hempty : ¬(ofToken token).Has kind k := by
    cases kind <;> exact Bool.false_ne_true
  rw [(ofCommits_draws token commits).has, or_iff_right hempty]

/-- Every city is that of a commit, and has its name. -/
theorem city_ofCommits (token : String) (commits : List (String × HydratedCommit)) {k : String}
    {e : Entity} (he : (ofCommits token commits).entity? .city k = some e) :
    ∃ m ∈ commits, k = stableId m.1 ∧ e = { id := stableId m.1, name := m.1 } := by
  induction commits using List.reverseRecOn with
  | nil => cases he
  | append_singleton commits m ih =>
    have hlast : ofCommits token (commits ++ [m]) = (ofCommits token commits).drawCommit m.1 m.2 :=
      List.foldl_append
    rw [hlast] at he
    rcases city_drawCommit (wellFormed_ofCommits token commits).1 he with hold | ⟨hk, hnew⟩
    · obtain ⟨m', hm', hcity⟩ := ih hold
      exact ⟨m', List.mem_append_left _ hm', hcity⟩
    · exact ⟨m, List.mem_append_right _ List.mem_cons_self, hk, hnew⟩

/-- The landscape of some commits has the entities that its commits show and no others, all in
the lists that the commits place them in. So it has what the landscapes of its members have. -/
theorem shows_ofCommits (token : String) (commits : List (String × HydratedCommit)) :
    (∀ kind k, (ofCommits token commits).Has kind k ↔ ∃ m ∈ commits, m.2.Shows m.1 kind k)
      ∧ (∀ m ∈ commits, ∀ link k x, m.2.Places m.1 link k x →
        x ∈ (ofCommits token commits).list link k)
      ∧ ∀ kind k, (ofCommits token commits).Has kind k
        ↔ ∃ m ∈ commits, (ofCommits token [m]).Has kind k := by
  refine ⟨has_ofCommits token commits, ?_, ?_⟩
  · intro m hm link k x hplaced
    exact (ofCommits_draws token commits).listed link k x ⟨m, hm, hplaced⟩
  · intro kind k
    rw [has_ofCommits]
    simp only [has_ofCommits, List.mem_singleton, exists_eq_left]

/-- A file with a hash, in a package and two directories, with a class that has a function, and with
a free function. -/
def sampleFile : HydratedFile where
  file := { id := 10, hash := some "h", name := "a.rs", packageName := some "p", parent := some 2 }
  classes := [⟨{ id := 30, name := "p.A" }, [{ id := 40, name := "run" }]⟩]
  functions := [{ id := 41, name := "main" }]

/-- A file without hash, package and directory, with a free function. -/
def sampleLooseFile : HydratedFile where
  file := { id := 11, name := "b.rs" }
  classes := []
  functions := [{ id := 42, name := "free" }]

/-- A commit of both files. -/
def sampleCommit : HydratedCommit where
  commit := { id := 20, token := "t", hash := "c" }
  files := [sampleFile, sampleLooseFile]
  directories := Sorted.ofList
    [{ id := 1, name := "src" }, { id := 2, name := "p", parent := some 1 }]

/-- The commit is drawn as exactly these entities, and what is in its files is listed. -/
theorem shows_ofCommits_sample :
    let l := ofCommits "t" [("shop", sampleCommit)]
    (∀ k, l.Has .district k ↔ k = "2" ∨ k = "1" ∨ k = stableId "shop" ++ "-root") ∧
      (∀ k, l.Has .building k ↔ k = "h" ∨ k = "file-11") ∧
      (∀ k, l.Has .classView k ↔ k = stableId "p.A") ∧
      (∀ k, l.Has .functionView k ↔
        k = stableId "p.a.rs::main" ∨ k = stableId "p.A::run" ∨ k = stableId "b.rs::free") ∧
      "h" ∈ l.list .districtBuilding "2" ∧
      "file-11" ∈ l.list .districtBuilding (stableId "shop" ++ "-root") ∧
      stableId "p.A" ∈ l.list .buildingClass "h" ∧
      stableId "p.a.rs::main" ∈ l.list .buildingFunction "h" ∧
      stableId "p.A::run" ∈ l.list .classFunction (stableId "p.A") := by
  obtain ⟨hhas, hlisted, -⟩ := shows_ofCommits "t" [("shop", sampleCommit)]
  simp only [List.mem_singleton, exists_eq_left, forall_eq] at hhas hlisted
  have hfiles : ∀ f, f ∈ sampleCommit.files ↔ f = sampleFile ∨ f = sampleLooseFile := by
    intro f
    exact List.mem_cons.trans (or_congr_right List.mem_singleton)
  have hfirst : sampleFile ∈ sampleCommit.files := (hfiles _).2 (.inl rfl)
  have hsecond : sampleLooseFile ∈ sampleCommit.files := (hfiles _).2 (.inr rfl)
  have hkey : sampleFile.file.HasKey "h" := .inl rfl
  have hnumber : sampleLooseFile.file.HasKey "file-11" := .inr ⟨rfl, by decide⟩
  have hfqn : sampleFile.file.HasFqn "p.a.rs" := .inr ⟨"p", rfl, by decide, rfl⟩
  have habove : sampleCommit.ancestors sampleFile.file
      = [{ id := 2, name := "p", parent := some 1 }, { id := 1, name := "src" }] := by
    decide +kernel
  have hloose : sampleCommit.ancestors sampleLooseFile.file = [] := by decide +kernel
  have hdirectory := HydratedCommit.parentOf_eq_some_iff.1
    ((sampleCommit.head?_ancestors sampleFile.file).symm.trans (congrArg List.head? habove))
  refine ⟨fun k => ?_, fun k => ?_, fun k => ?_, fun k => ?_, ?_, ?_, ?_, ?_, ?_⟩
  · rw [hhas, HydratedCommit.Shows]
    simp only [hfiles, exists_eq_or_imp, exists_eq_left, HydratedCommit.isAbove_iff,
      ← HydratedCommit.head?_ancestors, habove, hloose]
    simp [or_assoc, show NodeId.text 2 = "2" by decide, show NodeId.text 1 = "1" by decide]
  · rw [hhas, HydratedCommit.Shows]
    simp only [hfiles, exists_eq_or_imp, exists_eq_left, FileRevision.hasKey_iff,
      ← FileRevision.hasKey_iff.1 hkey, ← FileRevision.hasKey_iff.1 hnumber]
  · rw [hhas, HydratedCommit.Shows]
    simp [hfiles, sampleFile, sampleLooseFile]
  · rw [hhas, HydratedCommit.Shows]
    simp [hfiles, sampleFile, sampleLooseFile, FileRevision.HasFqn, or_assoc]
  · exact hlisted _ _ _ ⟨_, hfirst, .inl ⟨_, hdirectory.1, hdirectory.2, by decide⟩, hkey⟩
  · exact hlisted _ _ _ ⟨_, hsecond, .inr ⟨(fun _ _ h => nomatch h), rfl⟩, hnumber⟩
  · exact hlisted _ _ _ ⟨_, hfirst, hkey, _, List.mem_cons_self, rfl⟩
  · exact hlisted _ _ _ ⟨_, hfirst, hkey, _, hfqn, _, List.mem_cons_self, rfl⟩
  · exact hlisted _ _ _ ⟨_, hfirst, _, List.mem_cons_self, rfl, _, List.mem_cons_self, rfl⟩

end Landscape

/-- The landscape that a query answers with is that of its commits, each in the city of its
repository. -/
theorem Store.project_eq_ofCommits (s : Store) (token : String) (commits : List HydratedCommit) :
    s.project token commits
      = Landscape.ofCommits token (commits.map fun h => (s.cityName h.commit.id, h)) := by
  unfold Store.project Landscape.ofCommits
  rw [List.foldl_map]

end Cityscape
