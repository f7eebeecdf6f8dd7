import Cityscape.Proofs.Isolation
import Cityscape.Proofs.Overlays

/-!
# `Owners`: who lists what in the landscape of a commit

In the landscape of a commit every building, class and function is listed exactly where the
commit has a file, a class or a function with its id, and the parent that it names is one of
those places (`Store.owned_of_calls`). Ids do not tell files of the same content apart, nor
classes and functions of the same qualified name. So an entity is listed by its parent alone if
and only if the commit has all that goes by its id in one place; two files with the same content
in different directories share a building, which both directories list
(`Store.shared_building`).
-/

namespace Cityscape

/-- The lists in which an entity of a kind is found below its parent. -/
def EntityKind.ownerLinks : EntityKind → List Link
  | .building => [.districtBuilding]
  | .classView => [.buildingClass]
  | .functionView => [.buildingFunction, .classFunction]
  | .city | .district => []

namespace Landscape

variable {l : Landscape} {kind : EntityKind} {link : Link} {k x : String} {e : Entity}

/-- Those that list an entity are those that it names as its parent. -/
def Agrees (l : Landscape) (kind : EntityKind) (x : String) : Prop :=
  ∀ e, l.entity? kind x = some e → ∀ link ∈ kind.ownerLinks, ∀ k, l.Has link.owner k →
    (x ∈ l.list link k ↔ e.parent link = some k)

end Landscape

/-- The commit has all that goes by the id `x` in one place. -/
def HydratedCommit.OneOwner (h : HydratedCommit) (city : String) (kind : EntityKind)
    (x : String) : Prop :=
  ∀ link ∈ kind.ownerLinks, ∀ k, h.Places city link k x → ∀ link' ∈ kind.ownerLinks, ∀ k',
    h.Shows city link'.owner k' → (h.Places city link' k' x ↔ k' = k)

/-- How the entities of a kind stand below their owners in the landscape of a commit. -/
structure Landscape.Owned (l : Landscape) (h : HydratedCommit) (city : String)
    (kind : EntityKind) : Prop where
  shown : ∀ x, l.Has kind x ↔ h.Shows city kind x
  listed : ∀ link ∈ kind.ownerLinks, ∀ k x, x ∈ l.list link k ↔ h.Places city link k x
  /-- The parent that an entity names is there and lists it. -/
  parent : ∀ x e, l.entity? kind x = some e → ∃ link ∈ kind.ownerLinks, ∃ k,
    e.parent link = some k ∧ l.Has link.owner k ∧ x ∈ l.list link k
  agrees : ∀ x, l.Has kind x → (l.Agrees kind x ↔ h.OneOwner city kind x)

namespace Landscape

variable {l : Landscape} {kind : EntityKind} {link link' : Link} {k x : String} {e : Entity}

/-- Only an entity that is there lists anything. -/
theorem has_owner_of_mem (hx : x ∈ l.list link k) : l.Has link.owner k := by
  have hsome : ∀ {α : Type} {m : SortedMap String α} {f : α → List String} {g : α → Entity},
      x ∈ m.listAt f k → ((m.find? k).map g).isSome := by
    intro α m f g hx
    unfold SortedMap.listAt at hx
    cases hfind : m.find? k with
    | none =>
      rw [hfind] at hx
      exact absurd hx List.not_mem_nil
    | some a => rfl
  cases link <;> exact hsome hx

/-- A building and a class name one parent, and a function names the same one in both lists. -/
theorem parent_of_entity (he : l.entity? kind x = some e) :
    ∀ link ∈ kind.ownerLinks, ∃ k, ∀ link' ∈ kind.ownerLinks, e.parent link' = some k := by
  intro link hlink
  cases kind with
  | city | district => exact absurd hlink List.not_mem_nil
  | building =>
    obtain ⟨b, -, rfl⟩ := Option.map_eq_some_iff.1 he
    exact ⟨b.parentDistrictId, by simp [EntityKind.ownerLinks, Building.entity]⟩
  | classView =>
    obtain ⟨c, -, rfl⟩ := Option.map_eq_some_iff.1 he
    exact ⟨c.parentBuildingId, by simp [EntityKind.ownerLinks, ClassView.entity]⟩
  | functionView =>
    obtain ⟨g, -, rfl⟩ := Option.map_eq_some_iff.1 he
    exact ⟨g.parentId, by simp [EntityKind.ownerLinks, FunctionView.entity]⟩

theorem child_of_mem_ownerLinks (h : link ∈ kind.ownerLinks) : link.child = kind := by
  revert h
  cases kind <;> cases link <;> decide

/-- In a well-formed landscape the parent that an entity names lists it. -/
theorem WellFormed.parent_lists (hl : l.WellFormed) (hkind : kind.ownerLinks ≠ [])
    (he : l.entity? kind x = some e) : ∃ link ∈ kind.ownerLinks, ∃ k,
      e.parent link = some k ∧ l.Has link.owner k ∧ x ∈ l.list link k := by
  by_cases hfunction : kind = .functionView
  · subst hfunction
    obtain ⟨link, k, hchild, hparent, hhas, hmem⟩ := hl.functions x e he
    refine ⟨link, ?_, k, hparent, hhas, hmem⟩
    cases link with
    | buildingFunction | classFunction => decide
    | rootDistrict | district | cityBuilding | subdistrict | districtBuilding | buildingClass =>
      cases hchild
  · obtain ⟨link, hlink⟩ := List.exists_mem_of_ne_nil _ hkind
    obtain ⟨k, hparent⟩ := parent_of_entity he link hlink
    have hchild := child_of_mem_ownerLinks hlink
    obtain ⟨hhas, hmem⟩ := hl.parents link k x e (hchild ▸ hfunction) (hchild ▸ he)
      (hparent link hlink)
    exact ⟨link, hlink, k, hparent link hlink, hhas, hmem⟩

/-- What is listed where its commit has it, and names one of the places, agrees with its lists
if and only if the commit has it in one place. -/
theorem agrees_iff_oneOwner {h : HydratedCommit} {city : String}
    (hshown : ∀ κ k, l.Has κ k ↔ h.Shows city κ k)
    (hlisted : ∀ link ∈ kind.ownerLinks, ∀ k, x ∈ l.list link k ↔ h.Places city link k x)
    (hl : l.WellFormed) (hkind : kind.ownerLinks ≠ []) (hx : l.Has kind x) :
    l.Agrees kind x ↔ h.OneOwner city kind x := by
  obtain ⟨e, he⟩ := has_iff.1 hx
  obtain ⟨link₀, hlink₀, k₀, hparent₀, -, hmem₀⟩ := hl.parent_lists hkind he
  have hparent : ∀ link ∈ kind.ownerLinks, e.parent link = some k₀ := by
    intro link hlink
    obtain ⟨k, hk⟩ := parent_of_entity he link₀ hlink₀
    rw [hk link hlink, ← hk link₀ hlink₀, hparent₀]
  constructor
  case mp =>
    intro hagrees link hlink k hplaced link' hlink' k' hshows
    have hmem := (hlisted link hlink k).2 hplaced
    have hk := (hagrees e he link hlink k (has_owner_of_mem hmem)).1 hmem
    rw [hparent link hlink] at hk
    rw [← hlisted link' hlink' k', hagrees e he link' hlink' k' ((hshown _ _).2 hshows),
      hparent link' hlink', hk, Option.some.injEq, eq_comm]
  case mpr =>
    intro hone e' he' link hlink k hhas
    obtain rfl := Option.some.inj (he.symm.trans he')
    have hplaced₀ := (hlisted link₀ hlink₀ k₀).1 hmem₀
    rw [hlisted link hlink k, hone link₀ hlink₀ k₀ hplaced₀ link hlink k ((hshown _ _).1 hhas),
      hparent link hlink, Option.some.injEq, eq_comm]

end Landscape

/-- A commit with the same content in two directories. -/
def Ingestion.sampleCopies : List Ingestion :=
  [.repository { landscapeToken := "t", repositoryName := "r", branchName := "main" },
    .commit
      { landscapeToken := "t", repositoryName := "r", branchName := "main", commitHash := "c"
        addedFiles := [⟨"h", "a/x.rs"⟩, ⟨"h", "b/x.rs"⟩] }]

namespace Store

/-- After any calls, in the landscape of any commit, every building, class and function is listed
where the commit has it, by its parent among others, and by its parent alone if the commit has
it in one place only. -/
theorem owned_of_calls (calls : List Ingestion) (hash token : String) (h : HydratedCommit)
    (hids : (∅ : Store).idsIssued calls < 2 ^ 64)
    (hok : ((∅ : Store).after calls).loadCommit hash token = .ok h) :
    ∀ kind, kind ∈ [EntityKind.building, .classView, .functionView] →
      (((∅ : Store).after calls).project token [h]).Owned h
        (((∅ : Store).after calls).cityName h.commit.id) kind := by
  obtain ⟨owner, hs⟩ := sound_after_empty calls hids
  generalize (∅ : Store).after calls = s at hs hok
  obtain ⟨c, -, -, rfl⟩ := AlikeUnder.commit_of_loadCommit hok
  generalize hcity : s.cityName (s.hydrate c).commit.id = city
  have hproject : s.project token [s.hydrate c]
      = Landscape.ofCommits token [(city, s.hydrate c)] := by
    rw [project_eq_ofCommits, List.map_singleton, hcity]
  rw [hproject]
  have hl := (Landscape.wellFormed_ofCommits token [(city, s.hydrate c)]).1
  have hshown : ∀ κ k, (Landscape.ofCommits token [(city, s.hydrate c)]).Has κ k ↔
      (s.hydrate c).Shows city κ k := by
    intro κ k
    rw [Landscape.has_ofCommits]
    simp only [List.mem_singleton, exists_eq_left]
  intro kind hkind
  have hlinks : kind.ownerLinks ≠ [] := by
    revert hkind
    cases kind <;> decide
  have hlisted : ∀ link ∈ kind.ownerLinks, ∀ k x,
      x ∈ (Landscape.ofCommits token [(city, s.hydrate c)]).list link k ↔
        (s.hydrate c).Places city link k x := by
    intro link hlink k x
    have hchild : link.child ≠ .district := by
      revert hlink hkind
      cases kind <;> cases link <;> decide
    have hone := hs.mem_list_ofCommits token (fun _ => city) [c] hchild k x
    simpa using hone
  exact {
    shown := hshown kind
    listed := hlisted
    parent := fun x e he => hl.parent_lists hlinks he
    agrees := fun x hx => Landscape.agrees_iff_oneOwner hshown (fun link hlink k =>
      hlisted link hlink k x) hl hlinks hx }

theorem owned_of_calls_sample :
    ∃ h, (∅ : Store).idsIssued Ingestion.sampleCopies < 2 ^ 64 ∧
      ((∅ : Store).after Ingestion.sampleCopies).loadCommit "c" "t" = .ok h ∧
      (((∅ : Store).after Ingestion.sampleCopies).project "t" [h]).Owned h
        (((∅ : Store).after Ingestion.sampleCopies).cityName h.commit.id) .building := by
  have hids : (∅ : Store).idsIssued Ingestion.sampleCopies < 2 ^ 64 := by decide +kernel
  have hok : (((∅ : Store).after Ingestion.sampleCopies).loadCommit "c" "t").isOk = true := by
    decide +kernel
  cases hload : ((∅ : Store).after Ingestion.sampleCopies).loadCommit "c" "t" with
  | error x =>
    rw [hload] at hok
    cases hok
  | ok h =>
    exact ⟨h, hids, rfl,
      owned_of_calls Ingestion.sampleCopies "c" "t" h hids hload .building List.mem_cons_self⟩

/-- The landscape of the commit with the same content in two directories. -/
def sampleCopiesView : Landscape :=
  match ((∅ : Store).after Ingestion.sampleCopies).loadCommit "c" "t" with
  | .ok h => ((∅ : Store).after Ingestion.sampleCopies).project "t" [h]
  | .error _ => .ofToken "t"

/-- Two directories list one building, which names the first of them as its parent. -/
theorem shared_building :
    (((∅ : Store).after Ingestion.sampleCopies).loadCommit "c" "t").isOk = true ∧
      sampleCopiesView.Has .district "7" ∧ "h" ∈ sampleCopiesView.list .districtBuilding "7" ∧
      ¬sampleCopiesView.Agrees .building "h" := by
  have hload : (((∅ : Store).after Ingestion.sampleCopies).loadCommit "c" "t").isOk = true := by
    decide +kernel
  have hdistrict : sampleCopiesView.Has .district "7" := by
    unfold Landscape.Has
    decide +kernel
  have hlisted : "h" ∈ sampleCopiesView.list .districtBuilding "7" := by decide +kernel
  have hparent : (sampleCopiesView.entity? .building "h").map
      (fun e => e.parent .districtBuilding) = some (some "5") := by decide +kernel
  refine ⟨hload, hdistrict, hlisted, fun hagrees => ?_⟩
  obtain ⟨e, he, hp⟩ := Option.map_eq_some_iff.1 hparent
  have hseven := (hagrees e he .districtBuilding List.mem_cons_self "7" hdistrict).1 hlisted
  rw [hp] at hseven
  exact absurd hseven (by decide)

end Store

end Cityscape
