import Cityscape.Landscape.Projection
import Cityscape.Proofs.Sorted

/-!
# `Entities`: a landscape as entities and lists

What the five maps of a landscape have in common is seen through two views: the entity under a
key, without its lists (`Landscape.entity?`), and the ids that it lists (`Landscape.list`).
Everything that is drawn is one entity, which is listed in a few places (`Landscape.Adds`): if
it is there already it stays as it is, and in each of the places it is listed once.
-/

namespace Cityscape

/-- The kinds of entities of a landscape. -/
inductive EntityKind where
  | city
  | district
  | building
  | classView
  | functionView
deriving DecidableEq

/-- The lists in which entities name the entities below them. -/
inductive Link where
  /-- The districts of a city that have no parent district. -/
  | rootDistrict
  /-- All districts of a city. -/
  | district
  | cityBuilding
  /-- The districts below a district. -/
  | subdistrict
  | districtBuilding
  | buildingClass
  | buildingFunction
  | classFunction
deriving DecidableEq

namespace Link

/-- The kind of the entities that have the list. -/
def owner : Link → EntityKind
  | rootDistrict | district | cityBuilding => .city
  | subdistrict | districtBuilding => .district
  | buildingClass | buildingFunction => .building
  | classFunction => .classView

/-- The kind of the entities that are listed. -/
def child : Link → EntityKind
  | rootDistrict | district | subdistrict => .district
  | cityBuilding | districtBuilding => .building
  | buildingClass => .classView
  | buildingFunction | classFunction => .functionView

end Link

/-- What an entity says of itself, its lists apart. -/
structure Entity where
  id : String
  name : String
  fqn : Option String := none
  /-- The entity that is named as the one above, in whose list this one should be. -/
  parent : Link → Option String := fun _ => none
  language : Option Language := none
  metrics : Option Metrics := none

/-- A city has no parents. -/
def City.entity (c : City) : Entity := { id := c.id, name := c.name }

/-- A district has a city, and either a parent district or a place among the roots of its city. -/
def District.entity (d : District) : Entity :=
  { id := d.id, name := d.name, fqn := some d.fqn
    parent := fun
      | .rootDistrict => if d.parentDistrictId = none then some d.parentCityId else none
      | .district => some d.parentCityId
      | .subdistrict => d.parentDistrictId
      | _ => none }

/-- A building has a city and a district. -/
def Building.entity (b : Building) : Entity :=
  { id := b.id, name := b.name, fqn := some b.fqn
    parent := fun
      | .cityBuilding => some b.parentCityId
      | .districtBuilding => some b.parentDistrictId
      | _ => none
    language := some b.language, metrics := some b.metrics }

/-- A class has a building. -/
def ClassView.entity (c : ClassView) : Entity :=
  { id := c.id, name := c.name, fqn := some c.fqn
    parent := fun
      | .buildingClass => some c.parentBuildingId
      | _ => none
    metrics := some c.metrics }

/-- A function names its owner, and does not tell whether that is a building or a class. -/
def FunctionView.entity (f : FunctionView) : Entity :=
  { id := f.id, name := f.name, fqn := some f.fqn
    parent := fun
      | .buildingFunction | .classFunction => some f.parentId
      | _ => none
    metrics := some f.metrics }

/-! ## The two views -/

section Views

variable {α : Type}

/-- The ids that the element under a key lists; none if there is no such element. -/
def SortedMap.listAt (m : SortedMap String α) (f : α → List String) (k : String) : List String :=
  ((m.find? k).map f).getD []

namespace Landscape

/-- The entity of a kind under a key. -/
def entity? (l : Landscape) : EntityKind → String → Option Entity
  | .city, k => (l.cities.find? k).map City.entity
  | .district, k => (l.districts.find? k).map District.entity
  | .building, k => (l.buildings.find? k).map Building.entity
  | .classView, k => (l.classes.find? k).map ClassView.entity
  | .functionView, k => (l.functions.find? k).map FunctionView.entity

/-- Whether there is an entity of a kind under a key. -/
def Has (l : Landscape) (kind : EntityKind) (k : String) : Prop := (l.entity? kind k).isSome

/-- The ids that an entity lists. -/
def list (l : Landscape) : Link → String → List String
  | .rootDistrict => l.cities.listAt City.rootDistrictIds
  | .district => l.cities.listAt City.districtIds
  | .cityBuilding => l.cities.listAt City.buildingIds
  | .subdistrict => l.districts.listAt District.districtIds
  | .districtBuilding => l.districts.listAt District.buildingIds
  | .buildingClass => l.buildings.listAt Building.classIds
  | .buildingFunction => l.buildings.listAt Building.functionIds
  | .classFunction => l.classes.listAt ClassView.functionIds

end Landscape

/-! ## The views of a map that changes -/

variable {β : Type} {m : SortedMap String α} {f : α → List String} {u : α → α} {v : α}
  {g : α → β} {b x : String}

theorem mem_pushUnique {ids : List String} {y : String} :
    y ∈ pushUnique ids x ↔ y ∈ ids ∨ y = x := by
  unfold pushUnique
  split
  · rename_i hx
    exact ⟨.inl, fun h => h.elim id fun e => e ▸ hx⟩
  · rw [List.mem_append, List.mem_singleton]

theorem nodup_pushUnique {ids : List String} (h : ids.Nodup) : (pushUnique ids x).Nodup := by
  unfold pushUnique
  split
  · exact h
  · rename_i hx
    exact List.nodup_append.2 ⟨h, List.nodup_cons.2 ⟨List.not_mem_nil, .nil⟩,
      fun y hy z hz he => hx (List.mem_singleton.1 hz ▸ he ▸ hy)⟩

namespace SortedMap

theorem map_find?_change (hu : ∀ a, g (u a) = g a) (k : String) :
    ((m.change b u).find? k).map g = (m.find? k).map g := by
  rw [find?_change]
  by_cases hk : k = b
  · rw [if_pos hk, hk, Option.map_map]
    congr 1
    exact funext hu
  · rw [if_neg hk]

theorem map_find?_put_self : ((m.put b v).find? b).map g = some (g v) := by
  rw [find?_put, if_pos rfl, Option.map_some]

theorem map_find?_put_of_ne {k : String} (hk : k ≠ b) :
    ((m.put b v).find? k).map g = (m.find? k).map g := by
  rw [find?_put, if_neg hk]

theorem map_find?_putNew_self :
    ((m.putNew b v).find? b).map g = some (((m.find? b).map g).getD (g v)) := by
  rw [find?_putNew, if_pos rfl, Option.map_some]
  cases m.find? b <;> rfl

theorem map_find?_putNew_of_ne {k : String} (hk : k ≠ b) :
    ((m.putNew b v).find? k).map g = (m.find? k).map g := by
  rw [find?_putNew, if_neg hk]

theorem listAt_change (hu : ∀ a, f (u a) = f a) (k : String) :
    (m.change b u).listAt f k = m.listAt f k := by
  unfold listAt
  rw [map_find?_change hu]

/-- An element that is there gets another id into its list. -/
theorem listAt_change_push (hb : (m.find? b).isSome) (hu : ∀ a, f (u a) = pushUnique (f a) x)
    (k : String) :
    (m.change b u).listAt f k
      = if some b = some k then pushUnique (m.listAt f k) x else m.listAt f k := by
  unfold listAt
  rw [find?_change]
  by_cases hk : k = b
  · obtain ⟨a, ha⟩ := Option.isSome_iff_exists.1 hb
    rw [if_pos hk, if_pos (congrArg some hk.symm), hk, ha]
    exact hu a
  · rw [if_neg hk, if_neg fun h => hk (Option.some.inj h).symm]

theorem find?_change_eq_none {k : String} (hk : m.find? k = none) :
    (m.change b u).find? k = none := by
  rw [find?_change]
  by_cases hb : k = b
  · rw [if_pos hb, ← hb, hk, Option.map_none]
  · rw [if_neg hb, hk]

theorem listAt_put (hb : m.find? b = none) (hv : f v = []) (k : String) :
    (m.put b v).listAt f k = m.listAt f k := by
  unfold listAt
  rw [find?_put]
  by_cases hk : k = b
  · rw [if_pos hk, hk, hb, Option.map_some, hv]
    rfl
  · rw [if_neg hk]

theorem listAt_putNew (hv : f v = []) (k : String) :
    (m.putNew b v).listAt f k = m.listAt f k := by
  unfold listAt
  rw [find?_putNew]
  by_cases hk : k = b
  · rw [if_pos hk, hk]
    cases m.find? b with
    | none => exact hv
    | some a => rfl
  · rw [if_neg hk]

end SortedMap

end Views

/-! ## One entity is drawn -/

namespace Landscape

variable {l l' : Landscape} {kind : EntityKind} {x : String} {e : Entity}
  {places : Link → Option String}

/-- The entity `e` of a kind is drawn under the key `x` and listed in some places. If there is
one under the key already, it stays as it is; all others do in any case. -/
structure Adds (l l' : Landscape) (kind : EntityKind) (x : String) (e : Entity)
    (places : Link → Option String) : Prop where
  self : l'.entity? kind x = some ((l.entity? kind x).getD e)
  frame : ∀ κ k, (κ, k) ≠ (kind, x) → l'.entity? κ k = l.entity? κ k
  list : ∀ link k, l'.list link k
    = if places link = some k then pushUnique (l.list link k) x else l.list link k

/-- The districts with a district listed in its parent, if it has one. -/
def listBelow (ds : SortedMap String District) (d : District) : SortedMap String District :=
  match d.parentDistrictId with
  | some p => ds.change p fun e => { e with districtIds := pushUnique e.districtIds d.id }
  | none => ds

/-- The landscape with a new district, which is listed in its city and in its parent. -/
def withDistrict (l : Landscape) (d : District) : Landscape :=
  { l with
    cities := l.cities.change d.parentCityId fun c => { c with
      rootDistrictIds :=
        if d.parentDistrictId.isNone then pushUnique c.rootDistrictIds d.id else c.rootDistrictIds
      districtIds := pushUnique c.districtIds d.id }
    districts := (listBelow l.districts d).put d.id d }

/-- The landscape with a building, which is listed in its city and in its district. -/
def withBuilding (l : Landscape) (b : Building) : Landscape :=
  { l with
    districts := l.districts.change b.parentDistrictId fun d =>
      { d with buildingIds := pushUnique d.buildingIds b.id }
    cities := l.cities.change b.parentCityId fun c =>
      { c with buildingIds := pushUnique c.buildingIds b.id }
    buildings := l.buildings.putNew b.id b }

theorem adds_drawCity (l : Landscape) (name : String) :
    Adds l (l.drawCity name) .city (stableId name) { id := stableId name, name } fun _ => none where
  self := SortedMap.map_find?_putNew_self
  frame κ k hne := by
    cases κ with
    | city => exact SortedMap.map_find?_putNew_of_ne fun hk => hne (Prod.ext rfl hk)
    | district | building | classView | functionView => rfl
  list link k := by
    cases link with
    | rootDistrict | district | cityBuilding =>
      exact (SortedMap.listAt_putNew rfl k).trans (if_neg nofun).symm
    | subdistrict | districtBuilding | buildingClass | buildingFunction | classFunction =>
      exact (if_neg nofun).symm

section ListBelow

variable {ds : SortedMap String District} {d : District}

theorem find?_listBelow_eq_none {k : String} (hk : ds.find? k = none) :
    (listBelow ds d).find? k = none := by
  unfold listBelow
  split
  · exact SortedMap.find?_change_eq_none hk
  · exact hk

theorem entity_listBelow (k : String) :
    ((listBelow ds d).find? k).map District.entity = (ds.find? k).map District.entity := by
  unfold listBelow
  split
  · exact SortedMap.map_find?_change (fun _ => by rfl) k
  · rfl

theorem buildings_listBelow (k : String) :
    (listBelow ds d).listAt District.buildingIds k = ds.listAt District.buildingIds k := by
  unfold listBelow
  split
  · exact SortedMap.listAt_change (fun _ => by rfl) k
  · rfl

theorem districts_listBelow
    (hparent : ∀ p, d.parentDistrictId = some p → (ds.find? p).isSome) (k : String) :
    (listBelow ds d).listAt District.districtIds k
      = if d.parentDistrictId = some k then pushUnique (ds.listAt District.districtIds k) d.id
        else ds.listAt District.districtIds k := by
  unfold listBelow
  split
  · rename_i p hp
    rw [hp]
    exact SortedMap.listAt_change_push (hparent p hp) (fun _ => rfl) k
  · rename_i hp
    rw [hp, if_neg nofun]

end ListBelow

theorem adds_withDistrict {d : District} (hnew : l.districts.find? d.id = none)
    (hcity : (l.cities.find? d.parentCityId).isSome)
    (hparent : ∀ p, d.parentDistrictId = some p → (l.districts.find? p).isSome)
    (hdistricts : d.districtIds = []) (hbuildings : d.buildingIds = []) :
    Adds l (l.withDistrict d) .district d.id d.entity d.entity.parent where
  self := by
    have hold : l.entity? .district d.id = none := by
      show (l.districts.find? d.id).map District.entity = none
      rw [hnew, Option.map_none]
    rw [hold]
    exact SortedMap.map_find?_put_self
  frame κ k hne := by
    cases κ with
    | city => exact SortedMap.map_find?_change (fun _ => by rfl) k
    | district =>
      exact (SortedMap.map_find?_put_of_ne fun hk => hne (Prod.ext rfl hk)).trans
        (entity_listBelow k)
    | building | classView | functionView => rfl
  list link k := by
    have hput := find?_listBelow_eq_none (d := d) hnew
    cases link with
    | rootDistrict =>
      by_cases hp : d.parentDistrictId = none
      · simp only [District.entity, if_pos hp]
        exact SortedMap.listAt_change_push hcity (fun _ => if_pos (by rw [hp]; rfl)) k
      · simp only [District.entity, if_neg hp]
        rw [if_neg nofun]
        have hsome : ¬d.parentDistrictId.isNone := by rwa [Option.isNone_iff_eq_none]
        exact SortedMap.listAt_change (fun _ => by exact if_neg hsome) k
    | district => exact SortedMap.listAt_change_push hcity (fun _ => rfl) k
    | cityBuilding => exact (SortedMap.listAt_change (fun _ => by rfl) k).trans (if_neg nofun).symm
    | subdistrict =>
      exact (SortedMap.listAt_put hput hdistricts k).trans (districts_listBelow hparent k)
    | districtBuilding =>
      exact ((SortedMap.listAt_put hput hbuildings k).trans (buildings_listBelow k)).trans
        (if_neg nofun).symm
    | buildingClass | buildingFunction | classFunction => exact (if_neg nofun).symm

theorem adds_withBuilding {b : Building} (hcity : (l.cities.find? b.parentCityId).isSome)
    (hdistrict : (l.districts.find? b.parentDistrictId).isSome) (hclasses : b.classIds = [])
    (hfunctions : b.functionIds = []) :
    Adds l (l.withBuilding b) .building b.id b.entity b.entity.parent where
  self := SortedMap.map_find?_putNew_self
  frame κ k hne := by
    cases κ with
    | city | district => exact SortedMap.map_find?_change (fun _ => by rfl) k
    | building => exact SortedMap.map_find?_putNew_of_ne fun hk => hne (Prod.ext rfl hk)
    | classView | functionView => rfl
  list link k := by
    cases link with
    | rootDistrict | district | subdistrict =>
      exact (SortedMap.listAt_change (fun _ => by rfl) k).trans (if_neg nofun).symm
    | cityBuilding => exact SortedMap.listAt_change_push hcity (fun _ => rfl) k
    | districtBuilding => exact SortedMap.listAt_change_push hdistrict (fun _ => rfl) k
    | buildingClass => exact (SortedMap.listAt_putNew hclasses k).trans (if_neg nofun).symm
    | buildingFunction => exact (SortedMap.listAt_putNew hfunctions k).trans (if_neg nofun).symm
    | classFunction => exact (if_neg nofun).symm

/-- The class as it is drawn in a building. -/
def classView (building : String) (c : ClassNode) : ClassView :=
  { id := stableId c.name, name := simpleName c.name, fqn := c.name
    parentBuildingId := building, metrics := c.metrics }

theorem adds_drawClass {building : String} (hbuilding : (l.buildings.find? building).isSome)
    (c : ClassNode) :
    Adds l (l.drawClass building c) .classView (stableId c.name) (classView building c).entity
      (classView building c).entity.parent where
  self := SortedMap.map_find?_putNew_self
  frame κ k hne := by
    cases κ with
    | building => exact SortedMap.map_find?_change (fun _ => by rfl) k
    | classView => exact SortedMap.map_find?_putNew_of_ne fun hk => hne (Prod.ext rfl hk)
    | city | district | functionView => rfl
  list link k := by
    cases link with
    | buildingClass => exact SortedMap.listAt_change_push hbuilding (fun _ => rfl) k
    | buildingFunction =>
      exact (SortedMap.listAt_change (fun _ => by rfl) k).trans (if_neg nofun).symm
    | classFunction => exact (SortedMap.listAt_putNew rfl k).trans (if_neg nofun).symm
    | rootDistrict | district | cityBuilding | subdistrict | districtBuilding =>
      exact (if_neg nofun).symm

theorem adds_drawFreeFunction {building : String} (fqn : String)
    (hbuilding : (l.buildings.find? building).isSome) (f : FunctionNode) :
    Adds l (l.drawFreeFunction building fqn f) .functionView (functionId fqn f.name)
      (functionView building fqn f).entity
      fun link => if link = .buildingFunction then some building else none where
  self := SortedMap.map_find?_putNew_self
  frame κ k hne := by
    cases κ with
    | building => exact SortedMap.map_find?_change (fun _ => by rfl) k
    | functionView => exact SortedMap.map_find?_putNew_of_ne fun hk => hne (Prod.ext rfl hk)
    | city | district | classView => rfl
  list link k := by
    cases link with
    | buildingClass => exact (SortedMap.listAt_change (fun _ => by rfl) k).trans (if_neg nofun).symm
    | buildingFunction => exact SortedMap.listAt_change_push hbuilding (fun _ => rfl) k
    | rootDistrict | district | cityBuilding | subdistrict | districtBuilding | classFunction =>
      exact (if_neg nofun).symm

theorem adds_drawMethod {fqn : String} (hclass : (l.classes.find? (stableId fqn)).isSome)
    (f : FunctionNode) :
    Adds l (l.drawMethod fqn f) .functionView (functionId fqn f.name)
      (functionView (stableId fqn) fqn f).entity
      fun link => if link = .classFunction then some (stableId fqn) else none where
  self := SortedMap.map_find?_putNew_self
  frame κ k hne := by
    cases κ with
    | classView => exact SortedMap.map_find?_change (fun _ => by rfl) k
    | functionView => exact SortedMap.map_find?_putNew_of_ne fun hk => hne (Prod.ext rfl hk)
    | city | district | building => rfl
  list link k := by
    cases link with
    | classFunction => exact SortedMap.listAt_change_push hclass (fun _ => rfl) k
    | rootDistrict | district | cityBuilding | subdistrict | districtBuilding | buildingClass
        | buildingFunction => exact (if_neg nofun).symm

end Landscape

end Cityscape
