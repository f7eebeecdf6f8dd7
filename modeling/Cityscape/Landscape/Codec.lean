import Cityscape.Graph.Codec
import Cityscape.Landscape.Basic

/-!
# `Codec`: the JSON form of landscapes

Field names are in camel case, and all fields but the parent district must be present.
-/

namespace Cityscape

/-- The JSON form of a city. -/
def City.codec : Codec City :=
  (Record.field (.required "id" .text) <|
    .field (.required "name" .text) <|
    .field (.required "rootDistrictIds" (.list .text)) <|
    .field (.required "districtIds" (.list .text)) <|
    .field (.required "buildingIds" (.list .text)) .done).codec.iso
    (fun (id, name, rootDistrictIds, districtIds, buildingIds, ()) =>
      { id, name, rootDistrictIds, districtIds, buildingIds })
    (fun c => (c.id, c.name, c.rootDistrictIds, c.districtIds, c.buildingIds, ()))

/-- The JSON form of a district. -/
def District.codec : Codec District :=
  (Record.field (.required "id" .text) <|
    .field (.required "name" .text) <|
    .field (.required "fqn" .text) <|
    .field (.required "parentCityId" .text) <|
    .field (.nullable "parentDistrictId" .text) <|
    .field (.required "districtIds" (.list .text)) <|
    .field (.required "buildingIds" (.list .text)) .done).codec.iso
    (fun (id, name, fqn, parentCityId, parentDistrictId, districtIds, buildingIds, ()) =>
      { id, name, fqn, parentCityId, parentDistrictId, districtIds, buildingIds })
    (fun d => (d.id, d.name, d.fqn, d.parentCityId, d.parentDistrictId, d.districtIds,
      d.buildingIds, ()))

/-- The JSON form of a building. -/
def Building.codec : Codec Building :=
  (Record.field (.required "id" .text) <|
    .field (.required "name" .text) <|
    .field (.required "fqn" .text) <|
    .field (.required "parentCityId" .text) <|
    .field (.required "parentDistrictId" .text) <|
    .field (.required "language" .language) <|
    .field (.required "classIds" (.list .text)) <|
    .field (.required "functionIds" (.list .text)) <|
    .field (.required "metrics" .metrics) .done).codec.iso
    (fun (id, name, fqn, parentCityId, parentDistrictId, language, classIds, functionIds, metrics,
        ()) =>
      { id, name, fqn, parentCityId, parentDistrictId, language, classIds, functionIds, metrics })
    (fun b => (b.id, b.name, b.fqn, b.parentCityId, b.parentDistrictId, b.language, b.classIds,
      b.functionIds, b.metrics, ()))

/-- The JSON form of a class. -/
def ClassView.codec : Codec ClassView :=
  (Record.field (.required "id" .text) <|
    .field (.required "name" .text) <|
    .field (.required "fqn" .text) <|
    .field (.required "parentBuildingId" .text) <|
    .field (.required "functionIds" (.list .text)) <|
    .field (.required "metrics" .metrics) .done).codec.iso
    (fun (id, name, fqn, parentBuildingId, functionIds, metrics, ()) =>
      { id, name, fqn, parentBuildingId, functionIds, metrics })
    (fun c => (c.id, c.name, c.fqn, c.parentBuildingId, c.functionIds, c.metrics, ()))

/-- The JSON form of a function. -/
def FunctionView.codec : Codec FunctionView :=
  (Record.field (.required "id" .text) <|
    .field (.required "name" .text) <|
    .field (.required "fqn" .text) <|
    .field (.required "parentId" .text) <|
    .field (.required "metrics" .metrics) .done).codec.iso
    (fun (id, name, fqn, parentId, metrics, ()) => { id, name, fqn, parentId, metrics })
    (fun f => (f.id, f.name, f.fqn, f.parentId, f.metrics, ()))

/-- The JSON form of a landscape. -/
def Landscape.codec : Codec Landscape :=
  (Record.field (.required "landscapeToken" .text) <|
    .field (.required "cities" (.map City.codec)) <|
    .field (.required "districts" (.map District.codec)) <|
    .field (.required "buildings" (.map Building.codec)) <|
    .field (.required "classes" (.map ClassView.codec)) <|
    .field (.required "functions" (.map FunctionView.codec)) .done).codec.iso
    (fun (landscapeToken, cities, districts, buildings, classes, functions, ()) =>
      { landscapeToken, cities, districts, buildings, classes, functions })
    (fun l => (l.landscapeToken, l.cities, l.districts, l.buildings, l.classes, l.functions, ()))

end Cityscape
