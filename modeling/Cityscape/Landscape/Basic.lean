import Cityscape.Graph.Node

/-!
# `Landscape`: the city view of a code base

A landscape shows repositories as cities, directories as districts, files as buildings, and the
classes and functions in them. Its entities stand in maps under their ids and refer to each
other by id.
-/

namespace Cityscape

/-- A repository. -/
structure City where
  id : String
  name : String
  /-- The districts without a parent district. -/
  rootDistrictIds : List String := []
  /-- All districts. -/
  districtIds : List String := []
  buildingIds : List String := []
deriving DecidableEq

/-- A directory. -/
structure District where
  id : String
  name : String
  fqn : String
  parentCityId : String
  parentDistrictId : Option String
  districtIds : List String := []
  buildingIds : List String := []
deriving DecidableEq

/-- A file revision. -/
structure Building where
  id : String
  name : String
  fqn : String
  parentCityId : String
  parentDistrictId : String
  language : Language
  classIds : List String := []
  functionIds : List String := []
  metrics : Metrics
deriving DecidableEq

/-- A class. -/
structure ClassView where
  id : String
  /-- The last part of the qualified name. -/
  name : String
  fqn : String
  parentBuildingId : String
  functionIds : List String := []
  metrics : Metrics
deriving DecidableEq

/-- A function of a class or a building. -/
structure FunctionView where
  id : String
  name : String
  fqn : String
  parentId : String
  metrics : Metrics
deriving DecidableEq

/-- The entities of one or more commits. -/
structure Landscape where
  landscapeToken : String
  cities : SortedMap String City := ∅
  districts : SortedMap String District := ∅
  buildings : SortedMap String Building := ∅
  classes : SortedMap String ClassView := ∅
  functions : SortedMap String FunctionView := ∅
deriving DecidableEq

namespace Landscape

/-- A landscape without entities. -/
def ofToken (token : String) : Landscape := { landscapeToken := token }

/-- Whether there is no city. -/
def isEmpty (l : Landscape) : Bool := l.cities.isEmpty

end Landscape

/-- The list with `id` at its end, unless it is in the list already. -/
def pushUnique (ids : List String) (id : String) : List String :=
  if id ∈ ids then ids else ids ++ [id]

end Cityscape
