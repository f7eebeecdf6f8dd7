import Cityscape.Hydration
import Cityscape.Landscape.Basic
import Cityscape.NameId.StableId
import Cityscape.Text.Segments

/-!
# `Projection`: from commits to a landscape

Each commit is drawn into the city of its repository. All files are drawn first, each with the
districts above it; then the classes and free functions of every file, and last the functions
of the classes. What is already drawn is kept as it is, and ids are listed once, so commits
that overlap share what they have in common.
-/

namespace Cityscape

namespace FileRevision

/-- The id of a file's building: its content hash, or a number for a file without hash. -/
def buildingId (f : FileRevision) : String :=
  match f.hash with
  | some hash => hash
  | none => "file-" ++ f.id.text

/-- The qualified name of a file: its name within its package. -/
def qualifiedName (f : FileRevision) : String :=
  match f.packageName with
  | some package => if package.isEmpty then f.name else package ++ "." ++ f.name
  | none => f.name

end FileRevision

/-- The part of a qualified name behind its last dot. -/
def simpleName (fqn : String) : String := String.ofList (Text.lastPiece '.' fqn.toList)

namespace Landscape

/-! ## Districts -/

/-- Lists a district in a city, also as a root district if it has no parent. -/
def listDistrict (l : Landscape) (cityId id : String) (isRoot : Bool) : Landscape :=
  { l with cities := l.cities.change cityId fun c => { c with
      rootDistrictIds := if isRoot then pushUnique c.rootDistrictIds id else c.rootDistrictIds
      districtIds := pushUnique c.districtIds id } }

/-- Draws the district of files without a directory, unless it is there. -/
def drawRootDistrict (l : Landscape) (cityId : String) : Landscape × String :=
  let id := cityId ++ "-root"
  if l.districts.hasKey id then (l, id)
  else
    let district : District :=
      { id, name := "root", fqn := "root", parentCityId := cityId, parentDistrictId := none }
    let l := { l with districts := l.districts.put id district }
    (l.listDistrict cityId id true, id)

/-- Draws the district of a directory below `parent`, given by id and qualified name, unless it
is there. Yields the id and the qualified name of the district. -/
def drawDistrict (cityId : String) (state : Landscape × Option (String × String))
    (d : Directory) : Landscape × Option (String × String) :=
  let (l, parent) := state
  let id := d.id.text
  match l.districts.find? id with
  | some existing => (l, some (existing.id, existing.fqn))
  | none =>
    let fqn := match parent with
      | some (_, parentFqn) => parentFqn ++ "." ++ d.name
      | none => d.name
    let l := match parent with
      | some (parentId, _) =>
        { l with districts := l.districts.change parentId fun p =>
            { p with districtIds := pushUnique p.districtIds id } }
      | none => l
    let l := l.listDistrict cityId id parent.isNone
    let district : District :=
      { id, name := d.name, fqn, parentCityId := cityId, parentDistrictId := parent.map Prod.fst }
    ({ l with districts := l.districts.put id district }, some (id, fqn))

/-- Draws the directories above a file from the root down, and yields the id of the district of
the nearest one. -/
def drawDistricts (l : Landscape) (cityId : String) (chain : List Directory) :
    Landscape × String :=
  let (l, nearest) := chain.reverse.foldl (drawDistrict cityId) (l, none)
  (l, (nearest.map Prod.fst).getD "")

/-! ## Buildings, classes and functions -/

/-- Draws a file. -/
def drawFile (cityId : String) (h : HydratedCommit) (l : Landscape) (f : FileRevision) :
    Landscape :=
  let (l, districtId) := match h.parentOf f with
    | some _ => l.drawDistricts cityId (h.ancestors f)
    | none => l.drawRootDistrict cityId
  let id := f.buildingId
  { l with
    districts := l.districts.change districtId fun d =>
      { d with buildingIds := pushUnique d.buildingIds id }
    cities := l.cities.change cityId fun c =>
      { c with buildingIds := pushUnique c.buildingIds id }
    buildings := l.buildings.putNew id
      { id, name := f.name, fqn := f.qualifiedName, parentCityId := cityId,
        parentDistrictId := districtId, language := f.language, metrics := f.metrics } }

/-- Draws a class of a building. -/
def drawClass (buildingId : String) (l : Landscape) (c : ClassNode) : Landscape :=
  let id := stableId c.name
  { l with
    buildings := l.buildings.change buildingId fun b =>
      { b with classIds := pushUnique b.classIds id }
    classes := l.classes.putNew id
      { id, name := simpleName c.name, fqn := c.name, parentBuildingId := buildingId,
        metrics := c.metrics } }

/-- The id of a function, derived from the qualified name of its owner and its own name. -/
def functionId (ownerFqn name : String) : String := stableId (ownerFqn ++ "::" ++ name)

/-- The function as it is drawn below its owner. -/
def functionView (parentId ownerFqn : String) (f : FunctionNode) : FunctionView :=
  { id := functionId ownerFqn f.name, name := f.name, fqn := ownerFqn ++ "." ++ f.name, parentId,
    metrics := f.metrics }

/-- Draws a free function of a building. -/
def drawFreeFunction (buildingId buildingFqn : String) (l : Landscape) (f : FunctionNode) :
    Landscape :=
  let view := functionView buildingId buildingFqn f
  { l with
    buildings := l.buildings.change buildingId fun b =>
      { b with functionIds := pushUnique b.functionIds view.id }
    functions := l.functions.putNew view.id view }

/-- Draws a function of a class. -/
def drawMethod (classFqn : String) (l : Landscape) (f : FunctionNode) : Landscape :=
  let classId := stableId classFqn
  let view := functionView classId classFqn f
  { l with
    classes := l.classes.change classId fun c =>
      { c with functionIds := pushUnique c.functionIds view.id }
    functions := l.functions.putNew view.id view }

/-- Draws the classes and the free functions of a file. -/
def drawContents (l : Landscape) (f : HydratedFile) : Landscape :=
  let id := f.file.buildingId
  let l := (f.classes.map HydratedClass.node).foldl (drawClass id) l
  f.functions.foldl (drawFreeFunction id f.file.qualifiedName) l

/-- Draws the functions of a class. -/
def drawMethods (l : Landscape) (c : HydratedClass) : Landscape :=
  c.functions.foldl (drawMethod c.node.name) l

/-- Draws the city of a repository, unless it is there. -/
def drawCity (l : Landscape) (name : String) : Landscape :=
  let id := stableId name
  { l with cities := l.cities.putNew id { id, name } }

/-- Draws a commit into the city with the given name. -/
def drawCommit (l : Landscape) (cityName : String) (h : HydratedCommit) : Landscape :=
  let l := l.drawCity cityName
  let l := (h.files.map HydratedFile.file).foldl (drawFile (stableId cityName) h) l
  let l := h.files.foldl drawContents l
  (h.files.flatMap HydratedFile.classes).foldl drawMethods l

end Landscape

/-- The city of commits that no repository contains. -/
def unknownCity : String := "UnknownApplication"

namespace Store

/-- The name of the city of a commit: that of the repository that contains it. -/
def cityName (s : Store) (commit : NodeId) : String :=
  match s.repositoryOfCommit commit with
  | some r => r.name
  | none => unknownCity

/-- The landscape of several commits. -/
def project (s : Store) (token : String) (commits : List HydratedCommit) : Landscape :=
  commits.foldl (fun l h => l.drawCommit (s.cityName h.commit.id) h) (Landscape.ofToken token)

end Store

end Cityscape
