import Cityscape.Proofs.Places

/-!
# `Meanings`: in which files span facts mean their functions to be

Which function a span fact means, and the paths of the files that it is in or will be in
(`Store.pathsMeant`), can be told from the files at one place and the names of their functions.
Other span facts add applications, files and functions. But a new application has no files, a new
file comes to a place where there has been none, and a new function comes into a file that has had
none of its name. So whatever comes in between, a fact means its function to be in the same files
(`Store.KeepsPlaces`).
-/

namespace Cityscape

/-- The names of the file that a span fact names. -/
def SpanFact.path (f : SpanFact) : List String := (splitName f.functionFqn).dropLast

namespace Store

variable {owner : NodeId → String} {n m : Nat} {s s' s'' : Store}

/-- The file at a path below the root of an application: that of the commit with the given hash,
or one of any commit or none. -/
def tracedFileAt (s : Store) (token : String) (root : NodeId) (path : List String)
    (hash : Option String) : Option NodeId :=
  ((hash.bind (s.findCommit token)).bind fun c =>
    s.fileAt (fun id => c.fileRevisions.contains id) root path).or
    (s.fileAt (fun _ => true) root path)

/-- The function that a span fact means, if it is in a file already. -/
def functionMeant (s : Store) (f : SpanFact) : Option NodeId :=
  (s.findApplication f.landscapeToken f.applicationName).bind fun a =>
    (s.tracedFileAt f.landscapeToken a.rootDirectory f.path (nonEmpty f.commitId)).bind fun file =>
      (splitName f.functionFqn).getLast?.bind (s.functionNamed file)

/-- The file that a span fact means, if it names one and it is there already. -/
def fileMeant (s : Store) (f : SpanFact) : Option NodeId :=
  if f.path = [] then none
  else (s.findApplication f.landscapeToken f.applicationName).bind fun a =>
    s.tracedFileAt f.landscapeToken a.rootDirectory f.path (nonEmpty f.commitId)

/-- The path of the file that a span fact means. -/
def filePath (s : Store) (f : SpanFact) : List String :=
  match s.findApplication f.landscapeToken f.applicationName with
  | some a => s.namesAbove (some a.rootDirectory) ++ f.path
  | none => f.path

/-- The paths of the files that a function is in; a function that is not there yet comes into the
file with the given path. -/
def pathsIn (s : Store) (function : Option NodeId) (path : List String) :
    SortedSet (List String) :=
  match function with
  | some id => s.pathsOf id
  | none => Sorted.ofList [path]

/-- The paths of the files that a span fact means its function to be in. -/
def pathsMeant (s : Store) (f : SpanFact) : SortedSet (List String) :=
  if f.path = [] then ∅ else s.pathsIn (s.functionMeant f) (s.filePath f)

/-- All facts mean functions in the same files as before, and all functions are in the same files
as before. -/
structure KeepsPlaces (s s' : Store) : Prop where
  pathsMeant : ∀ f, s'.pathsMeant f = s.pathsMeant f
  pathsOf : ∀ g ∈ s.functions, s'.pathsOf g.id = s.pathsOf g.id

namespace KeepsPlaces

theorem rfl : s.KeepsPlaces s := ⟨fun _ => .refl _, fun _ _ => .refl _⟩

theorem trans (h : s.KeepsPlaces s') (g : s.Grows s') (h' : s'.KeepsPlaces s'') :
    s.KeepsPlaces s'' where
  pathsMeant f := (h'.pathsMeant f).trans (h.pathsMeant f)
  pathsOf x hx := by
    obtain ⟨x', hx', rfl⟩ := g.functions.mem hx
    exact (h'.pathsOf x hx').trans (h.pathsOf x hx)

/-- What a fact means keeps its paths if the function that it means does. -/
theorem pathsMeant_congr {f : SpanFact} (hmeant : s'.functionMeant f = s.functionMeant f)
    (hpath : s.functionMeant f = none → s'.filePath f = s.filePath f)
    (hpaths : ∀ g, s.functionMeant f = some g → s'.pathsOf g = s.pathsOf g) :
    s'.pathsMeant f = s.pathsMeant f := by
  unfold Store.pathsMeant
  rw [hmeant]
  cases hg : s.functionMeant f with
  | none => rw [hpath hg]; rfl
  | some g => simp only [Store.pathsIn, hpaths g hg]

end KeepsPlaces

/-- Files that have been there and their functions stay, and all facts mean those of them that they
have meant before. -/
structure KeepsContents (s s' : Store) : Prop where
  functions : s'.functions = s.functions
  files : ∀ y ∈ s.files, s'.files.get? y.id = some y
  meant : ∀ q, ∀ y ∈ s.files, s'.fileMeant q = some y.id ↔ s.fileMeant q = some y.id

namespace KeepsContents

theorem rfl : s.KeepsContents s :=
  ⟨.refl _, fun _ hy => Sorted.get?_key hy, fun _ _ _ => .rfl⟩

theorem mem (h : s.KeepsContents s') {y : FileRevision} (hy : y ∈ s.files) : y ∈ s'.files :=
  Sorted.mem_of_get? (h.files y hy)

theorem functionNamed (h : s.KeepsContents s') {y : FileRevision} (hy : y ∈ s.files)
    (name : String) : s'.functionNamed y.id name = s.functionNamed y.id name := by
  unfold Store.functionNamed
  rw [h.files y hy, Sorted.get?_key hy, h.functions]

end KeepsContents

/-- The file that a fact means has the function of the fact, which is new if the file has had none
of its name. All else is as before in the files that have been there. -/
structure GivesFunction (s : Store) (q : SpanFact) (x : FunctionNode) (s' : Store) : Prop where
  named : ∀ y ∈ s.files, ∀ name, s'.functionNamed y.id name
    = if s.fileMeant q = some y.id ∧ x.name = name then some x.id else s.functionNamed y.id name
  old_or_new : ∀ y ∈ s.files, s.fileMeant q = some y.id →
    s.functionNamed y.id x.name = some x.id ∧ x ∈ s.functions ∨
      s.functionNamed y.id x.name = none ∧
        x = { id := x.id, name := x.name, fqn := some q.functionFqn }

namespace GivesFunction

variable {q : SpanFact} {x : FunctionNode}

theorem after (h : s'.GivesFunction q x s'') (hkeeps : s.KeepsContents s') :
    s.GivesFunction q x s'' where
  named y hy name := by
    rw [h.named y (hkeeps.mem hy), hkeeps.functionNamed hy]
    simp only [hkeeps.meant q y hy]
  old_or_new y hy hmeant := by
    rw [← hkeeps.functionNamed hy, ← hkeeps.functions]
    exact h.old_or_new y (hkeeps.mem hy) ((hkeeps.meant q y hy).2 hmeant)

/-- Nothing changes if the file has the function, or none is meant. -/
theorem of_same
    (hnamed : ∀ y ∈ s.files, ∀ name, s'.functionNamed y.id name = s.functionNamed y.id name)
    (hmeant : ∀ y ∈ s.files, s.fileMeant q = some y.id →
      s.functionNamed y.id x.name = some x.id ∧ x ∈ s.functions) : s.GivesFunction q x s' where
  named y hy name := by
    rw [hnamed y hy]
    split
    case isTrue h =>
      obtain ⟨hfile, rfl⟩ := h
      exact (hmeant y hy hfile).1
    case isFalse => rfl
  old_or_new y hy hfile := .inl (hmeant y hy hfile)

end GivesFunction

/-! ## The file that is meant -/

theorem mem_of_fileAt {allowed : NodeId → Bool} {root : NodeId} {path : List String} {id : NodeId}
    (h : s.fileAt allowed root path = some id) :
    ∃ f ∈ s.files, f.id = id ∧ s.place f = s.placeBelow root path := by
  obtain ⟨f, hf, rfl⟩ := Option.map_eq_some_iff.1 h
  have hplace := List.find?_some hf
  exact ⟨f, List.mem_of_find?_eq_some hf, rfl, (of_decide_eq_true hplace).2⟩

theorem mem_of_tracedFileAt {token : String} {root : NodeId} {path : List String}
    {hash : Option String} {id : NodeId} (h : s.tracedFileAt token root path hash = some id) :
    ∃ f ∈ s.files, f.id = id ∧ s.place f = s.placeBelow root path := by
  rcases Option.or_eq_some_iff.1 h with h | ⟨-, h⟩
  · obtain ⟨c, -, h⟩ := Option.bind_eq_some_iff.1 h
    exact mem_of_fileAt h
  · exact mem_of_fileAt h

/-- If there is no file at a place, none is meant. -/
theorem tracedFileAt_eq_none {token : String} {root : NodeId} {path : List String}
    {hash : Option String} (h : ∀ f ∈ s.files, s.place f ≠ s.placeBelow root path) :
    s.tracedFileAt token root path hash = none := by
  cases hid : s.tracedFileAt token root path hash with
  | none => rfl
  | some id =>
    obtain ⟨f, hf, -, hplace⟩ := mem_of_tracedFileAt hid
    exact absurd hplace (h f hf)

/-- If there is one file at a place, it is meant. -/
theorem tracedFileAt_eq_some {token : String} {root : NodeId} {path : List String}
    {hash : Option String} {f : FileRevision} (hf : f ∈ s.files)
    (hplace : s.place f = s.placeBelow root path)
    (honly : ∀ x ∈ s.files, s.place x = s.placeBelow root path → x.id = f.id) :
    s.tracedFileAt token root path hash = some f.id := by
  have hsome : (s.tracedFileAt token root path hash).isSome := by
    have heverywhere : s.fileAt (fun _ => true) root path ≠ none :=
      fun hnone => fileAt_eq_none_iff.1 hnone f hf rfl hplace
    unfold tracedFileAt
    rw [Option.isSome_or, Option.isSome_iff_ne_none.2 heverywhere, Bool.or_true]
  obtain ⟨id, hid⟩ := Option.isSome_iff_exists.1 hsome
  obtain ⟨x, hx, rfl, hxplace⟩ := mem_of_tracedFileAt hid
  rw [hid, honly x hx hxplace]

/-- The file at a place stays the one, as long as no other one comes there. -/
theorem Sound.tracedFileAt_of_grows (hs : s.Sound owner n) (hs' : s'.Sound owner m)
    (g : s.Grows s') (hcommits : s'.commits = s.commits) {root : Directory}
    (hroot : root ∈ s.directories) (token : String) {path : List String} (hash : Option String)
    (hold : ∀ f' ∈ s'.files, s'.place f' = s.placeBelow root.id path →
      ∃ f ∈ s.files, f.id = f'.id) :
    s'.tracedFileAt token root.id path hash = s.tracedFileAt token root.id path hash := by
  have hat : ∀ allowed, s'.fileAt allowed root.id path = s.fileAt allowed root.id path := by
    intro allowed
    unfold fileAt
    rw [hs.placeBelow_of_grows hs' g hroot]
    refine map_find?_congr fun id => ?_
    simp only [decide_eq_true_eq]
    constructor
    case mp =>
      rintro ⟨f', hf', rfl, hallowed, hplace⟩
      obtain ⟨f, hf, hid⟩ := hold f' hf' hplace
      obtain ⟨f'', hf'', hk⟩ := g.files.mem hf
      obtain rfl := Sorted.eq_of_key_eq hf' hf'' (hid.symm.trans hk.id.symm)
      exact ⟨f, hf, hid, hid ▸ hallowed, (hs.place_of_grows hs' g hf hk).symm.trans hplace⟩
    case mpr =>
      rintro ⟨f, hf, rfl, hallowed, hplace⟩
      obtain ⟨f', hf', hk⟩ := g.files.mem hf
      exact ⟨f', hf', hk.id, hk.id ▸ hallowed, (hs.place_of_grows hs' g hf hk).trans hplace⟩
  have hfind : s'.findCommit = s.findCommit := by
    unfold findCommit
    rw [hcommits]
  unfold tracedFileAt
  rw [hfind]
  simp only [hat]

/-- A file that keeps its functions keeps their names. -/
theorem Sound.functionNamed_of_grows (hs : s.Sound owner n) (g : s.Grows s') {f f' : FileRevision}
    (hf : s.files.get? f.id = some f) (hf' : s'.files.get? f.id = some f')
    (hfunctions : f'.functions = f.functions) (name : String) :
    s'.functionNamed f.id name = s.functionNamed f.id name := by
  have fits := hs.fitting.files f (Sorted.mem_of_get? hf)
  unfold functionNamed
  rw [hf, hf', Option.bind_some, Option.bind_some, hfunctions]
  refine map_find?_congr fun id => ?_
  simp only [decide_eq_true_eq, SortedSet.contains_iff]
  constructor
  case mp =>
    rintro ⟨x', hx', rfl, hmem, hname⟩
    obtain ⟨x, hx, -⟩ := fits.functions x'.id hmem
    obtain ⟨x'', hx'', rfl⟩ := g.functions _ _ hx
    obtain rfl := Option.some.inj (hx''.symm.trans (Sorted.get?_key hx'))
    exact ⟨x, Sorted.mem_of_get? hx, rfl, hmem, hname⟩
  case mpr =>
    rintro ⟨x, hx, rfl, hmem, hname⟩
    obtain ⟨x', hx', rfl⟩ := g.functions.mem hx
    exact ⟨x, hx', rfl, hmem, hname⟩

/-! ## What keeps places -/

/-- A function stays in the same files if it comes into no other ones. -/
theorem Sound.pathsOf_of_grows (hs : s.Sound owner n) (hs' : s'.Sound owner m) (g : s.Grows s')
    {id : NodeId} (hold : ∀ f' ∈ s'.files, id ∈ f'.functions →
      ∃ f ∈ s.files, f.id = f'.id ∧ id ∈ f.functions) : s'.pathsOf id = s.pathsOf id := by
  refine SortedSet.ext_mem fun path => ?_
  rw [mem_pathsOf, mem_pathsOf]
  constructor
  case mp =>
    rintro ⟨f', hf', hmem, hpath⟩
    obtain ⟨f, hf, hid, hmem⟩ := hold f' hf' hmem
    obtain ⟨f'', hf'', hk⟩ := g.files.mem hf
    obtain rfl := Sorted.eq_of_key_eq hf' hf'' (hid.symm.trans hk.id.symm)
    exact ⟨f, hf, hmem, (hs.relativePath_of_grows hs' g hf hk).symm.trans hpath⟩
  case mpr =>
    rintro ⟨f, hf, hmem, hpath⟩
    obtain ⟨f', hf', hk⟩ := g.files.mem hf
    exact ⟨f', hf', hk.functions _ hmem, (hs.relativePath_of_grows hs' g hf hk).trans hpath⟩

/-- A file without functions has none of any name. -/
theorem functionNamed_eq_none {f : FileRevision} (hf : s.files.get? f.id = some f)
    (hempty : f.functions = ∅) (name : String) : s.functionNamed f.id name = none := by
  unfold functionNamed
  rw [hf, Option.bind_some, Option.map_eq_none_iff, List.find?_eq_none, hempty]
  intro g _
  have hnot : (∅ : SortedSet NodeId).contains g.id = false := by rfl
  simp [hnot]

section Meant

variable {x : SpanFact}

/-- The root of an application is a directory. -/
theorem Sound.exists_root (hs : s.Sound owner n) {token name : String} {a : Application}
    (ha : s.findApplication token name = some a) :
    ∃ root ∈ s.directories, root.id = a.rootDirectory := by
  obtain ⟨root, hroot, -⟩ := (hs.fitting.applications a (Sorted.mem_of_find?_pair ha).1).root
  exact ⟨root, Sorted.mem_of_get? hroot, Sorted.key_of_get? hroot⟩

theorem Sound.filePath_of_grows (hs : s.Sound owner n) (hs' : s'.Sound owner m) (g : s.Grows s')
    (happ : s'.findApplication x.landscapeToken x.applicationName
      = s.findApplication x.landscapeToken x.applicationName) : s'.filePath x = s.filePath x := by
  unfold filePath
  rw [happ]
  cases ha : s.findApplication x.landscapeToken x.applicationName with
  | none => rfl
  | some a =>
    obtain ⟨root, hroot, hid⟩ := hs.exists_root ha
    simp only [← hid, hs.trees.namesAbove_of_grows hs'.trees g.directories hroot]

/-- A fact means the same function as before if no other file comes to the place of its file, and
the function of its name there is the same. -/
theorem Sound.functionMeant_of_grows (hs : s.Sound owner n) (hs' : s'.Sound owner m)
    (g : s.Grows s') (hcommits : s'.commits = s.commits)
    (happ : s'.findApplication x.landscapeToken x.applicationName
      = s.findApplication x.landscapeToken x.applicationName)
    (hold : ∀ a, s.findApplication x.landscapeToken x.applicationName = some a →
      ∀ f' ∈ s'.files, s'.place f' = s.placeBelow a.rootDirectory x.path →
        ∃ f ∈ s.files, f.id = f'.id)
    (hnamed : ∀ a file name, s.findApplication x.landscapeToken x.applicationName = some a →
      s.tracedFileAt x.landscapeToken a.rootDirectory x.path (nonEmpty x.commitId) = some file →
      (splitName x.functionFqn).getLast? = some name →
      s'.functionNamed file name = s.functionNamed file name) :
    s'.functionMeant x = s.functionMeant x := by
  unfold functionMeant
  rw [happ]
  cases ha : s.findApplication x.landscapeToken x.applicationName with
  | none => rfl
  | some a =>
    obtain ⟨root, hroot, hid⟩ := hs.exists_root ha
    have htraced := hs.tracedFileAt_of_grows hs' g hcommits hroot x.landscapeToken
      (nonEmpty x.commitId) (fun f' hf' hplace => hold a ha f' hf' (hid ▸ hplace))
    rw [Option.bind_some, Option.bind_some, ← hid, htraced]
    cases hfile : s.tracedFileAt x.landscapeToken root.id x.path (nonEmpty x.commitId) with
    | none => rfl
    | some file =>
      cases hname : (splitName x.functionFqn).getLast? with
      | none => rfl
      | some name => exact hnamed a file name ha (hid ▸ hfile) hname

end Meant

/-- Whatever else changes, a fact means functions in the same files as before if the files and
commits are the same, and its application. -/
theorem Sound.pathsMeant_of_sameFiles (hs : s.Sound owner n) (hs' : s'.Sound owner m)
    (g : s.Grows s') (hfiles : s'.files = s.files) (hcommits : s'.commits = s.commits)
    {x : SpanFact} (happ : s'.findApplication x.landscapeToken x.applicationName
      = s.findApplication x.landscapeToken x.applicationName) :
    s'.pathsMeant x = s.pathsMeant x := by
  refine KeepsPlaces.pathsMeant_congr ?_ (fun _ => hs.filePath_of_grows hs' g happ) fun id _ =>
    hs.pathsOf_of_grows hs' g fun f' hf' hmem => ⟨f', hfiles ▸ hf', rfl, hmem⟩
  refine hs.functionMeant_of_grows hs' g hcommits happ
    (fun a _ f' hf' _ => ⟨f', hfiles ▸ hf', rfl⟩) fun a file name _ hfile _ => ?_
  obtain ⟨f, hf, rfl, -⟩ := mem_of_tracedFileAt hfile
  have hget := Sorted.get?_key hf
  exact hs.functionNamed_of_grows g hget (hfiles ▸ hget) rfl name

theorem Sound.keepsPlaces (hs : s.Sound owner n) (hs' : s'.Sound owner m) (g : s.Grows s')
    (hfiles : s'.files = s.files) (hcommits : s'.commits = s.commits)
    (happs : s'.applications = s.applications) : s.KeepsPlaces s' where
  pathsMeant x := hs.pathsMeant_of_sameFiles hs' g hfiles hcommits (by
    unfold findApplication
    rw [happs])
  pathsOf x _ := hs.pathsOf_of_grows hs' g fun f' hf' hmem => ⟨f', hfiles ▸ hf', rfl, hmem⟩

/-- A new file comes to a place where there has been none. -/
theorem Sound.keepsPlaces_of_addsFile (hs : s.Sound owner n) (hs' : s'.Sound owner m)
    (g : s.Grows s') {f : FileRevision} (hadds : s.AddsFile f s')
    (hfree : ∀ x ∈ s.files, s.place x ≠ s'.place f) : s.KeepsPlaces s' := by
  have hcommits : s'.commits = s.commits := hadds.beside.congr commits
  have hfind : s'.findApplication = s.findApplication :=
    hadds.beside.congr findApplication
  have hnew : ∀ f' ∈ s'.files, f' = f ∨ f' ∈ s.files := by
    intro f' hf'
    rw [hadds.files] at hf'
    exact (Sorted.mem_insert.1 hf').imp_right And.left
  have hpaths : ∀ id, s'.pathsOf id = s.pathsOf id := by
    intro id
    refine hs.pathsOf_of_grows hs' g fun f' hf' hmem => ?_
    rcases hnew f' hf' with rfl | hf'
    · rw [hadds.functions] at hmem
      exact absurd hmem (Sorted.not_mem_empty id)
    · exact ⟨f', hf', rfl, hmem⟩
  refine ⟨fun x => ?_, fun x _ => hpaths x.id⟩
  have happ := congrFun (congrFun hfind x.landscapeToken) x.applicationName
  refine KeepsPlaces.pathsMeant_congr ?_ (fun _ => hs.filePath_of_grows hs' g happ)
    fun id _ => hpaths id
  by_cases hhere : ∃ a, s.findApplication x.landscapeToken x.applicationName = some a ∧
      s'.place f = s.placeBelow a.rootDirectory x.path
  · -- the fact means the new file, which has no functions yet
    obtain ⟨a, ha, hplace⟩ := hhere
    obtain ⟨root, hroot, hid⟩ := hs.exists_root ha
    have hbefore : s.tracedFileAt x.landscapeToken a.rootDirectory x.path (nonEmpty x.commitId)
        = none := tracedFileAt_eq_none fun y hy => hplace ▸ hfree y hy
    unfold functionMeant
    rw [happ, ha, Option.bind_some, Option.bind_some, hbefore, Option.bind_none,
      Option.bind_eq_none_iff]
    intro file hfile
    obtain ⟨y, hy, rfl, hyplace⟩ := mem_of_tracedFileAt hfile
    rw [← hid, hs.placeBelow_of_grows hs' g hroot, hid, ← hplace] at hyplace
    rcases hnew y hy with rfl | hy
    · cases hname : (splitName x.functionFqn).getLast? with
      | none => rfl
      | some name => exact functionNamed_eq_none (Sorted.get?_key hy) hadds.functions name
    · exact absurd ((hs.place_of_grows hs' g hy .rfl).symm.trans hyplace) (hfree y hy)
  · refine hs.functionMeant_of_grows hs' g hcommits happ ?_ ?_
    · intro a ha f' hf' hplace
      rcases hnew f' hf' with rfl | hf'
      · exact absurd ⟨a, ha, hplace⟩ hhere
      · exact ⟨f', hf', rfl⟩
    · intro a file name _ hfile _
      obtain ⟨y, hy, rfl, -⟩ := mem_of_tracedFileAt hfile
      have hget := Sorted.get?_key hy
      have hne : y.id ≠ f.id := by
        intro he
        rw [he, hadds.fresh] at hget
        cases hget
      refine hs.functionNamed_of_grows g hget ?_ rfl name
      rw [hadds.files, Sorted.get?_insert_of_ne hne, hget]

theorem Sound.keepsContents_of_addsFile (hs : s.Sound owner n) (hs' : s'.Sound owner m)
    (g : s.Grows s') {f : FileRevision} (hadds : s.AddsFile f s')
    (hfree : ∀ x ∈ s.files, s.place x ≠ s'.place f) : s.KeepsContents s' where
  functions := hadds.beside.congr functions
  files y hy := by
    have hne : y.id ≠ f.id := by
      intro he
      have hget := Sorted.get?_key hy
      rw [he, hadds.fresh] at hget
      cases hget
    rw [hadds.files, Sorted.get?_insert_of_ne hne, Sorted.get?_key hy]
  meant q y hy := by
    have hfind : s'.findApplication = s.findApplication := hadds.beside.congr findApplication
    unfold fileMeant
    rw [hfind]
    cases ha : s.findApplication q.landscapeToken q.applicationName with
    | none => exact .rfl
    | some a =>
      obtain ⟨root, hroot, hid⟩ := hs.exists_root ha
      rw [Option.bind_some, Option.bind_some, ← hid]
      by_cases hplace : s'.place f = s.placeBelow root.id q.path
      · -- the fact has meant no file, and means the new one
        have hbefore : s.tracedFileAt q.landscapeToken root.id q.path (nonEmpty q.commitId)
            = none :=
          tracedFileAt_eq_none fun x hx => hplace ▸ hfree x hx
        have hafter : s'.tracedFileAt q.landscapeToken root.id q.path (nonEmpty q.commitId)
            ≠ some y.id := by
          intro hmeant
          obtain ⟨x, hx, hxid, hxplace⟩ := mem_of_tracedFileAt hmeant
          rw [hs.placeBelow_of_grows hs' g hroot, ← hplace] at hxplace
          rw [hadds.files] at hx
          rcases Sorted.mem_insert.1 hx with rfl | ⟨hx, -⟩
          · have hget := Sorted.get?_key hy
            rw [← hxid, hadds.fresh] at hget
            cases hget
          · exact hfree x hx ((hs.place_of_grows hs' g hx .rfl).symm.trans hxplace)
        rw [hbefore]
        simp [hafter]
      · rw [hs.tracedFileAt_of_grows hs' g (hadds.beside.congr commits) hroot q.landscapeToken
          (nonEmpty q.commitId) fun x hx hxplace => ?_]
        rw [hadds.files] at hx
        rcases Sorted.mem_insert.1 hx with rfl | ⟨hx, -⟩
        · exact absurd hxplace hplace
        · exact ⟨x, hx, rfl⟩

/-- The application that is found after a new one has come in. -/
theorem Sound.findApplication_withTracedApplication {t name : String} (hs : s.Sound owner n)
    (g : s.Grows (s.withTracedApplication t name)) (hfresh : s.findApplication t name = none)
    (token app : String) : (s.withTracedApplication t name).findApplication token app
      = if (t, name) = (token, app) then
          some { id := ⟨s.nextId + 1⟩, token := t, name, rootDirectory := ⟨s.nextId⟩ }
        else s.findApplication token app :=
  hs.keyed.findApplication_insert g rfl hfresh token app

/-- All files are below roots that have been there before. -/
theorem Sound.tracedFileAt_newRoot {t name : String} (hs : s.Sound owner n)
    (hs' : (s.withTracedApplication t name).Sound owner m)
    (g : s.Grows (s.withTracedApplication t name)) (hnew : s.directories.get? ⟨s.nextId⟩ = none)
    (token : String) (path : List String) (hash : Option String) :
    (s.withTracedApplication t name).tracedFileAt token ⟨s.nextId⟩ path hash = none := by
  have hroot : { id := ⟨s.nextId⟩, name := tracedRoot }
      ∈ (s.withTracedApplication t name).directories := Sorted.mem_insert_self _ _
  refine tracedFileAt_eq_none fun f hf hplace => ?_
  have hf : f ∈ s.files := hf
  obtain ⟨p, e, hp, he, -⟩ := (hs.fitting.files f hf).parent
  obtain ⟨top, htop, habove⟩ := hs.exists_topAbove e (Sorted.mem_of_get? he)
  have htops : s.topAbove f.parent = some ⟨s.nextId⟩ := by
    rw [← hs.fileTop_of_grows hs' g hf .rfl, ← hs'.trees.topAbove_top hroot rfl]
    exact congrArg Prod.fst hplace
  rw [hp, ← Sorted.key_of_get? he, habove] at htops
  rw [← Option.some.inj htops, Sorted.get?_key htop] at hnew
  cases hnew

theorem Sound.keepsContents_withTracedApplication {t name : String} (hs : s.Sound owner n)
    (hs' : (s.withTracedApplication t name).Sound owner m)
    (g : s.Grows (s.withTracedApplication t name)) (hfresh : s.findApplication t name = none)
    (hnew : s.directories.get? ⟨s.nextId⟩ = none) :
    s.KeepsContents (s.withTracedApplication t name) where
  functions := rfl
  files y hy := Sorted.get?_key hy
  meant q y hy := by
    unfold fileMeant
    rw [hs.findApplication_withTracedApplication g hfresh]
    split
    case isTrue => exact .rfl
    case isFalse =>
      split
      case isTrue hthis =>
        obtain ⟨rfl, rfl⟩ := Prod.ext_iff.1 hthis
        rw [hfresh, Option.bind_some, hs.tracedFileAt_newRoot hs' g hnew]
        exact .rfl
      case isFalse =>
        cases ha : s.findApplication q.landscapeToken q.applicationName with
        | none => exact .rfl
        | some a =>
          obtain ⟨root, hroot, hid⟩ := hs.exists_root ha
          rw [Option.bind_some, Option.bind_some, ← hid, hs.tracedFileAt_of_grows hs' g rfl hroot
            q.landscapeToken (nonEmpty q.commitId) fun f hf _ => ⟨f, hf, rfl⟩]

/-- A new application has no files yet. -/
theorem Sound.keepsPlaces_withTracedApplication {t name : String} (hs : s.Sound owner n)
    (hs' : (s.withTracedApplication t name).Sound owner m)
    (g : s.Grows (s.withTracedApplication t name)) (hfresh : s.findApplication t name = none)
    (hnew : s.directories.get? ⟨s.nextId⟩ = none) :
    s.KeepsPlaces (s.withTracedApplication t name) := by
  have hroot : { id := ⟨s.nextId⟩, name := tracedRoot }
      ∈ (s.withTracedApplication t name).directories := Sorted.mem_insert_self _ _
  have hfind := hs.findApplication_withTracedApplication g hfresh
  have hpaths : ∀ id, (s.withTracedApplication t name).pathsOf id = s.pathsOf id :=
    fun id => hs.pathsOf_of_grows hs' g fun f' hf' hmem => ⟨f', hf', rfl, hmem⟩
  refine ⟨fun x => ?_, fun x _ => hpaths x.id⟩
  by_cases hthis : (t, name) = (x.landscapeToken, x.applicationName)
  · have hnone : s.findApplication x.landscapeToken x.applicationName = none := by
      obtain ⟨rfl, rfl⟩ := Prod.ext_iff.1 hthis
      exact hfresh
    have happ := hfind x.landscapeToken x.applicationName
    rw [if_pos hthis] at happ
    refine KeepsPlaces.pathsMeant_congr ?_ (fun _ => ?_) fun id _ => hpaths id
    · unfold functionMeant
      rw [happ, hnone, Option.bind_some, hs.tracedFileAt_newRoot hs' g hnew]
      rfl
    · unfold filePath
      rw [happ, hnone]
      simp only [hs'.trees.namesAbove_top hroot rfl, List.nil_append]
  · have happ := hfind x.landscapeToken x.applicationName
    rw [if_neg hthis] at happ
    exact hs.pathsMeant_of_sameFiles hs' g rfl rfl happ

theorem mem_of_functionMeant {q : SpanFact} {id : NodeId} (h : s.functionMeant q = some id) :
    ∃ z ∈ s.functions, z.id = id := by
  obtain ⟨a, -, h⟩ := Option.bind_eq_some_iff.1 h
  obtain ⟨file, -, h⟩ := Option.bind_eq_some_iff.1 h
  obtain ⟨name, -, h⟩ := Option.bind_eq_some_iff.1 h
  obtain ⟨f, -, h⟩ := Option.bind_eq_some_iff.1 h
  obtain ⟨z, hz, rfl⟩ := Option.map_eq_some_iff.1 h
  exact ⟨z, List.mem_of_find?_eq_some hz, rfl⟩

/-- A new function has come into the store and into a file. -/
structure AddsFunction (s : Store) (f : FileRevision) (x : FunctionNode) (s' : Store) : Prop where
  files : s'.files = s.files.insert { f with functions := f.functions.insert x.id }
  functions : s'.functions = s.functions.insert x
  fresh : s.functions.get? x.id = none
  commits : s'.commits = s.commits
  applications : s'.applications = s.applications

namespace AddsFunction

variable {f : FileRevision} {x : FunctionNode}

theorem old_or_new (h : s.AddsFunction f x s') :
    ∀ y ∈ s'.files, y = { f with functions := f.functions.insert x.id } ∨
      y ∈ s.files ∧ y.id ≠ f.id := by
  intro y hy
  rw [h.files] at hy
  exact Sorted.mem_insert.1 hy

theorem ne (h : s.AddsFunction f x s') : ∀ z ∈ s.functions, z.id ≠ x.id :=
  fun z hz he => Sorted.get?_eq_none_iff.1 h.fresh z hz he

/-- The new function is in its file only. -/
theorem pathsOf_new (h : s.AddsFunction f x s') (hs : s.Sound owner n) (hs' : s'.Sound owner m)
    (g : s.Grows s') (hf : f ∈ s.files) : s'.pathsOf x.id = Sorted.ofList [s.relativePath f] := by
  have hpath : s'.relativePath { f with functions := f.functions.insert x.id }
      = s.relativePath f := hs.relativePath_of_grows hs' g hf
    { FileRevision.Kept.rfl with functions := fun _ hx => SortedSet.mem_insert.2 (.inr hx) }
  refine SortedSet.ext_mem fun path => ?_
  rw [mem_pathsOf, SortedSet.mem_ofList, List.mem_singleton]
  constructor
  case mp =>
    rintro ⟨y, hy, hmem, rfl⟩
    rcases h.old_or_new y hy with rfl | ⟨hy, -⟩
    · exact hpath
    · obtain ⟨z, hz, -⟩ := (hs.fitting.files y hy).functions x.id hmem
      rw [h.fresh] at hz
      cases hz
  case mpr =>
    rintro rfl
    exact ⟨_, h.files ▸ Sorted.mem_insert_self _ _, SortedSet.mem_insert.2 (.inl rfl), hpath⟩

/-- Old functions stay in their files. -/
theorem pathsOf_old (h : s.AddsFunction f x s') (hs : s.Sound owner n) (hs' : s'.Sound owner m)
    (g : s.Grows s') (hf : f ∈ s.files) {id : NodeId} (hid : id ≠ x.id) :
    s'.pathsOf id = s.pathsOf id := by
  refine hs.pathsOf_of_grows hs' g fun y hy hmem => ?_
  rcases h.old_or_new y hy with rfl | ⟨hy, -⟩
  · exact ⟨f, hf, rfl, (SortedSet.mem_insert.1 hmem).resolve_left hid⟩
  · exact ⟨y, hy, rfl, hmem⟩

/-- The new function is the one of its name. -/
theorem functionNamed_new (h : s.AddsFunction f x s') (hf : f ∈ s.files)
    (hfree : s.functionNamed f.id x.name = none) : s'.functionNamed f.id x.name = some x.id := by
  have hget : s'.files.get? f.id = some { f with functions := f.functions.insert x.id } := by
    rw [h.files]
    exact Sorted.get?_insert_self s.files { f with functions := f.functions.insert x.id }
  unfold functionNamed at hfree ⊢
  rw [Sorted.get?_key hf, Option.bind_some, Option.map_eq_none_iff, List.find?_eq_none] at hfree
  rw [hget, Option.bind_some, h.functions]
  have hfind : (s.functions.insert x).toList.find? (fun z =>
      SortedSet.contains (f.functions.insert x.id) z.id ∧ z.name = x.name) = some x := by
    refine Sorted.find?_of_unique (Sorted.mem_insert_self _ x) ?_ fun z hz hP => ?_
    · simp [SortedSet.contains_iff, SortedSet.mem_insert]
    · rcases Sorted.mem_insert.1 hz with rfl | ⟨hz, hne⟩
      · rfl
      · refine absurd ?_ (hfree z hz)
        simpa [SortedSet.contains_iff, SortedSet.mem_insert, hne] using hP
  rw [hfind]
  rfl

/-- The functions of other names and of other files are the same. -/
theorem functionNamed_old (h : s.AddsFunction f x s') (hs : s.Sound owner n) (g : s.Grows s')
    (hf : f ∈ s.files) {y : FileRevision} (hy : y ∈ s.files) {name : String}
    (hother : y.id ≠ f.id ∨ name ≠ x.name) :
    s'.functionNamed y.id name = s.functionNamed y.id name := by
  by_cases hfile : y.id = f.id
  · obtain rfl := Sorted.eq_of_key_eq hy hf hfile
    have hname := hother.resolve_left (fun hne => hne rfl)
    have hget : s'.files.get? y.id = some { y with functions := y.functions.insert x.id } := by
      rw [h.files]
      exact Sorted.get?_insert_self s.files { y with functions := y.functions.insert x.id }
    unfold functionNamed
    rw [hget, Sorted.get?_key hy, Option.bind_some, Option.bind_some, h.functions]
    refine map_find?_congr fun id => ?_
    simp only [decide_eq_true_eq, SortedSet.contains_iff, SortedSet.mem_insert]
    constructor
    case mp =>
      rintro ⟨z, hz, rfl, hmem, rfl⟩
      rcases Sorted.mem_insert.1 hz with rfl | ⟨hz, hne⟩
      · exact absurd rfl hname
      · exact ⟨z, hz, rfl, hmem.resolve_left hne, rfl⟩
    case mpr =>
      rintro ⟨z, hz, rfl, hmem, rfl⟩
      exact ⟨z, Sorted.mem_insert.2 (.inr ⟨hz, h.ne z hz⟩), rfl, .inr hmem, rfl⟩
  · have hget := Sorted.get?_key hy
    refine hs.functionNamed_of_grows g hget ?_ rfl name
    rw [h.files, Sorted.get?_insert, if_neg hfile, hget]

/-- All files have been there before. -/
theorem files_old (h : s.AddsFunction f x s') (hf : f ∈ s.files) :
    ∀ y' ∈ s'.files, ∃ y ∈ s.files, y.id = y'.id := by
  intro y' hy'
  rcases h.old_or_new y' hy' with rfl | ⟨hy', -⟩
  · exact ⟨f, hf, rfl⟩
  · exact ⟨y', hy', rfl⟩

theorem findApplication (h : s.AddsFunction f x s') : s'.findApplication = s.findApplication := by
  unfold Store.findApplication
  rw [h.applications]

/-- A fact that means a function with the new one's name in its file means the new one. -/
theorem functionMeant_new (h : s.AddsFunction f x s') (hs : s.Sound owner n)
    (hs' : s'.Sound owner m) (g : s.Grows s') (hf : f ∈ s.files)
    (hfree : s.functionNamed f.id x.name = none) {q : SpanFact} {a : Application}
    (ha : s.findApplication q.landscapeToken q.applicationName = some a)
    (htraced : s.tracedFileAt q.landscapeToken a.rootDirectory q.path (nonEmpty q.commitId)
      = some f.id) (hname : (splitName q.functionFqn).getLast? = some x.name) :
    s'.functionMeant q = some x.id := by
  obtain ⟨root, hroot, hid⟩ := hs.exists_root ha
  have htraced' : s'.tracedFileAt _ _ q.path _ = _ := hs.tracedFileAt_of_grows hs' g h.commits
    hroot q.landscapeToken (nonEmpty q.commitId) fun y hy _ => h.files_old hf y hy
  unfold functionMeant
  rw [h.findApplication, ha, Option.bind_some, ← hid, htraced', hid, htraced, Option.bind_some,
    hname, Option.bind_some, h.functionNamed_new hf hfree]

/-- The new function is given to the file that a fact means. -/
theorem gives (h : s.AddsFunction f x s') (hs : s.Sound owner n) (g : s.Grows s') (hf : f ∈ s.files)
    (hfree : s.functionNamed f.id x.name = none) {q : SpanFact}
    (hmeant : s.fileMeant q = some f.id)
    (hx : x = { id := x.id, name := x.name, fqn := some q.functionFqn }) :
    s.GivesFunction q x s' where
  named y hy name := by
    rw [hmeant]
    by_cases hthis : some f.id = some y.id ∧ x.name = name
    · obtain ⟨hid, rfl⟩ := hthis
      rw [if_pos ⟨hid, rfl⟩, ← Option.some.inj hid]
      exact h.functionNamed_new hf hfree
    · rw [if_neg hthis]
      refine h.functionNamed_old hs g hf hy (not_and_or.1 fun hboth => ?_)
      exact hthis ⟨congrArg some hboth.1.symm, hboth.2.symm⟩
  old_or_new y hy hmeant' := by
    rw [← Option.some.inj (hmeant.symm.trans hmeant')]
    exact .inr ⟨hfree, hx⟩

/-- A new function comes into a file that has had none of its name. -/
theorem keepsPlaces (h : s.AddsFunction f x s') (hs : s.Sound owner n) (hs' : s'.Sound owner m)
    (g : s.Grows s') (hf : f ∈ s.files) (hfree : s.functionNamed f.id x.name = none) :
    s.KeepsPlaces s' := by
  refine ⟨fun q => ?_, fun z hz => h.pathsOf_old hs hs' g hf (h.ne z hz)⟩
  have happ := congrFun (congrFun h.findApplication q.landscapeToken) q.applicationName
  by_cases hthis : ∃ a, s.findApplication q.landscapeToken q.applicationName = some a ∧
      s.tracedFileAt q.landscapeToken a.rootDirectory q.path (nonEmpty q.commitId) = some f.id ∧
      (splitName q.functionFqn).getLast? = some x.name
  · -- the fact means the new function, which is where it would have come
    obtain ⟨a, ha, htraced, hname⟩ := hthis
    have hbefore : s.functionMeant q = none := by
      unfold functionMeant
      rw [ha, Option.bind_some, htraced, Option.bind_some, hname, Option.bind_some, hfree]
    have hafter := h.functionMeant_new hs hs' g hf hfree ha htraced hname
    obtain ⟨y, hy, hyid, hplace⟩ := mem_of_tracedFileAt htraced
    obtain rfl := Sorted.eq_of_key_eq hy hf hyid
    have hpath : s.filePath q = s.relativePath y := by
      unfold filePath
      rw [ha]
      exact (congrArg Prod.snd hplace).symm
    unfold pathsMeant
    rw [hbefore, hafter]
    simp only [pathsIn, h.pathsOf_new hs hs' g hf, hpath]
  · refine KeepsPlaces.pathsMeant_congr ?_ (fun _ => hs.filePath_of_grows hs' g happ) ?_
    · refine hs.functionMeant_of_grows hs' g h.commits happ
        (fun a _ y hy _ => h.files_old hf y hy) ?_
      intro a file name ha hfile hname
      obtain ⟨y, hy, rfl, -⟩ := mem_of_tracedFileAt hfile
      refine h.functionNamed_old hs g hf hy (not_and_or.1 fun hboth => ?_)
      exact hthis ⟨a, ha, hboth.1 ▸ hfile, hboth.2 ▸ hname⟩
    · intro id hid
      obtain ⟨z, hz, rfl⟩ := mem_of_functionMeant hid
      exact h.pathsOf_old hs hs' g hf (h.ne z hz)

end AddsFunction

end Store
end Cityscape
