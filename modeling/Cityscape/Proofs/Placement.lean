import Cityscape.Proofs.Files
import Cityscape.Proofs.Meanings

/-!
# `Placement`: the application, file and function of a span

A span may add an application with a root of its own, directories and a file below the root of an
application, and a function. What it adds belongs to its landscape, because the root of an
application does. The function that it ends at is in the files in which its fact has meant it to
be, and all other facts mean what they have meant before (`Placed`).
-/

namespace Cityscape

namespace Store

variable {s s' s'' : Store}

/-- The applications, traces and spans are the same. -/
structure SameRecords (s s' : Store) : Prop where
  applications : s'.applications = s.applications
  traces : s'.traces = s.traces
  spans : s'.spans = s.spans

theorem SameRecords.rfl : s.SameRecords s := ⟨.refl _, .refl _, .refl _⟩

theorem SameRecords.trans (h : s.SameRecords s') (h' : s'.SameRecords s'') : s.SameRecords s'' :=
  ⟨h'.applications.trans h.applications, h'.traces.trans h.traces, h'.spans.trans h.spans⟩

theorem SameRecords.findApplication (h : s.SameRecords s') :
    s'.findApplication = s.findApplication := by
  unfold Store.findApplication
  rw [h.applications]

theorem AddsFile.sameRecords {f : FileRevision} (h : s.AddsFile f s') : s.SameRecords s' :=
  ⟨h.beside.congr Store.applications, h.beside.congr Store.traces, h.beside.congr Store.spans⟩

end Store

/-- The function of a span fact is there, in the files in which it has been meant to be. -/
structure Placed (owner : NodeId → String) (s : Store) (f : SpanFact) (g : FunctionNode)
    (s' : Store) : Prop where
  stored : s'.functions.get? g.id = some g
  own : owner g.id = f.landscapeToken
  name : (splitName f.functionFqn).getLast? = some g.name
  paths : s'.pathsOf g.id = s.pathsMeant f
  keeps : s.KeepsPlaces s'
  records : s.SameRecords s'

theorem Placed.splitName_ne_nil {owner : NodeId → String} {s s' : Store} {f : SpanFact}
    {g : FunctionNode} (h : Placed owner s f g s') : splitName f.functionFqn ≠ [] :=
  fun hnil => by
    have hname := h.name
    rw [hnil] at hname
    cases hname

/-- The function is the one that a span fact finds, as soon as a span of its landscape calls it. -/
structure Store.FoundBy (s : Store) (f : SpanFact) (g : FunctionNode) : Prop where
  inFile : f.path ≠ [] → s.functionMeant f = some g.id
  qualified : f.path = [] → g.fqn = some f.functionFqn
  /-- The functions with the qualified name that spans call already are not older. -/
  first : f.path = [] → ∀ z ∈ s.functions, z.id ∈ s.tracedFunctionIds f.landscapeToken →
    z.fqn = some f.functionFqn → g.id.val ≤ z.id.val

namespace Edit

variable {owner : NodeId → String} {t : String} {n : Nat} {s : Store}

/-! ## The application -/

/-- An application that is not known gets a root of its own. -/
theorem applicationNamed_of_none {name : String}
    (hnew : s.directories.get? ⟨s.nextId⟩ = none) (hfind : s.findApplication t name = none) :
    applicationNamed t name s
      = { result := .ok
            { id := ⟨s.nextId + 1⟩, token := t, name, rootDirectory := ⟨s.nextId⟩ }
          store := s.withTracedApplication t name
          issued := 2 } := by
  let root : Directory := { id := ⟨s.nextId⟩, name := tracedRoot }
  -- the root comes before the application, and no other application has it
  have hsave : Store.saveDirectory { s with nextId := s.nextId + 1 } root
      = { s with nextId := s.nextId + 1, directories := s.directories.insert root } := by
    unfold Store.saveDirectory
    rw [show Sorted.get? _ root.id = none from hnew]
  have hmerge := Store.mergeApplication_of_none
    (s := { s with nextId := s.nextId + 1 + 1, directories := s.directories.insert root })
    (a := { id := ⟨s.nextId + 1⟩, token := t, name, rootDirectory := root.id }) hfind
  unfold applicationNamed
  rw [store_bind, hfind]
  simp only
  rw [bind_of_ok (allocate_apply s)]
  simp only
  rw [bind_of_ok (change_apply _ _), show Store.saveDirectory _ _ = _ from hsave,
    bind_of_ok (allocate_apply _)]
  simp only
  rw [step_apply, show Store.mergeApplication _ _ = _ from hmerge]
  rfl

theorem issued_applicationNamed_pos {name : String} (hfind : s.findApplication t name = none) :
    0 < (applicationNamed t name s).issued := by
  unfold applicationNamed
  rw [store_bind, hfind]
  simp only
  rw [bind_of_ok (allocate_apply s)]
  exact Nat.lt_of_lt_of_le Nat.one_pos (Nat.le_add_right ..)

theorem runs_applicationNamed (h : Ready owner t n s) {name : String} :
    Runs owner t .span (applicationNamed t name) n s
      (fun a s' => s'.findApplication t name = some a ∧ s.KeepsPlaces s' ∧ s.KeepsContents s' ∧
        s'.traces = s.traces ∧ s'.spans = s.spans) fun _ => False := by
  cases hfind : s.findApplication t name with
  | some a =>
    unfold applicationNamed
    refine Runs.store_bind ?_
    rw [hfind]
    exact Runs.pure ⟨hfind, .rfl, .rfl, rfl, rfl⟩
  | none =>
    refine Runs.of_issued_pos (issued_applicationNamed_pos hfind) fun hn => ?_
    have hnew := h.sound.numbered.get?_next hn h.sound.numbered.directories
    refine Runs.of_step h (applicationNamed_of_none hnew hfind)
      (fun hn => .newTracedApplication (Sorted.find?_pair_eq_none_iff.1 hfind)
        (h.own_next (by omega)) (h.own_next_next hn)) fun h' g => ?_
    refine ⟨?_, h.sound.keepsPlaces_withTracedApplication h'.sound g hfind hnew,
      h.sound.keepsContents_withTracedApplication h'.sound g hfind hnew, rfl, rfl⟩
    rw [h.sound.findApplication_withTracedApplication g hfind, if_pos rfl]

/-! ## The file -/

/-- The file of a commit at a path is read off the store, wherever the count of ids is. -/
theorem fileInCommit_apply (hs : s.Sound owner n) {root : Directory} (hroot : root ∈ s.directories)
    {path : List String} (hne : path ≠ []) (t : String) (hash : Option String) :
    ∃ o : Option FileRevision, (∀ f, o = some f → f ∈ s.files ∧ owner f.id = owner root.id) ∧
      o.map FileRevision.id = ((hash.bind (s.findCommit t)).bind fun c =>
        s.fileAt (fun id => c.fileRevisions.contains id) root.id path) ∧
      ∀ id, fileInCommit root.id path t hash { s with nextId := id }
        = { result := .ok o, store := { s with nextId := id } } := by
  have hresolve : ∀ id, ({ s with nextId := id } : Store).resolve = s.resolve :=
    fun _ => Store.resolve_congr rfl rfl rfl
  have hfindCommit : ∀ id, ({ s with nextId := id } : Store).findCommit = s.findCommit :=
    fun _ => rfl
  unfold fileInCommit
  simp only [store_bind, hfindCommit]
  cases hc : hash.bind (s.findCommit t) with
  | none => exact ⟨none, (fun f hf => by cases hf), rfl, fun _ => rfl⟩
  | some c =>
    obtain ⟨hash, rfl, hfind⟩ := Option.bind_eq_some_iff.1 hc
    obtain ⟨hcommit, -⟩ := hs.keyed.findCommit_eq_some_iff.1 hfind
    obtain ⟨found, hfound, hspec, hat⟩ := hs.resolve_fileAt hroot hne
      (Store.allowedIn_commit (Sorted.get?_key hcommit))
    simp only [store_bind, hresolve, hfound]
    cases hspec with
    -- the commit has no such file
    | @directory before rest e hpath leads blocked =>
      have hrest : rest.isEmpty = false := by simpa using blocked.ne_nil
      simp only [Resolution.isComplete, hrest]
      exact ⟨none, (fun f hf => by cases hf), hat.symm, fun _ => rfl⟩
    | @file before name e f hpath leads mem =>
      obtain ⟨hf, -, hfown⟩ := hs.of_filesNamed (Store.mem_of_leads hroot leads) mem
      refine ⟨some f, fun g hg => ?_, hat.symm, fun _ => rfl⟩
      cases hg
      exact ⟨hf, hfown.trans (hs.owner_of_leads hroot leads)⟩

theorem runs_fileInCommit (h : Ready owner t n s) {root : Directory}
    (hroot : root ∈ s.directories) (hown : owner root.id = t) {path : List String} (hne : path ≠ [])
    {hash : Option String} :
    Runs owner t .span (fileInCommit root.id path t hash) n s
      (fun o s' => s' = s ∧ (∀ f, o = some f → f ∈ s.files ∧ owner f.id = t) ∧
        o.map FileRevision.id = (hash.bind (s.findCommit t)).bind fun c =>
          s.fileAt (fun id => c.fileRevisions.contains id) root.id path) fun _ => False := by
  obtain ⟨o, ho, hat, heq⟩ := fileInCommit_apply h.sound hroot hne t hash
  refine Runs.of_eq (heq s.nextId) (fun _ => .refl) fun _ => ⟨rfl, fun f hf => ?_, hat⟩
  obtain ⟨hf, hfown⟩ := ho f hf
  exact ⟨hf, hfown.trans hown⟩

/-- A file at a path, which is either found or the only one at its place. -/
theorem runs_resolveOrGrow (h : Ready owner t n s) {root : Directory} (hroot : root ∈ s.directories)
    (hown : owner root.id = t) {path : List String} (hne : path ≠ []) :
    Runs owner t .span (resolveOrGrow root.id path .everywhere) n s
      (fun f s' => (f ∈ s'.files ∧ owner f.id = t) ∧ s.KeepsPlaces s' ∧ s.KeepsContents s' ∧
        s.SameRecords s' ∧
        (s' = s ∧ s.fileAt (fun _ => true) root.id path = some f.id ∨
          s'.place f = s'.placeBelow root.id path ∧
            ∀ x ∈ s'.files, s'.place x = s'.placeBelow root.id path → x.id = f.id))
      fun _ => False := by
  obtain ⟨r, hr, hfound, hat⟩ := h.sound.resolve_fileAt hroot hne
    (show s.allowedIn .everywhere = .ok _ from rfl)
  unfold resolveOrGrow
  refine Runs.store_bind ?_
  rw [hr]
  cases hfound with
  | @directory before rest e hpath leads blocked =>
    have hrest : rest.isEmpty = false := by simpa using blocked.ne_nil
    simp only [Resolution.isComplete, hrest, Bool.false_eq_true, if_false]
    -- the path breaks off: what is left of it grows below the directory
    have heown := h.sound.owner_of_leads hroot leads
    refine Runs.imp h (runs_growPath_of_blocked h (.inl rfl) (Store.mem_of_leads hroot leads)
      (heown.trans hown) blocked) ?_
    rintro f n' s' h' g ⟨hf, hfown, -, hnames, htop, hadds⟩
    have hplace : s'.place f = s.placeBelow root.id path := by
      refine Prod.ext (htop.trans (h.sound.trees.topAbove_of_leads hroot leads)) (hnames.trans ?_)
      rw [h.sound.trees.namesAbove_of_leads hroot leads, hpath, List.append_assoc]
      rfl
    have hfree : ∀ x ∈ s.files, s.place x ≠ s'.place f := by
      intro x hx
      rw [hplace]
      exact Store.fileAt_eq_none_iff.1 hat x hx rfl
    rw [← h.sound.placeBelow_of_grows h'.sound g hroot] at hplace
    refine ⟨⟨hf, hfown⟩, h.sound.keepsPlaces_of_addsFile h'.sound g hadds hfree,
      h.sound.keepsContents_of_addsFile h'.sound g hadds hfree, hadds.sameRecords,
      .inr ⟨hplace, fun x hx hxplace => ?_⟩⟩
    rw [hadds.files] at hx
    rcases Sorted.mem_insert.1 hx with rfl | ⟨hx, -⟩
    · rfl
    · rw [h.sound.place_of_grows h'.sound g hx .rfl, ← hplace] at hxplace
      exact absurd hxplace (hfree x hx)
  | @file before name e f hpath leads mem =>
    have heown := h.sound.owner_of_leads hroot leads
    obtain ⟨hf, -, hfown⟩ := h.sound.of_filesNamed (Store.mem_of_leads hroot leads) mem
    exact Runs.pure ⟨⟨hf, hfown.trans (heown.trans hown)⟩, .rfl, .rfl, .rfl, .inl ⟨rfl, hat⟩⟩

theorem runs_tracedFile (h : Ready owner t n s) {root : Directory} (hroot : root ∈ s.directories)
    (hown : owner root.id = t) {path : List String} (hne : path ≠ []) {hash : Option String} :
    Runs owner t .span (tracedFile root.id path t hash) n s
      (fun f s' => (f ∈ s'.files ∧ owner f.id = t) ∧ s.KeepsPlaces s' ∧ s.KeepsContents s' ∧
        s.SameRecords s' ∧ s'.tracedFileAt t root.id path hash = some f.id) fun _ => False := by
  unfold tracedFile
  refine Runs.bind h (runs_fileInCommit h hroot hown hne) ?_
  rintro o n₁ s₁ h₁ - ⟨rfl, ho, hat⟩
  cases o with
  | some f =>
    refine Runs.pure ⟨ho f rfl, .rfl, .rfl, .rfl, ?_⟩
    unfold Store.tracedFileAt
    rw [← hat]
    rfl
  | none =>
    refine Runs.imp h₁ (runs_resolveOrGrow h₁ hroot hown hne) ?_
    rintro f n₂ s₂ - - ⟨hf, hkeeps, hcontents, hrecords, hfound⟩
    refine ⟨hf, hkeeps, hcontents, hrecords, ?_⟩
    rcases hfound with ⟨rfl, hfound⟩ | ⟨hplace, honly⟩
    · unfold Store.tracedFileAt
      rw [← hat]
      exact hfound
    · exact Store.tracedFileAt_eq_some hf.1 hplace honly

/-- An edit that does not fail has a result. -/
theorem runs_ifPlaceable {α : Type} {e : Edit α} {P : α → Store → Prop}
    (h : Ready owner t n s) (he : Runs owner t .span e n s P fun _ => False) :
    Runs owner t .span (ifPlaceable e) n s (fun o s' => ∃ a, o = some a ∧ P a s')
      fun _ => False := by
  refine Runs.orElse (E := fun _ => False) h ?_ fun _ _ _ _ _ => False.elim
  refine Runs.bind h he ?_
  intro a n₁ s₁ _ _ ha
  exact Runs.pure ⟨a, rfl, ha⟩

/-! ## The function -/

theorem runs_createTracedFunction (h : Ready owner t n s) {name fqn : String}
    (hname : (splitName fqn).getLast? = some name) :
    Runs owner t .span (createTracedFunction name fqn) n s
      (fun f s' => f = { id := f.id, name, fqn := some fqn } ∧ owner f.id = t ∧
        s.functions.get? f.id = none ∧
        s' = { s with nextId := s.nextId + 1, functions := s.functions.insert f })
      fun _ => False := by
  refine Runs.allocate_change
    (fun id s => s.saveFunction { id, name, fqn := some fqn })
    (f := fun id => Pure.pure ({ id, name, fqn := some fqn } : FunctionNode)) h
    (fun hn => .newFunction (.inr rfl) rfl (h.own_next hn)
      fun q hq => Option.some.inj hq ▸ hname) ?_
  rintro s' hn rfl h' g hown
  exact Runs.pure ⟨rfl, hown, h.sound.numbered.get?_next hn h.sound.numbered.functions, rfl⟩

/-- The function of a fact that names no file is in no file. -/
theorem runs_detachedFunction {f : SpanFact} (h : Ready owner f.landscapeToken n s) {name : String}
    (hname : (splitName f.functionFqn).getLast? = some name) (hpath : f.path = []) :
    Runs owner f.landscapeToken .span (detachedFunction f.landscapeToken name f.functionFqn) n s
      (fun g s' => Placed owner s f g s' ∧ s'.FoundBy f g ∧ s.GivesFunction f g s')
      fun _ => False := by
  have hmeant : s.pathsMeant f = ∅ := if_pos hpath
  -- the fact means no file, so no file gets the function
  have hgives : ∀ {g : FunctionNode} {s' : Store}, s.Grows s' → s'.files = s.files →
      s.GivesFunction f g s' := fun grows hfiles => by
    have hnone : s.fileMeant f = none := if_pos hpath
    refine .of_same (fun y hy name => ?_) fun y _ hy => ?_
    · have hget := Sorted.get?_key hy
      exact h.sound.functionNamed_of_grows grows hget (hfiles ▸ hget) rfl name
    · rw [hnone] at hy
      cases hy
  unfold detachedFunction
  refine Runs.store_bind ?_
  cases hfind : s.findTracedFunction f.landscapeToken f.functionFqn with
  | none =>
    refine Runs.imp h (runs_createTracedFunction h hname) ?_
    rintro g n₁ s₁ h₁ grows ⟨hg, hown, hnew, rfl⟩
    refine
      ⟨{  stored := Sorted.get?_insert_self s.functions g
          own := hown
          name := hg ▸ hname
          paths := ?_
          keeps := h.sound.keepsPlaces h₁.sound grows rfl rfl rfl
          records := ⟨rfl, rfl, rfl⟩ },
        { inFile := fun hne => absurd hpath hne
          qualified := fun _ => by rw [hg]
          first := fun _ z hz hid hfqn => ?_ },
        hgives grows rfl⟩
    · rw [hmeant]
      refine Store.pathsOf_eq_empty fun x hx hmem => ?_
      obtain ⟨y, hy, -⟩ := (h.sound.fitting.files x hx).functions g.id hmem
      rw [hnew] at hy
      cases hy
    · rcases Sorted.mem_insert.1 hz with rfl | ⟨hz, -⟩
      · exact UInt64.le_refl _
      · exact absurd hfqn (Store.findTracedFunction_eq_none_iff.1 hfind z hz hid)
  | some g =>
    obtain ⟨⟨hg, hid, hfqn⟩, hfirst⟩ := Store.findTracedFunction_eq_some_iff.1 hfind
    obtain ⟨p, hp, htoken, hfunction⟩ := Store.mem_tracedFunctionIds.1 hid
    obtain ⟨-, -, hown⟩ := (h.sound.fitting.spans p hp).function g.id hfunction
    refine Runs.pure
      ⟨{  stored := Sorted.get?_key hg
          own := hown.trans htoken
          name := h.sound.fitting.functions g hg _ hfqn
          paths := ?_
          keeps := .rfl
          records := .rfl },
        { inFile := fun hne => absurd hpath hne
          qualified := fun _ => hfqn
          first := fun _ => hfirst },
        hgives .rfl rfl⟩
    rw [hmeant]
    exact Store.pathsOf_eq_empty fun x hx hmem =>
      (h.sound.fitting.files x hx).inFiles g.id hmem g (Sorted.get?_key hg) _ hfqn hpath

/-- A function of a file with a given name, which is found or comes into the file. -/
theorem runs_functionInFile (h : Ready owner t n s) {file : FileRevision} (hfile : file ∈ s.files)
    (hown : owner file.id = t) {name fqn : String}
    (hname : (splitName fqn).getLast? = some name) (hpath : (splitName fqn).dropLast ≠ []) :
    Runs owner t .span (functionInFile file name fqn) n s
      (fun g s' => (s'.functions.get? g.id = some g ∧ owner g.id = t ∧ g.name = name) ∧
        (s' = s ∧ s.functionNamed file.id name = some g.id ∨
          s.functionNamed file.id name = none ∧ g = { id := g.id, name, fqn := some fqn } ∧
            s.AddsFunction file g s' ∧ s.SameRecords s'))
      fun _ => False := by
  unfold functionInFile
  refine Runs.store_bind ?_
  have fits := h.sound.fitting.files file hfile
  have hlookup : (s.functionsByName file.functions).lookup name = s.functionNamed file.id name := by
    rw [s.lookup_functionsByName, Store.functionNamed_eq (Sorted.get?_key hfile)]
  rw [hlookup]
  cases hnamed : s.functionNamed file.id name with
  | some id =>
    obtain ⟨g, hg, rfl, hmem, hgname⟩ := Store.mem_of_functionNamed hfile hnamed
    obtain ⟨-, -, hgown⟩ := fits.functions g.id hmem
    rw [Option.bind_some, Sorted.get?_key hg]
    exact Runs.pure ⟨⟨Sorted.get?_key hg, hgown.trans hown, hgname⟩, .inl ⟨rfl, rfl⟩⟩
  | none =>
    rw [Option.bind_none]
    refine Runs.bind h (runs_createTracedFunction h hname) ?_
    rintro g n₁ s₁ h₁ grows₁ ⟨hg, hgown, hnew, rfl⟩
    have hstored : (s.functions.insert g).get? g.id = some g := Sorted.get?_insert_self _ g
    -- the qualified name has a path, so the function may be in a file
    have hmay : Store.MayHold owner t
        { s with nextId := s.nextId + 1, functions := s.functions.insert g } g.id := by
      refine ⟨g, hstored, hgown, fun q hq => ?_⟩
      rw [hg] at hq
      cases hq
      exact hpath
    have hget := Sorted.get?_key hfile
    refine Runs.bind h₁ (runs_linkFunction h₁ (by simp) ⟨⟨file, hget⟩, hown⟩ hmay) ?_
    rintro _ n₂ s₂ h₂ grows₂ ⟨x, hx, rfl⟩
    obtain rfl := Option.some.inj (hget.symm.trans hx)
    exact Runs.pure ⟨⟨hstored, hgown, by rw [hg]⟩,
      .inr ⟨rfl, hg, ⟨rfl, rfl, hnew, rfl, rfl⟩, ⟨rfl, rfl, rfl⟩⟩⟩

/-- The function of the file that a fact means is the one that the fact means. -/
theorem placed_of_functionInFile {f : SpanFact} {m : Nat} {s' : Store} (hs : s.Sound owner n)
    (hs' : s'.Sound owner m) (grows : s.Grows s') {a : Application} {file : FileRevision}
    {g : FunctionNode} (ha : s.findApplication f.landscapeToken f.applicationName = some a)
    (hfile : file ∈ s.files)
    (htraced : s.tracedFileAt f.landscapeToken a.rootDirectory f.path (nonEmpty f.commitId)
      = some file.id) (hpath : f.path ≠ [])
    (hlast : (splitName f.functionFqn).getLast? = some g.name)
    (hstored : s'.functions.get? g.id = some g) (hown : owner g.id = f.landscapeToken)
    (hfound : s' = s ∧ s.functionNamed file.id g.name = some g.id ∨
      s.functionNamed file.id g.name = none ∧
        g = { id := g.id, name := g.name, fqn := some f.functionFqn } ∧
        s.AddsFunction file g s' ∧ s.SameRecords s') :
    Placed owner s f g s' ∧ s'.FoundBy f g ∧ s.GivesFunction f g s' := by
  obtain ⟨x, hx, hxid, hplace⟩ := Store.mem_of_tracedFileAt htraced
  obtain rfl := Sorted.eq_of_key_eq hx hfile hxid
  have hmeant : s.functionMeant f = s.functionNamed x.id g.name := by
    unfold Store.functionMeant
    rw [ha, Option.bind_some, htraced, Option.bind_some, hlast, Option.bind_some]
  have hfileMeant : s.fileMeant f = some x.id := by
    unfold Store.fileMeant
    rw [if_neg hpath, ha, Option.bind_some, htraced]
  have hpathOf : s.filePath f = s.relativePath x := by
    unfold Store.filePath
    rw [ha]
    exact (congrArg Prod.snd hplace).symm
  have hpaths : s.pathsMeant f
      = s.pathsIn (s.functionNamed x.id g.name) (s.relativePath x) := by
    unfold Store.pathsMeant
    rw [if_neg hpath, hmeant, hpathOf]
  have hfoundBy : s'.functionMeant f = some g.id → s'.FoundBy f g := fun hmeant =>
    { inFile := fun _ => hmeant
      qualified := fun hnil => absurd hnil hpath
      first := fun hnil => absurd hnil hpath }
  rcases hfound with ⟨rfl, hnamed⟩ | ⟨hnamed, hg, hadds, hrecords⟩
  · refine ⟨⟨hstored, hown, hlast, ?_, .rfl, .rfl⟩, hfoundBy (hmeant.trans hnamed),
      .of_same (fun _ _ _ => rfl) fun y _ hy => ?_⟩
    · rw [hpaths, hnamed]
      rfl
    · rw [← Option.some.inj (hfileMeant.symm.trans hy)]
      exact ⟨hnamed, Sorted.mem_of_get? hstored⟩
  · refine ⟨⟨hstored, hown, hlast, ?_, hadds.keepsPlaces hs hs' grows hfile hnamed, hrecords⟩,
      hfoundBy (hadds.functionMeant_new hs hs' grows hfile hnamed ha htraced hlast),
      hadds.gives hs grows hfile hnamed hfileMeant hg⟩
    rw [hadds.pathsOf_new hs hs' grows hfile, hpaths, hnamed]
    rfl

theorem runs_placeFunction {f : SpanFact} (h : Ready owner f.landscapeToken n s) {a : Application}
    (ha : s.findApplication f.landscapeToken f.applicationName = some a) :
    Runs owner f.landscapeToken .span (placeFunction a.rootDirectory f) n s
      (fun g s' => Placed owner s f g s' ∧ s'.FoundBy f g ∧ s.GivesFunction f g s')
      fun x => splitName f.functionFqn = [] ∧ x = .emptyFunctionName := by
  obtain ⟨hamem, htoken, -⟩ := Sorted.mem_of_find?_pair ha
  obtain ⟨root, hroot, hown⟩ := (h.sound.fitting.applications a hamem).root
  have hrootmem := Sorted.mem_of_get? hroot
  have hid := Sorted.key_of_get? hroot
  unfold placeFunction
  cases hlast : (splitName f.functionFqn).getLast? with
  | none =>
    simp only [hlast]
    exact Runs.fail ⟨List.getLast?_eq_none_iff.1 hlast, rfl⟩
  | some name =>
    simp only [hlast]
    by_cases hempty : f.path = []
    · have hnil : (splitName f.functionFqn).dropLast.isEmpty = true := List.isEmpty_iff.2 hempty
      simp only [hnil, if_true]
      refine Runs.bind h (P := fun o s' => o = none ∧ s' = s) (Runs.pure ⟨rfl, rfl⟩) ?_
      rintro o n₁ s₁ h₁ - ⟨rfl, rfl⟩
      exact (runs_detachedFunction h₁ hlast hempty).never
    · have hne : (splitName f.functionFqn).dropLast.isEmpty = false :=
        Bool.eq_false_iff.2 fun hnil => hempty (List.isEmpty_iff.1 hnil)
      simp only [hne, Bool.false_eq_true, if_false]
      rw [← hid]
      refine Runs.bind h (runs_ifPlaceable h (runs_tracedFile h hrootmem
        ((congrArg owner hid).trans (hown.trans htoken)) hempty)).never ?_
      rintro o n₁ s₁ h₁ grows₁ ⟨file, rfl, ⟨hfile, hfown⟩, hkeeps, hcontents, hrecords, htraced⟩
      rw [hid] at htraced
      refine Runs.imp h₁ (runs_functionInFile h₁ hfile hfown hlast hempty).never ?_
      rintro g n₂ s₂ h₂ grows₂ ⟨⟨hstored, hgown, rfl⟩, hfound⟩
      -- the file is the one that the fact means
      have happ : s₁.findApplication f.landscapeToken f.applicationName = some a := by
        rw [hrecords.findApplication, ha]
      obtain ⟨hplaced, hfoundBy, hgives⟩ := placed_of_functionInFile h₁.sound h₂.sound grows₂ happ
        hfile htraced hempty hlast hstored hgown hfound
      exact ⟨{ hplaced with
        paths := hplaced.paths.trans (hkeeps.pathsMeant f)
        keeps := hkeeps.trans grows₁ hplaced.keeps
        records := hrecords.trans hplaced.records }, hfoundBy, hgives.after hcontents⟩

end Edit
end Cityscape
