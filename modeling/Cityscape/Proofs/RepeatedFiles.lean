import Cityscape.Proofs.Calls
import Cityscape.Proofs.Edges

/-!
# `RepeatedFiles`: telling a file fact again changes nothing at all

A file fact changes the revisions that it means and no others. It may bring classes and functions,
and classes may gain super classes; all else stays as it is (`Store.KeepsBeside`). A revision that
has been described has a class and a function for every name of the fact, so a second run finds
what the first one has left (`FileFact.Told`). It creates nothing, and not even an id is handed
out (`FileFact.still_ingestFile`).
-/

namespace Cityscape

/-! ## Edits that leave the store alone -/

/-- The edit yields the value, changes nothing and hands out no id. -/
def Edit.Still {α : Type} (e : Edit α) (s : Store) (a : α) : Prop :=
  e s = { result := .ok a, store := s, issued := 0 }

namespace Edit.Still

variable {α β : Type} {e : Edit α} {f : α → Edit β} {s : Store} {a : α} {b : β}

theorem pure : Still (pure a : Edit α) s a := rfl

theorem bind (he : Still e s a) (hf : Still (f a) s b) : Still (e >>= f) s b := by
  unfold Still
  rw [bind_of_ok he, hf]
  rfl

theorem store_bind {f : Store → Edit β} (h : Still (f s) s b) : Still (store >>= f) s b := by
  unfold Still
  rw [Edit.store_bind, h]

theorem change {f : Store → Store} (h : f s = s) : Still (change f) s () := by
  unfold Still
  rw [change_apply, h]

/-- An edge that is there is found. -/
theorem mergeEdge {relation : Relation} {x y : NodeId} (h : s.HasEdge relation x y)
    (hy : s.Has relation.target y) (hc : ¬relation.Contains) :
    Still (mergeEdge relation x y) s false :=
  Store.mergeEdge_of_hasEdge h hy (fun h => absurd h hc) fun he => absurd (.inl he) hc

end Edit.Still

/-! ## What stays -/

/-- Repositories, branches, commits, tags, directories, applications and what traces have shown
are the same. -/
structure Store.KeepsOthers (s s' : Store) : Prop where
  repositories : s'.repositories = s.repositories
  branches : s'.branches = s.branches
  commits : s'.commits = s.commits
  tags : s'.tags = s.tags
  directories : s'.directories = s.directories
  applications : s'.applications = s.applications
  traces : s'.traces = s.traces
  spans : s'.spans = s.spans

theorem Store.KeepsOthers.trans {s s' s'' : Store} (h : s.KeepsOthers s')
    (h' : s'.KeepsOthers s'') : s.KeepsOthers s'' where
  repositories := h'.repositories.trans h.repositories
  branches := h'.branches.trans h.branches
  commits := h'.commits.trans h.commits
  tags := h'.tags.trans h.tags
  directories := h'.directories.trans h.directories
  applications := h'.applications.trans h.applications
  traces := h'.traces.trans h.traces
  spans := h'.spans.trans h.spans

section

variable {owner : NodeId → String} {t : String} {j : Nat} {s s' : Store}

theorem Step.keepsOthers (h : Step owner t .file j s s') : s.KeepsOthers s' := by
  cases h with
  | newBranch topic => rcases topic with hk | ⟨_, _, hk⟩ <;> cases hk
  | newDirectory topic => exact absurd rfl topic
  | newFile topic => rcases topic with hk | ⟨_, _, hk⟩ <;> cases hk
  | skip => constructor <;> rfl
  | file => constructor <;> rfl
  | newClass => constructor <;> rfl
  | classNode => constructor <;> rfl
  | newFunction => constructor <;> rfl

theorem Steps.keepsOthers (h : Steps owner t .file j s s') : s.KeepsOthers s' := by
  induction h with
  | refl => constructor <;> rfl
  | tail _ last ih => exact ih.trans last.keepsOthers

end

/-- Beside the given revisions nothing has changed, except that classes and functions may have come
in, and classes may have gained super classes. -/
structure Store.KeepsBeside (s : Store) (revisions : List FileRevision) (s' : Store) : Prop
    extends s.KeepsOthers s' where
  files : ∀ id ∉ revisions.map FileRevision.id, s'.files.get? id = s.files.get? id
  classes : s.classes.Grows ClassNode.Gains s'.classes
  functions : s.functions.Grows Eq s'.functions

/-! ## What has been told -/

/-- Everything that a file fact says of a revision is in the store. -/
structure FileFact.Told (fact : FileFact) (s : Store) (file : FileRevision) : Prop where
  stored : file ∈ s.files
  properties : Edit.described fact file = file
  classes : ∀ c ∈ fact.classes, (s.classes.named ClassNode.name file.classes c.name).isSome
  superClasses : ∀ c ∈ fact.classes, ∀ x ∈ c.superClasses, x ∈ fact.classes.map ClassFact.name →
    ∀ id super, s.classes.named ClassNode.name file.classes c.name = some id →
      s.classes.named ClassNode.name file.classes x = some super → super ≠ id →
        s.HasEdge .classSuperClass id super
  functions : ∀ f ∈ fact.functions,
    (s.functions.named FunctionNode.name file.functions f.name).isSome

namespace FileFact

open Edit

variable {fact : FileFact} {s s' : Store} {file file' : FileRevision}

theorem Describes.functionNames (h : fact.Describes s file s' file') (x : String) :
    (s'.functions.named FunctionNode.name file'.functions x).isSome ↔
      (s.functions.named FunctionNode.name file.functions x).isSome ∨
        x ∈ fact.functions.map FunctionFact.name := by
  have hfind : (fact.functions.find? fun f => f.name = x).isSome ↔
      x ∈ fact.functions.map FunctionFact.name := by
    simp [List.find?_isSome]
  rw [← hfind]
  cases hold : s.functions.named FunctionNode.name file.functions x with
  | some id => exact iff_of_true (Option.isSome_of_mem (h.oldFunction x id hold)) (.inl rfl)
  | none =>
    cases hf : fact.functions.find? fun f => f.name = x with
    | some f =>
      obtain ⟨id, hid, -⟩ := h.newFunction x f hold hf
      exact iff_of_true (Option.isSome_of_mem hid) (.inr rfl)
    | none =>
      rw [h.noFunction x hold hf]
      simp

/-- What a fact has said of a revision has been told. -/
theorem Describes.told (h : fact.Describes s file s' file') : fact.Told s' file' where
  stored := Sorted.mem_of_get? h.stored
  properties := by
    rw [h.properties, described_described]
  classes c hc := (h.classNames c.name).2 (.inr (List.mem_map_of_mem hc))
  superClasses := h.superClasses
  functions f hf := (h.functionNames f.name).2 (.inr (List.mem_map_of_mem hf))

namespace Told

variable {existing created ids : NamedIds}

/-- The classes of a fact are found, and each name gets its id. -/
theorem still_attachClasses (h : fact.Told s file) (created : NamedIds) {cs : List ClassFact} :
    ∀ ids : NamedIds, (∀ c ∈ cs, c ∈ fact.classes) →
      ∃ ids', Still (attachClasses file.id (s.classesByName file.classes) cs ids created) s
        (ids', created) ∧ ∀ x, ids'.lookup x = if x ∈ cs.map ClassFact.name
          then s.classes.named ClassNode.name file.classes x else ids.lookup x := by
  induction cs with
  | nil => exact fun _ _ => ⟨_, .pure, fun x => by simp⟩
  | cons c rest ih =>
    intro ids hcs
    obtain ⟨hc, hrest⟩ := List.forall_mem_cons.1 hcs
    obtain ⟨id, hid⟩ := Option.isSome_iff_exists.1 (h.classes c hc)
    obtain ⟨ids', hstill, hlookup⟩ := ih ((c.name, id) :: ids) hrest
    obtain ⟨⟨x, hx, hmem, -⟩, -⟩ := Sorted.named_eq_some_iff.1 hid
    have hedge : s.HasEdge .fileClass file.id id := Sorted.mem_edgesAt h.stored hmem
    have hhas : s.Has .classNode id := Option.isSome_of_mem hx
    refine ⟨ids', ?_, fun y => ?_⟩
    · rw [attachClasses, s.lookup_classesByName, hid, Option.some_or]
      exact .bind (.mergeEdge hedge hhas (by decide)) hstill
    · rw [hlookup, NamedIds.lookup_cons, List.map_cons]
      by_cases hy : y = c.name
      · subst hy
        simp [hid]
      · simp [hy]

/-- The super classes of a fact are linked. -/
theorem still_linkSuperClasses (h : fact.Told s file)
    (hids : ∀ x, ids.lookup x = if x ∈ fact.classes.map ClassFact.name
      then s.classes.named ClassNode.name file.classes x else none)
    {c : ClassFact} (hc : c ∈ fact.classes) {class_ : NodeId}
    (hclass : s.classes.named ClassNode.name file.classes c.name = some class_)
    {names : List String} :
    (∀ x ∈ names, x ∈ c.superClasses) → Still (linkSuperClasses ids class_ names) s () := by
  induction names with
  | nil => exact fun _ => .pure
  | cons name rest ih =>
    intro hnames
    obtain ⟨hname, hrest⟩ := List.forall_mem_cons.1 hnames
    rw [linkSuperClasses]
    cases hl : ids.lookup name with
    | none => exact ih hrest
    | some super =>
      rw [hids] at hl
      by_cases hdeclared : name ∈ fact.classes.map ClassFact.name
      · rw [if_pos hdeclared] at hl
        by_cases hne : super ≠ class_
        · simp only [hne, ne_eq, not_false_eq_true, if_true]
          obtain ⟨⟨x, hx, -⟩, -⟩ := Sorted.named_eq_some_iff.1 hl
          have hedge := h.superClasses c hc name hname hdeclared class_ super hclass hl hne
          have hhas : s.Has .classNode super := Option.isSome_of_mem hx
          exact .bind (.mergeEdge hedge hhas (by decide)) (ih hrest)
        · simp only [hne, if_false]
          exact ih hrest
      · rw [if_neg hdeclared] at hl
        cases hl

theorem still_linkAllSuperClasses (h : fact.Told s file)
    (hids : ∀ x, ids.lookup x = if x ∈ fact.classes.map ClassFact.name
      then s.classes.named ClassNode.name file.classes x else none)
    {cs : List ClassFact} :
    (∀ c ∈ cs, c ∈ fact.classes) → Still (linkAllSuperClasses ids cs) s () := by
  induction cs with
  | nil => exact fun _ => .pure
  | cons c rest ih =>
    intro hcs
    obtain ⟨hc, hrest⟩ := List.forall_mem_cons.1 hcs
    obtain ⟨id, hid⟩ := Option.isSome_iff_exists.1 (h.classes c hc)
    have hl : ids.lookup c.name = some id := by
      rw [hids, if_pos (List.mem_map_of_mem hc), hid]
    rw [linkAllSuperClasses, hl]
    exact .bind (h.still_linkSuperClasses hids hc hid fun _ hx => hx) (ih hrest)

/-- The functions of a fact are found. -/
theorem still_attachFunctions (h : fact.Told s file) {fs : List FunctionFact} :
    (∀ f ∈ fs, f ∈ fact.functions) →
      Still (attachFunctions file.id (s.functionsByName file.functions) fs created) s created := by
  induction fs with
  | nil => exact fun _ => .pure
  | cons f rest ih =>
    intro hfs
    obtain ⟨hf, hrest⟩ := List.forall_mem_cons.1 hfs
    obtain ⟨id, hid⟩ := Option.isSome_iff_exists.1 (h.functions f hf)
    obtain ⟨⟨x, hx, hmem, -⟩, -⟩ := Sorted.named_eq_some_iff.1 hid
    have hedge : s.HasEdge .fileFunction file.id id := Sorted.mem_edgesAt h.stored hmem
    have hhas : s.Has .function id := Option.isSome_of_mem hx
    rw [attachFunctions, s.lookup_functionsByName, hid, Option.some_or]
    exact .bind (.mergeEdge hedge hhas (by decide)) (ih hrest)

theorem saveFile_eq_self (h : fact.Told s file) : s.saveFile (described fact file) = s := by
  have hget : s.files.get? file.id = some { file with
      classes := file.classes, functions := file.functions } := Sorted.get?_key h.stored
  rw [saveFile_described hget (fun _ hx => hx) (fun _ hx => hx)]
  show { s with files := s.files.insert (described fact file) } = s
  rw [h.properties, Sorted.insert_eq_self h.stored]

end Told

/-- Revisions that have been told of are described again, and nothing changes. -/
theorem still_describeFiles {files : List FileRevision} :
    ∀ {classes functions : NamedIds}, (∀ file ∈ files, fact.Told s file) →
      Still (describeFiles fact files classes functions) s () := by
  induction files with
  | nil => exact fun _ => .pure
  | cons file rest ih =>
    intro classes functions hfiles
    obtain ⟨hfile, hrest⟩ := List.forall_mem_cons.1 hfiles
    obtain ⟨ids, hattach, hids⟩ := hfile.still_attachClasses classes [] fun _ hc => hc
    rw [describeFiles]
    refine .store_bind (.bind hattach ?_)
    refine .bind (hfile.still_linkAllSuperClasses hids fun _ hc => hc) ?_
    refine .store_bind (.bind (hfile.still_attachFunctions fun _ hf => hf) ?_)
    exact .bind (.change hfile.saveFile_eq_self) (ih hrest)

/-- The revisions that a fact means are the same after it has been taken in. -/
theorem TakenIn.mem_ids {r : Repository} {count : Nat} (h : fact.TakenIn s r count s')
    (hkeeps : s.KeepsOthers s') {id : NodeId} :
    id ∈ (s'.filesByHash r.id fact.fileHash).map FileRevision.id ↔
      id ∈ (s.filesByHash r.id fact.fileHash).map FileRevision.id := by
  have hids : s'.fileIdsOf r.id = s.fileIdsOf r.id := by
    unfold Store.fileIdsOf
    rw [hkeeps.repositories, hkeeps.commits]
  constructor
  case mp =>
    intro hid
    obtain ⟨x, hx, rfl⟩ := List.mem_map.1 hid
    obtain ⟨hmem, hin, hhash⟩ := Store.mem_filesByHash.1 hx
    by_contra hother
    -- a revision that has not been described has had the hash before
    have hget := (h.describes.others x.id hother).symm.trans (Sorted.get?_key hmem)
    exact hother (List.mem_map_of_mem
      (Store.mem_filesByHash.2 ⟨Sorted.mem_of_get? hget, hids ▸ hin, hhash⟩))
  case mpr =>
    intro hid
    obtain ⟨x, hx, rfl⟩ := List.mem_map.1 hid
    obtain ⟨hmem, hin, hhash⟩ := Store.mem_filesByHash.1 hx
    obtain ⟨x', hdescribes⟩ := h.describes.each x hx
    have hkey := Sorted.key_of_get? hdescribes.stored
    refine List.mem_map.2 ⟨x', Store.mem_filesByHash.2
      ⟨Sorted.mem_of_get? hdescribes.stored, ?_, ?_⟩, hkey⟩
    · rw [hids, hkey]
      exact hin
    · rw [hdescribes.properties]
      exact hhash

/-- A fact that has been taken in is taken in again, and nothing changes. -/
theorem TakenIn.still_ingestFile {r : Repository} {count : Nat} (h : fact.TakenIn s r count s')
    (hkeeps : s.KeepsOthers s') : Still (ingestFile fact) s' count := by
  have hlength : (s'.filesByHash r.id fact.fileHash).length = count := by
    have hperm := (List.perm_ext_iff_of_nodup (s'.nodup_filesByHash r.id fact.fileHash)
      (s.nodup_filesByHash r.id fact.fileHash)).2 fun _ => h.mem_ids hkeeps
    rw [h.counts, ← List.length_map FileRevision.id, hperm.length_eq, List.length_map]
  have hfind : s'.findRepository fact.landscapeToken (displayName fact.repositoryName)
      = some r := by
    unfold Store.findRepository
    rw [hkeeps.repositories]
    exact h.repository
  have hsome : (s'.filesByHash r.id fact.fileHash).isEmpty = false := by
    have haccepted := h.accepted
    unfold FileFact.refusal at haccepted
    rw [h.repository] at haccepted
    by_contra hempty
    rw [Bool.not_eq_false, List.isEmpty_iff] at hempty
    rw [hempty, h.counts, List.length_nil] at hlength
    simp [List.length_eq_zero_iff.1 hlength.symm] at haccepted
  have htold : ∀ file ∈ s'.filesByHash r.id fact.fileHash, fact.Told s' file := by
    intro file hfile
    obtain ⟨x, hx, hid⟩ := List.mem_map.1 ((h.mem_ids hkeeps).1 (List.mem_map_of_mem hfile))
    obtain ⟨x', hdescribes⟩ := h.describes.each x hx
    obtain rfl : x' = file := by
      refine Sorted.eq_of_key_eq (Sorted.mem_of_get? hdescribes.stored)
        (Store.mem_filesByHash.1 hfile).1 ?_
      exact (Sorted.key_of_get? hdescribes.stored).trans hid
    exact hdescribes.told
  unfold ingestFile
  refine .bind (announcedRepository_of_some hfind) (.store_bind ?_)
  simp only [hsome, Bool.false_eq_true, if_false]
  refine .bind (still_describeFiles htold) ?_
  rw [hlength]
  exact .pure

end FileFact

/-- Classes and functions whose names come more than once, and a class above itself. -/
def FileFact.sampleTwisted : FileFact :=
  { landscapeToken := "t", repositoryName := "org/shop", fileHash := "h1", language := .python
    importNames := ["std"]
    classes := [{ name := "B", superClasses := ["A", "B", "C"] },
      { name := "A", innerClasses := [{ name := "A" }] }, { name := "B", superClasses := ["A"] }]
    functions := [{ name := "run", startLine := 3 }, { name := "stop" }, { name := "run" }] }

/-- Two revisions with one hash, of which a span has shown one. -/
def Ingestion.sampleCopied : List Ingestion :=
  sample ++ [.commit
    { landscapeToken := "t", repositoryName := "shop", commitHash := "c3"
      addedFiles := [⟨"h1", "lib/a.rs"⟩] }]

namespace Store

/-- A file fact that is taken in counts the revisions that it means, and changes no others. What it
brings are classes and functions; each revision has the names that it has had and those of the
fact. Telling the fact again gives the same answer and changes nothing at all. As everywhere, the
ids must not have run out. -/
theorem file_again (calls : List Ingestion) {s s' : Store} (hs : s = (∅ : Store).after calls)
    (f : FileFact) (count issued : Nat)
    (hids : (∅ : Store).idsIssued (calls ++ [.file f]) < 2 ^ 64)
    (hok : Edit.ingestFile f s = { result := .ok count, store := s', issued }) :
    (∃ revisions : List FileRevision, revisions.Nodup ∧ revisions.length = count ∧
      (∀ file, file ∈ revisions ↔ f.Means s file) ∧ s.KeepsBeside revisions s' ∧
      ∀ file ∈ revisions, ∃ file', s'.files.get? file.id = some file' ∧
        s'.classes.namesIn ClassNode.name file'.classes
          = s.classes.namesIn ClassNode.name file.classes
            ∪ (f.classes.map ClassFact.name).toFinset ∧
        s'.functions.namesIn FunctionNode.name file'.functions
          = s.functions.namesIn FunctionNode.name file.functions
            ∪ (f.functions.map FunctionFact.name).toFinset) ∧
    Edit.ingestFile f s' = { result := .ok count, store := s', issued := 0 } := by
  subst hs
  obtain ⟨owner, n, hready, hn⟩ := ready_after_empty calls (.file f) hids
  rw [(Ingestion.effect_file _ f).2] at hn
  obtain ⟨hsteps, hpost, -⟩ := Edit.runs_ingestFile hready hn
  obtain ⟨-, g⟩ := hsteps.sound_and_grows hready.sound hn
  obtain ⟨r, htaken⟩ := hpost count (congrArg Outcome.result hok)
  have hstore := congrArg Outcome.store hok
  rw [hstore] at hsteps g htaken
  have hkeeps := hsteps.keepsOthers
  refine ⟨⟨((∅ : Store).after calls).filesByHash r.id f.fileHash, ?_, htaken.counts.symm,
    fun file => (FileFact.means_iff hready.sound.keyed htaken.repository).symm, ?_, ?_⟩,
    htaken.still_ingestFile hkeeps⟩
  · exact (nodup_filesByHash _ _ _).of_map _
  · exact { hkeeps with
      files := htaken.describes.others
      classes := htaken.describes.classes
      functions := g.functions }
  · intro file hfile
    obtain ⟨file', hdescribes⟩ := htaken.describes.each file hfile
    refine ⟨file', hdescribes.stored, ?_, ?_⟩
    · ext x
      rw [Finset.mem_union, List.mem_toFinset, ← Sorted.isSome_named_iff, ← Sorted.isSome_named_iff]
      exact hdescribes.classNames x
    · ext x
      rw [Finset.mem_union, List.mem_toFinset, ← Sorted.isSome_named_iff, ← Sorted.isSome_named_iff]
      exact hdescribes.functionNames x

theorem file_again_sample :
    ∃ issued s', (∅ : Store).idsIssued
        (Ingestion.sampleCopied ++ [.file .sampleTwisted]) < 2 ^ 64 ∧
      Edit.ingestFile .sampleTwisted ((∅ : Store).after Ingestion.sampleCopied)
        = { result := .ok 2, store := s', issued } ∧
      Edit.ingestFile .sampleTwisted s' = { result := .ok 2, store := s', issued := 0 } := by
  have hids : (∅ : Store).idsIssued (Ingestion.sampleCopied ++ [.file .sampleTwisted])
      < 2 ^ 64 := by
    decide +kernel
  have hok : (Edit.ingestFile .sampleTwisted
      ((∅ : Store).after Ingestion.sampleCopied)).result.toOption = some 2 := by decide +kernel
  rcases ho : Edit.ingestFile .sampleTwisted ((∅ : Store).after Ingestion.sampleCopied)
    with ⟨x | count, s', issued⟩
  · rw [ho] at hok
    cases hok
  · rw [ho] at hok
    obtain rfl := Option.some.inj hok
    obtain ⟨-, heq⟩ := file_again Ingestion.sampleCopied rfl .sampleTwisted 2 issued hids ho
    exact ⟨issued, s', hids, rfl, heq⟩

end Store

end Cityscape
