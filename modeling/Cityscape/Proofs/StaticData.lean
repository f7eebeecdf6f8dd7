import Cityscape.Proofs.RepeatedFiles
import Cityscape.Proofs.VersionViews

/-!
# `StaticData`: what static analysis has said of functions, and what spans have

A file fact gives a revision functions with data, and a span may give it one of which only the name
is known. Neither of them changes a function that it finds. So whoever comes first decides: the
data of a function is what was there, or else what the first of the two says of it
(`Store.data_of_file_and_span`). If a span has brought a function, the data of a later file fact
does not come to it.
-/

namespace Cityscape

/-- What is known of a function but for its id and its qualified name. -/
def FunctionNode.data (x : FunctionNode) : FunctionNode := { x with id := ⟨0⟩, fqn := none }

/-- What a file fact says of the function with a name; of several the first one counts. -/
def FileFact.functionData (f : FileFact) (name : String) : Option FunctionNode :=
  (f.functions.find? fun g => g.name = name).map fun g => g.node ⟨0⟩

namespace Store

/-- What is known of the function of a file with a name. -/
def functionData (s : Store) (file : NodeId) (name : String) : Option FunctionNode :=
  (s.functionNamed file name).bind fun id => (s.functions.get? id).map FunctionNode.data

/-- What a span says of the function of a file with a name: that there is one, if it is the one
that the span calls. -/
def tracedData (s : Store) (p : SpanFact) (file : NodeId) (name : String) : Option FunctionNode :=
  if s.fileMeant p = some file ∧ (splitName p.functionFqn).getLast? = some name then
    some { id := ⟨0⟩, name }
  else none

variable {owner : NodeId → String} {n m : Nat} {s s' : Store} {y : FileRevision} {name : String}

/-- What is known of a function of a file stays. -/
theorem functionData_of_named (g : s.functions.Grows Eq s'.functions) (hy : y ∈ s.files)
    (h : s'.functionNamed y.id name = s.functionNamed y.id name) :
    s'.functionData y.id name = s.functionData y.id name := by
  unfold functionData
  rw [h]
  cases hid : s.functionNamed y.id name with
  | none => rfl
  | some id =>
    obtain ⟨x, hx, rfl, -⟩ := mem_of_functionNamed hy hid
    obtain ⟨_, hx', rfl⟩ := g _ _ (Sorted.get?_key hx)
    rw [Option.bind_some, Option.bind_some, hx', Sorted.get?_key hx]

theorem functionData_eq_none (h : s.functionNamed y.id name = none) :
    s.functionData y.id name = none := by
  unfold functionData
  rw [h]
  rfl

theorem functionData_of_stored {x : FunctionNode} {id : NodeId}
    (h : s.functionNamed y.id name = some id) (hx : s.functions.get? id = some x) :
    s.functionData y.id name = some x.data := by
  unfold functionData
  rw [h, Option.bind_some, hx, Option.map_some]

end Store

/-- An analysis of the file of which `SpanFact.sampleTraced` calls a function. -/
def FileFact.sampleMeasured : FileFact :=
  { landscapeToken := "t", repositoryName := "org/shop", fileHash := "h3"
    functions := [{ name := "run", startLine := 3, metrics := Sorted.ofList [("loc", .ofInt 12)] },
      { name := "stop", startLine := 16 }] }

open Store

variable {owner : NodeId → String} {n m : Nat} {s s' : Store}

/-- A span adds what it says to the file that it means. -/
theorem SpanFact.Course.functionData {p : SpanFact} (c : p.Course owner s s') {y : FileRevision}
    (hy : y ∈ s.files) (name : String) : s'.functionData y.id name
      = (s.functionData y.id name).or (s.tracedData p y.id name) := by
  have g := (c.growsLocated.trans c.growsPlaced).trans c.growsAfter
  have hnamed := c.gives.named y hy name
  unfold Store.tracedData
  simp only [c.functionPlaced.name, Option.some.injEq]
  by_cases hthis : s.fileMeant p = some y.id ∧ c.function.name = name
  · obtain ⟨hmeant, rfl⟩ := hthis
    rw [if_pos ⟨hmeant, rfl⟩] at hnamed ⊢
    obtain ⟨_, hstored, rfl⟩ := c.growsAfter.functions _ _ c.functionPlaced.stored
    rw [functionData_of_stored hnamed hstored]
    rcases c.gives.old_or_new y hy hmeant with ⟨hold, hmem⟩ | ⟨hnone, hblank⟩
    · rw [functionData_of_stored hold (Sorted.get?_key hmem), Option.some_or]
    · rw [functionData_eq_none hnone, Option.none_or, hblank]
      rfl
  · rw [if_neg hthis] at hnamed ⊢
    rw [Option.or_none]
    exact functionData_of_named g.functions hy hnamed

/-- A file fact adds what it says to the revisions that it describes. -/
theorem FileFact.Describes.functionData {fact : FileFact} {file file' : FileRevision}
    (h : fact.Describes s file s' file') (g : s.Grows s') (hfile : file ∈ s.files) (name : String) :
    s'.functionData file.id name = (s.functionData file.id name).or (fact.functionData name) := by
  have hold := s.functionNamed_eq (Sorted.get?_key hfile) name
  have hnew := s'.functionNamed_eq h.stored name
  unfold FileFact.functionData
  cases hnamed : s.functions.named FunctionNode.name file.functions name with
  | some id =>
    rw [hnamed] at hold
    rw [h.oldFunction name id hnamed] at hnew
    obtain ⟨x, hx, rfl, -⟩ := mem_of_functionNamed hfile hold
    rw [functionData_of_named g.functions hfile (hnew.trans hold.symm),
      functionData_of_stored hold (Sorted.get?_key hx), Option.some_or]
  | none =>
    rw [hnamed] at hold
    rw [functionData_eq_none hold, Option.none_or]
    cases hf : fact.functions.find? fun f => f.name = name with
    | some f =>
      obtain ⟨id, hid, hdata⟩ := h.newFunction name f hnamed hf
      rw [functionData_of_stored (hnew.trans hid) hdata]
      rfl
    | none => rw [functionData_eq_none (hnew.trans (h.noFunction name hnamed hf)), Option.map_none]

namespace FileFact

variable {fact : FileFact} {r : Repository} {count : Nat}

/-- A file fact brings no revisions. -/
theorem TakenIn.files_old (h : fact.TakenIn s r count s') :
    ∀ y' ∈ s'.files, ∃ y ∈ s.files, y.id = y'.id := by
  intro y' hy'
  by_cases hid : y'.id ∈ (s.filesByHash r.id fact.fileHash).map FileRevision.id
  · obtain ⟨y, hy, hid⟩ := List.mem_map.1 hid
    exact ⟨y, (mem_filesByHash.1 hy).1, hid⟩
  · have hget := (h.describes.others y'.id hid).symm.trans (Sorted.get?_key hy')
    exact ⟨y', Sorted.mem_of_get? hget, rfl⟩

/-- A file fact does not change which files spans mean. -/
theorem TakenIn.fileMeant (h : fact.TakenIn s r count s') (hkeeps : s.KeepsOthers s')
    (hs : s.Sound owner n) (hs' : s'.Sound owner m) (g : s.Grows s') (p : SpanFact) :
    s'.fileMeant p = s.fileMeant p := by
  have hfind : s'.findApplication = s.findApplication := by
    unfold findApplication
    rw [hkeeps.applications]
  unfold Store.fileMeant
  rw [hfind]
  cases ha : s.findApplication p.landscapeToken p.applicationName with
  | none => rfl
  | some a =>
    obtain ⟨root, hroot, hid⟩ := hs.exists_root ha
    rw [Option.bind_some, Option.bind_some, ← hid, hs.tracedFileAt_of_grows hs' g hkeeps.commits
      hroot p.landscapeToken (nonEmpty p.commitId) fun y hy _ => h.files_old y hy]

/-- A fact that means a revision is not refused. -/
theorem Means.accepted {file : FileRevision} (h : fact.Means s file) (hs : s.Keyed) :
    fact.refusal s = none := by
  obtain ⟨r, hr, htoken, hname, -⟩ := h.2.2
  have hfind := hs.findRepository_eq_some_iff.2 ⟨hr, htoken, hname⟩
  have hmem := (means_iff hs hfind).1 h
  unfold FileFact.refusal
  rw [hfind]
  simp [List.ne_nil_of_mem hmem]

/-- A fact that means a revision is taken in. -/
theorem Means.takenIn {file : FileRevision} (hmeans : fact.Means s file)
    (h : Ready owner fact.landscapeToken n s)
    (hn : n + (Edit.ingestFile fact s).issued < 2 ^ 64) :
    ∃ r count, fact.TakenIn s r count (Edit.ingestFile fact s).store := by
  obtain ⟨-, hok, herror⟩ := Edit.runs_ingestFile h hn
  cases hresult : (Edit.ingestFile fact s).result with
  | error x =>
    rw [hmeans.accepted h.sound.keyed] at herror
    cases herror x hresult
  | ok count =>
    obtain ⟨r, htaken⟩ := hok count hresult
    exact ⟨r, count, htaken⟩

/-- A revision that a fact means gets what the fact says. What a span says stays the same. -/
theorem functionData_after {file : FileRevision} (hmeans : fact.Means s file)
    (h : Ready owner fact.landscapeToken n s)
    (hn : n + (Edit.ingestFile fact s).issued < 2 ^ 64) (name : String) :
    (Edit.ingestFile fact s).store.functionData file.id name
        = (s.functionData file.id name).or (fact.functionData name) ∧
      ∀ p, (Edit.ingestFile fact s).store.tracedData p file.id name
        = s.tracedData p file.id name := by
  obtain ⟨hsteps, -⟩ := Edit.runs_ingestFile h hn
  obtain ⟨hs', g⟩ := hsteps.sound_and_grows h.sound hn
  obtain ⟨r, count, htaken⟩ := hmeans.takenIn h hn
  obtain ⟨file', hdescribes⟩ := htaken.describes.each file
    ((means_iff h.sound.keyed htaken.repository).1 hmeans)
  refine ⟨hdescribes.functionData g hmeans.1 name, fun p => ?_⟩
  unfold tracedData
  rw [htaken.fileMeant hsteps.keepsOthers h.sound hs' g]

/-- A revision that a fact means stays one when spans come in. -/
theorem Means.of_sameVersions {file : FileRevision} (h : fact.Means s file)
    (hsame : s.SameVersions s') : ∃ file', fact.Means s' file' ∧ file'.id = file.id := by
  obtain ⟨hfile, hhash, hin⟩ := h
  obtain ⟨file', hfile', hgains⟩ := hsame.files.mem hfile
  have hid : file'.id = file.id := by rw [hgains.same]
  refine ⟨file', ⟨hfile', ?_, ?_⟩, hid⟩
  · rw [hgains.same]
    exact hhash
  · rw [hsame.repositories, hsame.commits, hid]
    exact hin

end FileFact

/-- A span that is not refused gives the file that it means what it says. -/
theorem SpanFact.functionData_after {p : SpanFact} {y : FileRevision}
    (h : Ready owner p.landscapeToken n s) (hn : n + (Edit.ingestSpan p s).issued < 2 ^ 64)
    (hp : p.refusal = none) (hy : y ∈ s.files) (name : String) :
    (Edit.ingestSpan p s).store.functionData y.id name
      = (s.functionData y.id name).or (s.tracedData p y.id name) := by
  obtain ⟨-, hok, herror⟩ := Edit.runs_ingestSpan_course h hn
  cases hresult : (Edit.ingestSpan p s).result with
  | error x =>
    rw [hp] at herror
    cases herror x hresult
  | ok q =>
    obtain ⟨c, -⟩ := hok q hresult
    exact c.functionData hy name

/-- Two values in either order come to the same unless there is none before and they differ. -/
theorem or_or_comm_iff {α : Type} {a b c : Option α} :
    (a.or b).or c = (a.or c).or b ↔ (a = none → ∀ x ∈ b, ∀ y ∈ c, x = y) := by
  cases a <;> cases b <;> cases c <;> simp

namespace Store

section

variable {d : FileFact} {p : SpanFact} {file : FileRevision}

/-- First the file fact says what it knows of a function, and then the span. -/
theorem Sound.functionData_file_span (hs : s.Sound owner n)
    (hn : n + s.idsIssued [.file d, .span p] < 2 ^ 64) (hp : p.refusal = none)
    (hfile : d.Means s file) (name : String) :
    (s.after [.file d, .span p]).functionData file.id name
      = ((s.functionData file.id name).or (d.functionData name)).or
        (s.tracedData p file.id name) := by
  simp only [idsIssued, Store.after, (Ingestion.effect_file _ d).1, (Ingestion.effect_file _ d).2,
    (Ingestion.effect_span _ p).1, (Ingestion.effect_span _ p).2] at hn ⊢
  obtain ⟨owner₁, -, h, hsteps⟩ := hs.call (.file d) (by rw [(Ingestion.effect_file s d).2]; omega)
  rw [(Ingestion.effect_file s d).1, (Ingestion.effect_file s d).2] at hsteps
  obtain ⟨hs₁, g⟩ := hsteps.sound_and_grows h.sound (by omega)
  obtain ⟨owner₂, -, h₁, -⟩ := hs₁.call (.span p) (by rw [(Ingestion.effect_span _ p).2]; omega)
  obtain ⟨hdata, htraced⟩ := FileFact.functionData_after hfile h (by omega) name
  obtain ⟨file', hfile', hk⟩ := g.files.mem hfile.1
  rw [← hk.id] at hdata htraced ⊢
  rw [SpanFact.functionData_after h₁ (by omega) hp hfile' name, hdata, htraced]

/-- First the span says what it knows of a function, and then the file fact. -/
theorem Sound.functionData_span_file (hs : s.Sound owner n)
    (hn : n + s.idsIssued [.span p, .file d] < 2 ^ 64) (hp : p.refusal = none)
    (hfile : d.Means s file) (name : String) :
    (s.after [.span p, .file d]).functionData file.id name
      = ((s.functionData file.id name).or (s.tracedData p file.id name)).or
        (d.functionData name) := by
  simp only [idsIssued, Store.after, (Ingestion.effect_file _ d).1, (Ingestion.effect_file _ d).2,
    (Ingestion.effect_span _ p).1, (Ingestion.effect_span _ p).2] at hn ⊢
  obtain ⟨owner₁, -, h, hsteps⟩ := hs.call (.span p) (by rw [(Ingestion.effect_span s p).2]; omega)
  rw [(Ingestion.effect_span s p).1, (Ingestion.effect_span s p).2] at hsteps
  obtain ⟨hs₁, -⟩ := hsteps.sound_and_grows h.sound (by omega)
  obtain ⟨owner₂, -, h₁, -⟩ := hs₁.call (.file d) (by rw [(Ingestion.effect_file _ d).2]; omega)
  obtain ⟨file', hfile', hid⟩ :=
    hfile.of_sameVersions (hsteps.sameVersions h.sound (by omega))
  have hdata := SpanFact.functionData_after h (by omega) hp hfile.1 name
  rw [← hid] at hdata ⊢
  rw [(FileFact.functionData_after hfile' h₁ (by omega) name).1, hdata]

/-- A revision that is found by the hash of a fact is one that the fact means. -/
theorem Sound.exists_means (hs : s.Sound owner n) {id : NodeId}
    (h : ((s.findRepository d.landscapeToken (displayName d.repositoryName)).bind fun r =>
      (s.filesByHash r.id d.fileHash).head?).map FileRevision.id = some id) :
    ∃ file : FileRevision, file.id = id ∧ d.Means s file := by
  obtain ⟨file, hfile, hid⟩ := Option.map_eq_some_iff.1 h
  obtain ⟨r, hr, hfile⟩ := Option.bind_eq_some_iff.1 hfile
  exact ⟨file, hid, (FileFact.means_iff hs.keyed hr).2 (List.mem_of_mem_head? hfile)⟩

end

/-- A revision that a file fact means gets the data of the fact, and a function that a span shows
stays without data. What comes first counts, so the order of the two does not matter unless the
function has not been there, both of them bring it, and the fact says more of it than its name. As
everywhere, the ids must not have run out. -/
theorem data_of_file_and_span (calls : List Ingestion) {s : Store}
    (hs : s = (∅ : Store).after calls) (d : FileFact) (p : SpanFact) (file : FileRevision) (name : String)
    (hids : (∅ : Store).idsIssued calls + s.idsIssued [.file d, .span p] < 2 ^ 64)
    (hids' : (∅ : Store).idsIssued calls + s.idsIssued [.span p, .file d] < 2 ^ 64)
    (hp : p.refusal = none) (hfile : d.Means s file) :
    (s.after [.file d, .span p]).functionData file.id name
        = ((s.functionData file.id name).or (d.functionData name)).or
          (s.tracedData p file.id name) ∧
      (s.after [.span p, .file d]).functionData file.id name
        = ((s.functionData file.id name).or (s.tracedData p file.id name)).or
          (d.functionData name) ∧
      ((s.after [.file d, .span p]).functionData file.id name
          = (s.after [.span p, .file d]).functionData file.id name ↔
        (s.functionData file.id name = none →
          ∀ x ∈ d.functionData name, ∀ z ∈ s.tracedData p file.id name, x = z)) := by
  obtain ⟨owner, hsound⟩ := sound_after_empty calls (by omega)
  rw [← hs] at hsound
  have hfirst := hsound.functionData_file_span hids hp hfile name
  have hsecond := hsound.functionData_span_file hids' hp hfile name
  refine ⟨hfirst, hsecond, ?_⟩
  rw [hfirst, hsecond]
  exact or_or_comm_iff

/-- A revision that is analysed and of which a span calls a function. -/
theorem exists_means_sampleMeasured : ∃ file : FileRevision, file.id = ⟨20⟩ ∧
    FileFact.sampleMeasured.Means ((∅ : Store).after Ingestion.sampleTraceable) file := by
  obtain ⟨owner, hs⟩ := sound_after_empty Ingestion.sampleTraceable (by decide +kernel)
  exact hs.exists_means (by decide +kernel)

theorem data_of_file_and_span_sample : ∃ (s : Store) (file : FileRevision),
    s = (∅ : Store).after Ingestion.sampleTraceable ∧
      (∅ : Store).idsIssued Ingestion.sampleTraceable
        + s.idsIssued [.file .sampleMeasured, .span .sampleTraced] < 2 ^ 64 ∧
      (∅ : Store).idsIssued Ingestion.sampleTraceable
        + s.idsIssued [.span .sampleTraced, .file .sampleMeasured] < 2 ^ 64 ∧
      SpanFact.sampleTraced.refusal = none ∧ FileFact.sampleMeasured.Means s file ∧
      ((s.after [.file .sampleMeasured, .span .sampleTraced]).functionData file.id "stop"
          = (s.after [.span .sampleTraced, .file .sampleMeasured]).functionData file.id "stop" ↔
        (s.functionData file.id "stop" = none →
          ∀ x ∈ FileFact.sampleMeasured.functionData "stop",
            ∀ z ∈ s.tracedData .sampleTraced file.id "stop", x = z)) := by
  obtain ⟨file, -, hfile⟩ := exists_means_sampleMeasured
  have hids : (∅ : Store).idsIssued Ingestion.sampleTraceable
      + ((∅ : Store).after Ingestion.sampleTraceable).idsIssued
        [.file .sampleMeasured, .span .sampleTraced] < 2 ^ 64 := by decide +kernel
  have hids' : (∅ : Store).idsIssued Ingestion.sampleTraceable
      + ((∅ : Store).after Ingestion.sampleTraceable).idsIssued
        [.span .sampleTraced, .file .sampleMeasured] < 2 ^ 64 := by decide +kernel
  have hp : SpanFact.sampleTraced.refusal = none := by decide +kernel
  exact ⟨_, file, rfl, hids, hids', hp, hfile,
    (data_of_file_and_span Ingestion.sampleTraceable rfl .sampleMeasured .sampleTraced file "stop"
      hids hids' hp hfile).2.2⟩

/-- The data of a fact that comes after the span does not come to the function of the span. -/
theorem data_lost_after_span : ∃ (s : Store) (file : FileRevision),
    s = (∅ : Store).after Ingestion.sampleTraceable ∧ SpanFact.sampleTraced.refusal = none ∧
      FileFact.sampleMeasured.Means s file ∧
      ((s.after [.file .sampleMeasured, .span .sampleTraced]).functionData file.id "run").map
        (fun x => (x.startLine, x.metrics.find? "loc")) = some (3, some (.ofInt 12)) ∧
      ((s.after [.span .sampleTraced, .file .sampleMeasured]).functionData file.id "run").map
        (fun x => (x.startLine, x.metrics.find? "loc")) = some (0, none) := by
  obtain ⟨file, hid, hfile⟩ := exists_means_sampleMeasured
  refine ⟨_, file, rfl, by decide +kernel, hfile, ?_⟩
  rw [hid]
  exact ⟨by decide +kernel, by decide +kernel⟩

end Store

end Cityscape
