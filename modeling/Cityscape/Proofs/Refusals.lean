import Cityscape.Proofs.Delivery
import Cityscape.Query.Answer

/-!
# `Refusals`: when calls and queries fail

An ingestion call fails only because of what its fact says, or because the fact is about a
repository or a content that nobody has told of. The many other faults that its parts may end in,
such as an edge without an end, a second parent or a root that is gone, are out of reach: the store
is sound. `Ingestion.Refused` lists the causes, and they are exactly those for which a call fails
(`Store.exact_failures`). A query fails only because what it asks for is not there.
-/

namespace Cityscape

/-! ## Queries -/

/-- What can be asked of a landscape. -/
inductive Query where
  | structureOf (selector : Selector)
  | commitTree (application : String)
  | metricsOf (application hash : String)
  | timestamps (now : Int64)
  | latestCommit (repository branch : String)

/-- What a query is answered with. -/
inductive Answer where
  | landscape (l : Landscape)
  | commitTree (t : CommitTree)
  | metrics (m : CodeMetrics)
  | timestamps (times : List TraceTime)
  | latestCommit (c : CommitSummary)

/-- The answer to a query under a token. -/
def Query.answer (s : Store) (token : String) : Query → Except Fault Answer
  | structureOf selector => (s.structureOf token selector).map .landscape
  | commitTree application => (s.commitTree token application).map .commitTree
  | metricsOf application hash => (s.metricsOf token application hash).map .metrics
  | timestamps now => .ok (.timestamps (s.timestamps now token))
  | latestCommit repository branch => (s.latestCommit token repository branch).map .latestCommit

/-- The only faults are those of things that are not found. -/
def OnlyNotFound {α : Type} (e : Except Fault α) : Prop := ∀ x, e = .error x → x.kind = .notFound

namespace OnlyNotFound

variable {α β : Type} {e : Except Fault α} {f : α → Except Fault β}

theorem ok (a : α) : OnlyNotFound (.ok a) := nofun

theorem error {x : Fault} (h : x.kind = .notFound) : OnlyNotFound (.error x : Except Fault α) := by
  intro y hy
  cases hy
  exact h

theorem bind (he : OnlyNotFound e) (hf : ∀ a, OnlyNotFound (f a)) : OnlyNotFound (e >>= f) := by
  cases e with
  | ok a => exact hf a
  | error x => exact error (he x rfl)

theorem map (he : OnlyNotFound e) (g : α → β) : OnlyNotFound (e.map g) := by
  cases e with
  | ok a => exact ok (g a)
  | error x => exact error (he x rfl)

end OnlyNotFound

namespace Store

variable (s : Store) (token : String)

theorem loadCommit_faults (hash : String) : OnlyNotFound (s.loadCommit hash token) := by
  unfold loadCommit
  split
  · exact .ok _
  · exact .error rfl

theorem loadCommits_faults (hashes : List String) : OnlyNotFound (s.loadCommits token hashes) := by
  induction hashes with
  | nil => exact .ok []
  | cons hash rest ih =>
    exact .bind (s.loadCommit_faults token hash) fun c => .bind ih fun cs => .ok (c :: cs)

theorem application_faults (name : String) : OnlyNotFound (s.application token name) := by
  unfold application
  split
  · exact .ok _
  · exact .error rfl

theorem structureOf_faults (selector : Selector) : OnlyNotFound (s.structureOf token selector) := by
  refine .bind ?_ fun commits => ?_
  · cases selector with
    | latest => exact .ok _
    | commit | compare => exact s.loadCommits_faults token _
  · show OnlyNotFound (if (s.project token commits).isEmpty then _ else _)
    split
    · exact .error rfl
    · exact .ok _

theorem commitTree_faults (name : String) : OnlyNotFound (s.commitTree token name) := by
  refine .bind (s.application_faults token name) fun a => ?_
  split
  · exact .ok _
  · split
    · exact .error rfl
    · exact .ok _

theorem metricsOf_faults (name hash : String) : OnlyNotFound (s.metricsOf token name hash) :=
  .bind (s.application_faults token name) fun a =>
    .bind (s.loadCommit_faults token hash) fun h => .ok (CodeMetrics.ofCommit s a.rootDirectory h)

theorem latestCommit_faults (repository branch : String) :
    OnlyNotFound (s.latestCommit token repository branch) := by
  unfold latestCommit
  split
  · exact .ok _
  · exact .error rfl

end Store

/-- A query fails only because what it asks for is not there. -/
theorem Query.answer_faults (s : Store) (token : String) (q : Query) :
    OnlyNotFound (q.answer s token) := by
  cases q with
  | structureOf selector => exact (s.structureOf_faults token selector).map _
  | commitTree application => exact (s.commitTree_faults token application).map _
  | metricsOf application hash => exact (s.metricsOf_faults token application hash).map _
  | timestamps now => exact .ok _
  | latestCommit repository branch => exact (s.latestCommit_faults token repository branch).map _

/-! ## Refused facts -/

/-- The repository a fact names has been announced. -/
def Store.Announced (s : Store) (token fullName : String) : Prop :=
  ∃ r ∈ s.repositories, r.token = token ∧ r.name = displayName fullName

/-- Some commit of the repository a fact names has a file with the given content hash. -/
def Store.HasContent (s : Store) (token fullName hash : String) : Prop :=
  ∃ r ∈ s.repositories, r.token = token ∧ r.name = displayName fullName ∧
    ∃ c ∈ s.commits, c.id ∈ r.commits ∧
      ∃ file ∈ s.files, file.id ∈ c.fileRevisions ∧ file.hash = some hash

/-- Why a fact is refused. A commit fact with several defects is refused for the first of them in
the order of the cases, and for the first of its files that has no path. -/
inductive Ingestion.Refused (s : Store) : Ingestion → Fault → Prop where
  | noName {f : RepositoryFact} (hname : displayName f.repositoryName = "") :
    Refused s (.repository f) .emptyRepositoryName
  | noHash {f : CommitFact} (hhash : f.commitHash = "") : Refused s (.commit f) .emptyCommitHash
  | commitUnannounced {f : CommitFact} (hhash : f.commitHash ≠ "")
      (hrepo : ¬s.Announced f.landscapeToken f.repositoryName) :
    Refused s (.commit f) (.unregistered (displayName f.repositoryName) f.landscapeToken)
  | noPath {f : CommitFact} {before after : List FileIdentifier} {file : FileIdentifier}
      (hhash : f.commitHash ≠ "") (hrepo : s.Announced f.landscapeToken f.repositoryName)
      (hfiles : f.files = before ++ file :: after)
      (hbefore : ∀ x ∈ before, splitPath x.path ≠ []) (hpath : splitPath file.path = []) :
    Refused s (.commit f) (.emptyFilePath file.hash)
  | fileUnannounced {f : FileFact} (hrepo : ¬s.Announced f.landscapeToken f.repositoryName) :
    Refused s (.file f) (.unregistered (displayName f.repositoryName) f.landscapeToken)
  | noContent {f : FileFact} (hrepo : s.Announced f.landscapeToken f.repositoryName)
      (hcontent : ¬s.HasContent f.landscapeToken f.repositoryName f.fileHash) :
    Refused s (.file f) (.noRevision f.fileHash (displayName f.repositoryName))
  | noSpanKey {f : SpanFact} (hkey : f.traceId = "" ∨ f.spanId = "") :
    Refused s (.span f) .emptySpanKey
  | noFunctionName {f : SpanFact} (hkey : ¬(f.traceId = "" ∨ f.spanId = ""))
      (hname : splitName f.functionFqn = []) : Refused s (.span f) .emptyFunctionName

/-- Why a call is refused in a store, if it is. -/
def Ingestion.refusal (s : Store) : Ingestion → Option Fault
  | repository f => f.refusal
  | commit f => f.refusal s
  | file f => f.refusal s
  | span f => f.refusal

/-- A fact is refused as an invalid argument or for a missing precondition. -/
theorem Ingestion.Refused.kind {s : Store} {i : Ingestion} {x : Fault} (h : i.Refused s x) :
    x.kind = .invalidArgument ∨ x.kind = .failedPrecondition := by
  cases h with
  | noName | noHash | noPath | noSpanKey | noFunctionName => exact .inl rfl
  | commitUnannounced | fileUnannounced | noContent => exact .inr rfl

namespace Store

variable {s : Store}

theorem Keyed.announced_iff (hs : s.Keyed) {token fullName : String} :
    s.Announced token fullName ↔ (s.findRepository token (displayName fullName)).isSome := by
  rw [Option.isSome_iff_exists]
  exact exists_congr fun r => hs.findRepository_eq_some_iff.symm

theorem Keyed.hasContent_iff (hs : s.Keyed) {token fullName hash : String} {r : Repository}
    (hr : s.findRepository token (displayName fullName) = some r) :
    s.HasContent token fullName hash ↔ s.filesByHash r.id hash ≠ [] := by
  obtain ⟨hmem, htoken, hname⟩ := findRepository_spec hr
  constructor
  · rintro ⟨r', hr', htoken', hname', c, hc, hi, file, hfile, hid, hash⟩
    have hfind := hs.findRepository_eq_some_iff.2 ⟨hr', htoken', hname'⟩
    obtain rfl := Option.some.inj (hr.symm.trans hfind)
    exact List.ne_nil_of_mem
      (mem_filesByHash.2 ⟨hfile, (mem_fileIdsOf hr').2 ⟨c, hc, hi, hid⟩, hash⟩)
  · intro hne
    obtain ⟨file, hfile⟩ := List.exists_mem_of_ne_nil _ hne
    obtain ⟨hfile, hid, hash⟩ := mem_filesByHash.1 hfile
    obtain ⟨c, hc, hi, hid⟩ := (mem_fileIdsOf hmem).1 hid
    exact ⟨r, hmem, htoken, hname, c, hc, hi, file, hfile, hid, hash⟩

theorem Keyed.commit_refused_iff (hs : s.Keyed) {f : CommitFact} {x : Fault} :
    (Ingestion.commit f).Refused s x ↔ f.refusal s = some x := by
  unfold CommitFact.refusal
  constructor
  · intro h
    cases h with
    | noHash hhash => rw [if_pos hhash]
    | commitUnannounced hhash hrepo =>
      rw [hs.announced_iff, Option.not_isSome_iff_eq_none] at hrepo
      rw [if_neg hhash, hrepo]
    | noPath hhash hrepo hfiles hbefore hpath =>
      rw [hs.announced_iff, Option.isSome_iff_exists] at hrepo
      obtain ⟨r, hr⟩ := hrepo
      have hfirst : (f.files.find? fun file => splitPath file.path = []) = some _ :=
        List.find?_eq_some_iff_append.2
          ⟨decide_eq_true hpath, _, _, hfiles, fun y hy => by simpa using hbefore y hy⟩
      rw [if_neg hhash, hr, hfirst]
      rfl
  · intro h
    by_cases hhash : f.commitHash = ""
    · rw [if_pos hhash] at h
      cases h
      exact .noHash hhash
    rw [if_neg hhash] at h
    cases hr : s.findRepository f.landscapeToken (displayName f.repositoryName) with
    | none =>
      rw [hr] at h
      cases h
      exact .commitUnannounced hhash (by rw [hs.announced_iff, hr]; nofun)
    | some r =>
      rw [hr] at h
      obtain ⟨file, hfirst, rfl⟩ := Option.map_eq_some_iff.1 h
      obtain ⟨hpath, before, after, hfiles, hbefore⟩ := List.find?_eq_some_iff_append.1 hfirst
      exact .noPath hhash (by rw [hs.announced_iff, hr]; rfl) hfiles
        (fun y hy => by simpa using hbefore y hy) (of_decide_eq_true hpath)

theorem Keyed.file_refused_iff (hs : s.Keyed) {f : FileFact} {x : Fault} :
    (Ingestion.file f).Refused s x ↔ f.refusal s = some x := by
  unfold FileFact.refusal
  cases hr : s.findRepository f.landscapeToken (displayName f.repositoryName) with
  | none =>
    have hrepo : ¬s.Announced f.landscapeToken f.repositoryName := by
      rw [hs.announced_iff, hr]
      nofun
    constructor
    · intro h
      cases h with
      | fileUnannounced _ => rfl
      | noContent hrepo' _ => exact absurd hrepo' hrepo
    · intro h
      cases h
      exact .fileUnannounced hrepo
  | some r =>
    have hrepo : s.Announced f.landscapeToken f.repositoryName := by
      rw [hs.announced_iff, hr]
      rfl
    have hname := (findRepository_spec hr).2.2
    have hcontent : s.HasContent f.landscapeToken f.repositoryName f.fileHash ↔ _ :=
      hs.hasContent_iff hr
    constructor
    · intro h
      cases h with
      | fileUnannounced hrepo' => exact absurd hrepo hrepo'
      | noContent _ hnone =>
        have hempty : s.filesByHash r.id f.fileHash = [] := not_not.1 (mt hcontent.2 hnone)
        simp [hempty, hname]
    · intro h
      by_cases hempty : s.filesByHash r.id f.fileHash = []
      · simp only [hempty, List.isEmpty_nil, if_true] at h
        cases h
        rw [hname]
        exact .noContent hrepo (mt hcontent.1 (not_not.2 hempty))
      · simp [hempty] at h

/-- Under unique keys, the causes are those that can be computed. -/
theorem Keyed.refused_iff (hs : s.Keyed) {i : Ingestion} {x : Fault} :
    i.Refused s x ↔ i.refusal s = some x := by
  cases i with
  | repository f =>
    show _ ↔ (if displayName f.repositoryName = "" then _ else _) = _
    constructor
    · intro h
      cases h with
      | noName hname => exact if_pos hname
    · intro h
      split at h
      · cases h
        exact .noName ‹_›
      · cases h
  | commit f => exact hs.commit_refused_iff
  | file f => exact hs.file_refused_iff
  | span f =>
    show _ ↔ SpanFact.refusal f = _
    unfold SpanFact.refusal
    constructor
    · intro h
      cases h with
      | noSpanKey hkey => exact if_pos hkey
      | noFunctionName hkey hname => rw [if_neg hkey, if_pos hname]
    · intro h
      split at h
      · cases h
        exact .noSpanKey ‹_›
      · split at h
        · cases h
          exact .noFunctionName ‹_› ‹_›
        · cases h

end Store

/-! ## Failing calls -/

/-- A call fails only if it is refused, and succeeds only if it is not. -/
theorem Ingestion.runs_refusal {owner : NodeId → String} {n : Nat} {s : Store} (i : Ingestion)
    (h : Ready owner i.token n s) :
    Runs owner i.token i.topic i.edit n s (fun _ _ => i.refusal s = none)
      fun x => i.refusal s = some x := by
  cases i with
  | repository f =>
    exact Runs.bind h (Edit.runs_ingestRepository h) fun _ _ _ _ _ hP => Runs.pure hP.accepted
  | commit f =>
    exact Runs.bind h ((Edit.runs_ingestCommit h).mono (fun _ _ hP => hP.acceptable.refusal)
      fun _ hx => hx) fun _ _ _ _ _ hP => Runs.pure hP
  | file f =>
    exact Runs.bind h (Edit.runs_ingestFile h) fun _ _ _ _ _ hP =>
      Runs.pure (hP.elim fun _ htaken => htaken.accepted)
  | span f =>
    exact Runs.bind h (Edit.runs_ingestSpan h) fun _ _ _ _ _ hP =>
      Runs.pure (hP.elim fun _ htaken => htaken.accepted)

namespace Edit

variable {s : Store}

theorem ingestCommit_of_unannounced {f : CommitFact} (hhash : f.commitHash ≠ "")
    (hr : s.findRepository f.landscapeToken (displayName f.repositoryName) = none) :
    (ingestCommit f s).store = s := by
  unfold ingestCommit
  rw [if_neg (mt String.isEmpty_iff.1 hhash), bind_of_error (announcedRepository_of_none hr)]

theorem ingestFile_of_unannounced {f : FileFact}
    (hr : s.findRepository f.landscapeToken (displayName f.repositoryName) = none) :
    (ingestFile f s).store = s := by
  unfold ingestFile
  rw [bind_of_error (announcedRepository_of_none hr)]

theorem ingestFile_of_noRevision {f : FileFact} {r : Repository}
    (hr : s.findRepository f.landscapeToken (displayName f.repositoryName) = some r)
    (hempty : (s.filesByHash r.id f.fileHash).isEmpty = true) : (ingestFile f s).store = s := by
  unfold ingestFile
  rw [bind_of_ok (announcedRepository_of_some hr), store_bind, if_pos hempty]
  rfl

end Edit

/-- A call that lacks its precondition is given up before anything has been changed. -/
theorem Ingestion.store_of_failedPrecondition {s : Store} {i : Ingestion} {x : Fault}
    (h : i.refusal s = some x) (hx : x.kind = .failedPrecondition) : (i.edit s).store = s := by
  cases i with
  | repository f =>
    change f.refusal = _ at h
    unfold RepositoryFact.refusal at h
    split at h <;> cases h
    cases hx
  | commit f =>
    change f.refusal s = _ at h
    unfold CommitFact.refusal at h
    split at h
    · cases h
      cases hx
    · split at h
      · exact (Ingestion.effect_commit s f).1.trans (Edit.ingestCommit_of_unannounced ‹_› ‹_›)
      · obtain ⟨file, -, rfl⟩ := Option.map_eq_some_iff.1 h
        cases hx
  | file f =>
    change f.refusal s = _ at h
    unfold FileFact.refusal at h
    split at h
    · exact (Ingestion.effect_file s f).1.trans (Edit.ingestFile_of_unannounced ‹_›)
    · split at h
      · exact (Ingestion.effect_file s f).1.trans (Edit.ingestFile_of_noRevision ‹_› ‹_›)
      · cases h
  | span f =>
    change f.refusal = _ at h
    unfold SpanFact.refusal at h
    split at h
    · cases h
      cases hx
    · split at h <;> cases h
      cases hx

/-- A commit with a file whose path has no name in it. -/
def Ingestion.samplePathless : Ingestion :=
  .commit
    { landscapeToken := "t", repositoryName := "shop", commitHash := "c3"
      addedFiles := [⟨"h1", "src/a.rs"⟩, ⟨"h3", "//"⟩] }

namespace Store

/-- When calls and queries fail, and what a failure leaves behind. -/
structure ExactFailures (s : Store) (i : Ingestion) : Prop where
  /-- The call fails for the causes listed, and for no other. -/
  refused : ∀ x, (i.edit s).result = .error x ↔ i.Refused s x
  /-- Neither the graph nor the resolution of a path is ever at fault. -/
  kind : ∀ x, (i.edit s).result = .error x →
    x.kind = .invalidArgument ∨ x.kind = .failedPrecondition
  /-- A missing precondition leaves the store as it was. -/
  unchanged : ∀ x, (i.edit s).result = .error x → x.kind = .failedPrecondition →
    (i.edit s).store = s
  queries : ∀ token (q : Query), OnlyNotFound (q.answer s token)

/-- Wherever ingestion has led to, calls fail for the causes listed only. -/
theorem exact_failures (calls : List Ingestion) (i : Ingestion)
    (hids : (∅ : Store).idsIssued (calls ++ [i]) < 2 ^ 64) :
    ((∅ : Store).after calls).ExactFailures i := by
  have hcount : (∅ : Store).idsIssued (calls ++ [i])
      = (∅ : Store).idsIssued calls + (i.edit ((∅ : Store).after calls)).issued :=
    idsIssued_append ∅ calls [i]
  rw [hcount] at hids
  obtain ⟨owner, hs⟩ := sound_after_empty calls (by omega)
  obtain ⟨owner', -, hready, -⟩ := hs.call i hids
  obtain ⟨-, hok, herror⟩ := i.runs_refusal hready hids
  have hrefused : ∀ x, (i.edit ((∅ : Store).after calls)).result = .error x ↔
      i.Refused ((∅ : Store).after calls) x := by
    intro x
    rw [hs.keyed.refused_iff]
    constructor
    · exact herror x
    · intro hx
      cases hresult : (i.edit ((∅ : Store).after calls)).result with
      | error y => rw [Option.some.inj ((herror y hresult).symm.trans hx)]
      | ok u =>
        rw [hok u hresult] at hx
        cases hx
  exact {
    refused := hrefused
    kind := fun x hx => ((hrefused x).1 hx).kind
    unchanged := fun x hx =>
      Ingestion.store_of_failedPrecondition (hs.keyed.refused_iff.1 ((hrefused x).1 hx))
    queries := fun token q => q.answer_faults _ token }

theorem exact_failures_sample :
    (∅ : Store).idsIssued (Ingestion.sample ++ [Ingestion.samplePathless]) < 2 ^ 64 ∧
      Ingestion.samplePathless.succeeds ((∅ : Store).after Ingestion.sample) = false ∧
      ((∅ : Store).after Ingestion.sample).ExactFailures Ingestion.samplePathless :=
  ⟨by decide +kernel, by decide +kernel,
    exact_failures Ingestion.sample Ingestion.samplePathless (by decide +kernel)⟩

end Store

end Cityscape
