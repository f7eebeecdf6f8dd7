import Cityscape.Proofs.Keys
import Cityscape.Proofs.Telling

/-!
# `Rejections`: what a rejected fact leaves behind

A fact is rejected as an invalid argument at the first thing that is wrong with it, and what has
been done up to there stays. Most facts are checked before anything is done. There are two that are
not: the path of a file is looked at when its turn comes, and the name of a function when its
application is there. So a commit fact with a file that has no path leaves what it would leave
without this file and the files after it, and a span fact without a function leaves an application.
-/

namespace Cityscape

open Store

variable {owner : NodeId → String} {n : Nat} {s : Store}

/-! ## Commits -/

/-- The call about a commit fact does what the call about the fact cut off before its first file
without path does. -/
theorem Ingestion.sameEffect_cutOff (f : CommitFact) :
    Edit.SameEffect (commit f).edit (commit f.cutOff).edit s :=
  Edit.SameEffect.trans (effect_commit s f)
    ((Edit.sameEffect_ingestCommit f).trans (Edit.SameEffect.symm (effect_commit s f.cutOff)))

/-- What is left of a fact that is cut off there is taken in. -/
theorem Ingestion.succeeds_cutOff {f : CommitFact} {r : Repository}
    (h : Ready owner f.landscapeToken n s) (hn : n + ((commit f).edit s).issued < 2 ^ 64)
    (hhash : f.commitHash ≠ "")
    (hr : s.findRepository f.landscapeToken (displayName f.repositoryName) = some r) :
    (commit f.cutOff).succeeds s = true := by
  rw [(sameEffect_cutOff f).2] at hn
  obtain ⟨-, -, herror⟩ := (commit f.cutOff).runs_refusal h hn
  have haccepted : (commit f.cutOff).refusal s = none :=
    (CommitFact.acceptable_cutOff hhash hr).refusal
  unfold succeeds
  cases hresult : ((commit f.cutOff).edit s).result with
  | ok u => rfl
  | error x => cases haccepted.symm.trans (herror x hresult)

/-! ## Spans -/

namespace Edit

theorem applicationNamed_of_some {t name : String} {a : Application}
    (hfind : s.findApplication t name = some a) :
    applicationNamed t name s = { result := .ok a, store := s } := by
  unfold applicationNamed
  rw [store_bind, hfind]
  rfl

/-- A new application comes in with its root. -/
theorem applicationNamed_of_unknown {t name : String} (h : s.Sound owner n)
    (hn : n + (applicationNamed t name s).issued < 2 ^ 64)
    (hfind : s.findApplication t name = none) :
    (applicationNamed t name s).store = s.withTracedApplication t name := by
  have hpos := issued_applicationNamed_pos hfind
  rw [applicationNamed_of_none (h.numbered.get?_next (by omega) h.numbered.directories) hfind]

end Edit

/-! ## Rejected calls -/

/-- An application is known under a name. -/
def Store.Knows (s : Store) (token name : String) : Prop :=
  ∃ a ∈ s.applications, a.token = token ∧ a.name = name

theorem Store.knows_iff {token name : String} :
    s.Knows token name ↔ (s.findApplication token name).isSome := by
  rw [Option.isSome_iff_ne_none]
  refine Iff.trans ⟨?_, ?_⟩ (not_congr Sorted.find?_pair_eq_none_iff.symm)
  · rintro ⟨a, ha, rfl, rfl⟩ hnone
    exact hnone a ha rfl
  · intro hfound
    push Not at hfound
    obtain ⟨a, ha, he⟩ := hfound
    cases he
    exact ⟨a, ha, rfl, rfl⟩

/-- A fact is rejected as an invalid argument, and what the store is then. -/
inductive Ingestion.Rejected (s : Store) : Ingestion → Fault → Store → Prop where
  | noName {f : RepositoryFact} (hname : displayName f.repositoryName = "") :
    Rejected s (.repository f) .emptyRepositoryName s
  | noHash {f : CommitFact} (hhash : f.commitHash = "") :
    Rejected s (.commit f) .emptyCommitHash s
  /-- The commit keeps what comes before its first file without path. -/
  | noPath {f : CommitFact} {before after : List FileIdentifier} {file : FileIdentifier}
      (hhash : f.commitHash ≠ "") (hrepo : s.Announced f.landscapeToken f.repositoryName)
      (hfiles : f.files = before ++ file :: after) (hpath : splitPath file.path = [])
      (hcut : f.cutOff.files = before)
      (hsucceeds : (Ingestion.commit f.cutOff).succeeds s = true) :
    Rejected s (.commit f) (.emptyFilePath file.hash) ((Ingestion.commit f.cutOff).edit s).store
  | noSpanKey {f : SpanFact} (hkey : f.traceId = "" ∨ f.spanId = "") :
    Rejected s (.span f) .emptySpanKey s
  | noFunctionName {f : SpanFact} (hkey : ¬(f.traceId = "" ∨ f.spanId = ""))
      (hname : splitName f.functionFqn = [])
      (hknown : s.Knows f.landscapeToken f.applicationName) :
    Rejected s (.span f) .emptyFunctionName s
  /-- The application stays, and its root. -/
  | noFunctionNameUnknown {f : SpanFact} (hkey : ¬(f.traceId = "" ∨ f.spanId = ""))
      (hname : splitName f.functionFqn = [])
      (hunknown : ¬s.Knows f.landscapeToken f.applicationName) :
    Rejected s (.span f) .emptyFunctionName
      (s.withTracedApplication f.landscapeToken f.applicationName)

/-- The cause of an invalid argument tells what is left. -/
theorem Ingestion.Refused.rejected {i : Ingestion} {x : Fault} (h : Ready owner i.token n s)
    (hn : n + (i.edit s).issued < 2 ^ 64) (hx : x.kind = .invalidArgument) (hi : i.Refused s x) :
    i.Rejected s x (i.edit s).store := by
  cases hi with
  | @noName f hname =>
    rw [(effect_repository s f).1, Edit.ingestRepository_of_noName hname]
    exact .noName hname
  | @noHash f hhash =>
    rw [(effect_commit s f).1, Edit.ingestCommit_of_noHash hhash]
    exact .noHash hhash
  | @noPath f before after file hhash hrepo hfiles hbefore hpath =>
    have hfound := h.sound.keyed.announced_iff.1 hrepo
    obtain ⟨r, hr⟩ := Option.isSome_iff_exists.1 hfound
    have hcut : f.cutOff.files = before := by
      rw [f.files_cutOff, hfiles, takeWhile_append_cons (by simpa using hbefore)
        (by simpa using hpath)]
    rw [(Ingestion.sameEffect_cutOff f).1]
    exact .noPath hhash hrepo hfiles hpath hcut (Ingestion.succeeds_cutOff h hn hhash hr)
  | @noSpanKey f hkey =>
    rw [(effect_span s f).1, Edit.ingestSpan_of_noKey hkey]
    exact .noSpanKey hkey
  | @noFunctionName f hkey hname =>
    obtain ⟨hstore, hissued⟩ :=
      Edit.SameEffect.trans (effect_span s f) (Edit.ingestSpan_of_noName hkey hname)
    rw [hissued] at hn
    rw [hstore]
    cases hfind : s.findApplication f.landscapeToken f.applicationName with
    | some a =>
      rw [Edit.applicationNamed_of_some hfind]
      exact .noFunctionName hkey hname (knows_iff.2 (by rw [hfind]; rfl))
    | none =>
      rw [Edit.applicationNamed_of_unknown h.sound hn hfind]
      exact .noFunctionNameUnknown hkey hname (by rw [knows_iff, hfind]; nofun)
  | commitUnannounced | fileUnannounced | noContent => cases hx

namespace Store

/-- Wherever ingestion has led to, a call that answers with an invalid argument leaves the store as
it was, but for a commit fact that has got to a file without path, which keeps what has come before
it, and for a span fact of an unknown application, which keeps the application. -/
theorem rejected_effect (calls : List Ingestion) (i : Ingestion) (x : Fault)
    (hids : (∅ : Store).idsIssued (calls ++ [i]) < 2 ^ 64)
    (hresult : (i.edit ((∅ : Store).after calls)).result = .error x)
    (hx : x.kind = .invalidArgument) :
    i.Rejected ((∅ : Store).after calls) x ((∅ : Store).after (calls ++ [i])) := by
  rw [idsIssued_concat] at hids
  obtain ⟨owner, hs⟩ := sound_after_empty calls (by omega)
  obtain ⟨owner', -, hready, -⟩ := hs.call i hids
  obtain ⟨-, -, herror⟩ := i.runs_refusal hready hids
  rw [after_concat]
  exact (hs.keyed.refused_iff.2 (herror x hresult)).rejected hready hids hx

end Store

/-- A span of an application that `sample` does not know, which names no function. -/
def Ingestion.sampleNameless : Ingestion :=
  .span
    { landscapeToken := "t", applicationName := "shop", traceId := "x", spanId := "z"
      functionFqn := ".", startTime := 1, endTime := 2 }

namespace Store

theorem rejected_effect_sample :
    (∅ : Store).idsIssued (Ingestion.sample ++ [Ingestion.samplePathless]) < 2 ^ 64 ∧
      (Ingestion.samplePathless.edit ((∅ : Store).after Ingestion.sample)).result
        = .error (.emptyFilePath "h3") ∧
      (Fault.emptyFilePath "h3").kind = .invalidArgument ∧
      Ingestion.samplePathless.Rejected ((∅ : Store).after Ingestion.sample) (.emptyFilePath "h3")
        ((∅ : Store).after (Ingestion.sample ++ [Ingestion.samplePathless])) :=
  ⟨by decide +kernel, by decide +kernel, rfl,
    rejected_effect Ingestion.sample Ingestion.samplePathless (.emptyFilePath "h3")
      (by decide +kernel) (by decide +kernel) rfl⟩

/-- Both kinds of facts that are rejected late are seen afterwards, ids handed out aside: a commit
is there with a file in it, and an application. -/
theorem rejected_facts_seen :
    (Ingestion.samplePathless.edit ((∅ : Store).after Ingestion.sample)).result
        = .error (.emptyFilePath "h3") ∧
      { (Ingestion.samplePathless.edit ((∅ : Store).after Ingestion.sample)).store with
          nextId := ((∅ : Store).after Ingestion.sample).nextId }
        ≠ (∅ : Store).after Ingestion.sample ∧
      (Ingestion.sampleNameless.edit ((∅ : Store).after Ingestion.sample)).result
        = .error .emptyFunctionName ∧
      { (Ingestion.sampleNameless.edit ((∅ : Store).after Ingestion.sample)).store with
          nextId := ((∅ : Store).after Ingestion.sample).nextId }
        ≠ (∅ : Store).after Ingestion.sample := by
  refine ⟨by decide +kernel, fun he => ?_, by decide +kernel, fun he => ?_⟩
  · exact absurd (congrArg (fun s => (s.findCommit "t" "c3").isSome) he) (by decide +kernel)
  · exact absurd (congrArg (fun s => (s.findApplication "t" "shop").isSome) he)
      (by decide +kernel)

end Store

end Cityscape
