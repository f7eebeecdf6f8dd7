import Cityscape.Proofs.Descriptions
import Cityscape.Proofs.Repositories
import Cityscape.Proofs.Spans

/-!
# `Calls`: stores that ingestion calls lead to

An ingestion call takes in one fact; what it has changed before a failure stays. Any number of
calls keeps a store sound, and leaves everything in it that was there, for as long as ids are
left (`Store.Sound.after`). Which landscape an id belongs to is fixed when it is handed out: by
the token of the call that did so (`Store.Sound.call`).
-/

namespace Cityscape

/-- A fact that is to be taken in. -/
inductive Ingestion where
  | repository (f : RepositoryFact)
  | commit (f : CommitFact)
  | file (f : FileFact)
  | span (f : SpanFact)

namespace Ingestion

/-- The landscape that a call is about. -/
def token : Ingestion → String
  | repository f => f.landscapeToken
  | commit f => f.landscapeToken
  | file f => f.landscapeToken
  | span f => f.landscapeToken

/-- What a call is about. -/
def topic : Ingestion → Topic
  | repository _ => .repository
  | commit f => .commit f.commitHash f.parentNamed
  | file _ => .file
  | span _ => .span

/-- What a call does; its answer does not matter here. -/
def edit : Ingestion → Edit Unit
  | repository f => do let _ ← Edit.ingestRepository f
  | commit f => do let _ ← Edit.ingestCommit f
  | file f => do let _ ← Edit.ingestFile f
  | span f => do let _ ← Edit.ingestSpan f

/-- The commit fact that is told, if it is one. -/
def commitFact? : Ingestion → Option CommitFact
  | commit f => some f
  | _ => none

/-- Whether a call succeeds. -/
def succeeds (i : Ingestion) (s : Store) : Bool := (i.edit s).result.isOk

/-- Two commits told in the wrong order and one of them again, with a span in between. Only the first
fact names a parent, and only that one names a branch. -/
def sample : List Ingestion :=
  [.repository { landscapeToken := "t", repositoryName := "org/shop", branchName := "" },
    .commit
      { landscapeToken := "t", repositoryName := "shop", branchName := "dev", commitHash := "c2"
        parentCommitHash := some "c1", author := some "ann", tags := ["v2"]
        addedFiles := [⟨"h1", "src/a.rs"⟩], modifiedFiles := [⟨"h2", "src//b.rs"⟩] },
    .span
      { landscapeToken := "t", applicationName := "web", traceId := "x", spanId := "y"
        functionFqn := "src.a.run", startTime := 1, endTime := 2, commitId := some "c2" },
    .commit
      { landscapeToken := "t", repositoryName := "shop", commitHash := "c1"
        parentCommitHash := some "NONE" },
    .commit
      { landscapeToken := "t", repositoryName := "shop", commitHash := "c2"
        parentCommitHash := some "", unchangedFiles := [⟨"h1", "src/a.rs"⟩] }]

/-- A span under another token, with the names that `sample` has used under its own. -/
def sampleElsewhere : Ingestion :=
  .span
    { landscapeToken := "u", applicationName := "web", traceId := "x", spanId := "y"
      functionFqn := "src.a.run", startTime := 3, endTime := 4 }

end Ingestion

namespace Store

/-- The store after a number of calls. -/
def after (s : Store) : List Ingestion → Store
  | [] => s
  | i :: rest => after (i.edit s).store rest

/-- How many ids a number of calls hand out. -/
def idsIssued (s : Store) : List Ingestion → Nat
  | [] => 0
  | i :: rest => (i.edit s).issued + idsIssued (i.edit s).store rest

theorem after_append (s : Store) (calls more : List Ingestion) :
    s.after (calls ++ more) = (s.after calls).after more := by
  induction calls generalizing s with
  | nil => rfl
  | cons i rest ih => exact ih (i.edit s).store

theorem idsIssued_append (s : Store) (calls more : List Ingestion) :
    s.idsIssued (calls ++ more) = s.idsIssued calls + (s.after calls).idsIssued more := by
  induction calls generalizing s with
  | nil => exact (Nat.zero_add _).symm
  | cons i rest ih =>
    rw [List.cons_append, idsIssued, idsIssued, ih, after, Nat.add_assoc]

/-- What one call more leaves behind. -/
theorem after_concat (s : Store) (calls : List Ingestion) (i : Ingestion) :
    s.after (calls ++ [i]) = (i.edit (s.after calls)).store := after_append s calls [i]

theorem idsIssued_concat (s : Store) (calls : List Ingestion) (i : Ingestion) :
    s.idsIssued (calls ++ [i]) = s.idsIssued calls + (i.edit (s.after calls)).issued :=
  idsIssued_append s calls [i]

end Store

/-! ## One call -/

/-- An edit whose value is not needed. -/
theorem Edit.forget_apply {α : Type} (e : Edit α) (s : Store) :
    ((do let _ ← e : Edit Unit) s).store = (e s).store ∧
      ((do let _ ← e : Edit Unit) s).issued = (e s).issued := by
  rcases ho : e s with ⟨result, s', j⟩
  cases result with
  | error x =>
    rw [Edit.bind_of_error ho]
    exact ⟨rfl, rfl⟩
  | ok a =>
    rw [Edit.bind_of_ok ho]
    exact ⟨rfl, rfl⟩

section

variable (s : Store)

theorem Ingestion.effect_repository (f : RepositoryFact) :
    ((repository f).edit s).store = (Edit.ingestRepository f s).store ∧
      ((repository f).edit s).issued = (Edit.ingestRepository f s).issued :=
  Edit.forget_apply _ s

theorem Ingestion.effect_commit (f : CommitFact) :
    ((commit f).edit s).store = (Edit.ingestCommit f s).store ∧
      ((commit f).edit s).issued = (Edit.ingestCommit f s).issued :=
  Edit.forget_apply _ s

theorem Ingestion.effect_file (f : FileFact) :
    ((file f).edit s).store = (Edit.ingestFile f s).store ∧
      ((file f).edit s).issued = (Edit.ingestFile f s).issued :=
  Edit.forget_apply _ s

theorem Ingestion.effect_span (f : SpanFact) :
    ((span f).edit s).store = (Edit.ingestSpan f s).store ∧
      ((span f).edit s).issued = (Edit.ingestSpan f s).issued :=
  Edit.forget_apply _ s

end

theorem Ingestion.runs {owner : NodeId → String} {n : Nat} {s : Store} (i : Ingestion)
    (h : Ready owner i.token n s) :
    Runs owner i.token i.topic i.edit n s (fun _ _ => True) fun _ => True := by
  cases i with
  | repository f =>
    exact Runs.bind h ((Edit.runs_ingestRepository h).mono (fun _ _ _ => trivial)
      fun _ _ => trivial) fun _ _ _ _ _ _ => Runs.pure trivial
  | commit f =>
    exact Runs.bind h ((Edit.runs_ingestCommit h).mono (fun _ _ _ => trivial)
      fun _ _ => trivial) fun _ _ _ _ _ _ => Runs.pure trivial
  | file f =>
    exact Runs.bind h ((Edit.runs_ingestFile h).mono (fun _ _ _ => trivial)
      fun _ _ => trivial) fun _ _ _ _ _ _ => Runs.pure trivial
  | span f =>
    exact Runs.bind h ((Edit.runs_ingestSpan h).mono (fun _ _ _ => trivial)
      fun _ _ => trivial) fun _ _ _ _ _ _ => Runs.pure trivial

section Owner

variable {owner owner' : NodeId → String} {n : Nat} {s : Store}

theorem NodeId.Issued.of_get? {α : Type} {key : α → NodeId} {table : Sorted key} {id : NodeId}
    {x : α} (ht : ∀ x ∈ table, (key x).Issued n) (h : table.get? id = some x) : id.Issued n :=
  Sorted.key_of_get? h ▸ ht x (Sorted.mem_of_get? h)

/-- Whom ids that have not been handed out belong to does not matter. -/
theorem Store.Sound.congr (h : s.Sound owner n) (he : ∀ id, id.Issued n → owner' id = owner id) :
    s.Sound owner' n := by
  -- every id that a node mentions is that of a node, and so has been handed out
  have hw := h.numbered.toWithin
  have ho : ∀ {α : Type} {key : α → NodeId} {table : Sorted key} {id : NodeId} {x : α},
      (∀ x ∈ table, (key x).Issued n) → table.get? id = some x → owner' id = owner id :=
    fun ht hx => he _ (.of_get? ht hx)
  have hf := h.fitting
  refine { h with fitting := ?_ }
  constructor
  case repositories =>
    intro x hx
    obtain ⟨d, hd, -⟩ := (hf.repositories x hx).root
    exact { hf.repositories x hx with
      own := (he _ (hw.repositories x hx)).trans (hf.repositories x hx).own
      rootOwn := (ho hw.directories hd).trans (hf.repositories x hx).rootOwn }
  case branches =>
    intro x hx
    obtain ⟨r, hr, -⟩ := (hf.branches x hx).repository
    exact { hf.branches x hx with
      own := by rw [he _ (hw.branches x hx), ho hw.repositories hr, (hf.branches x hx).own] }
  case commits =>
    intro x hx
    have fits := hf.commits x hx
    exact { fits with
      own := (he _ (hw.commits x hx)).trans fits.own
      branch := fun b hb => by
        obtain ⟨y, hy, hown⟩ := fits.branch b hb
        exact ⟨y, hy, (ho hw.branches hy).trans hown⟩
      files := fun f hf => by
        obtain ⟨y, hy, hash, hown⟩ := fits.files f hf
        exact ⟨y, hy, hash, (ho hw.files hy).trans hown⟩ }
  case directories =>
    intro x hx
    have fits := hf.directories x hx
    have hx' := he _ (hw.directories x hx)
    exact { fits with
      subdirectories := fun c hc => by
        obtain ⟨y, hy, hp, hown⟩ := fits.subdirectories c hc
        exact ⟨y, hy, hp, by rw [ho hw.directories hy, hx', hown]⟩
      fileRevisions := fun c hc => by
        obtain ⟨y, hy, hp, hown⟩ := fits.fileRevisions c hc
        exact ⟨y, hy, hp, by rw [ho hw.files hy, hx', hown]⟩ }
  case files =>
    intro x hx
    have fits := hf.files x hx
    have hx' := he _ (hw.files x hx)
    exact { fits with
      classes := fun c hc => by
        obtain ⟨y, hy, hown⟩ := fits.classes c hc
        exact ⟨y, hy, by rw [ho hw.classes hy, hx', hown]⟩
      functions := fun c hc => by
        obtain ⟨y, hy, hown⟩ := fits.functions c hc
        exact ⟨y, hy, by rw [ho hw.functions hy, hx', hown]⟩ }
  case classes =>
    intro x hx
    have fits := hf.classes x hx
    have hx' := he _ (hw.classes x hx)
    exact {
      functions := fun c hc => by
        obtain ⟨y, hy, hown⟩ := fits.functions c hc
        exact ⟨y, hy, by rw [ho hw.functions hy, hx', hown]⟩
      innerClasses := fun c hc => by
        obtain ⟨y, hy, hown⟩ := fits.innerClasses c hc
        exact ⟨y, hy, by rw [ho hw.classes hy, hx', hown]⟩
      superClasses := fun c hc => by
        obtain ⟨y, hy, hown⟩ := fits.superClasses c hc
        exact ⟨y, hy, by rw [ho hw.classes hy, hx', hown]⟩ }
  case functions => exact hf.functions
  case applications =>
    intro x hx
    have fits := hf.applications x hx
    obtain ⟨d, hd, hown⟩ := fits.root
    exact { fits with
      own := (he _ (hw.applications x hx)).trans fits.own
      root := ⟨d, hd, (ho hw.directories hd).trans hown⟩ }
  case traces =>
    intro x hx
    exact { hf.traces x hx with own := (he _ (hw.traces x hx)).trans (hf.traces x hx).own }
  case spans =>
    intro x hx
    have fits := hf.spans x hx
    exact { fits with
      own := (he _ (hw.spans x hx)).trans fits.own
      function := fun f hf => by
        obtain ⟨y, hy, hown⟩ := fits.function f hf
        exact ⟨y, hy, (ho hw.functions hy).trans hown⟩ }

/-- The ids that a call hands out belong to its token. -/
theorem Store.Sound.call (hs : s.Sound owner n) (i : Ingestion)
    (hn : n + (i.edit s).issued < 2 ^ 64) :
    ∃ owner', (∀ id, id.Issued n → owner' id = owner id) ∧ Ready owner' i.token n s ∧
      Steps owner' i.token i.topic (i.edit s).issued s (i.edit s).store := by
  classical
  let owner' : NodeId → String := fun id => if id.val.toNat ≤ n then owner id else i.token
  have hagree : ∀ id, id.Issued n → owner' id = owner id := fun id hid => if_pos hid
  have hready : Ready owner' i.token n s :=
    ⟨hs.congr hagree, fun id hid => if_neg (Nat.not_le.2 hid)⟩
  exact ⟨owner', hagree, hready, (i.runs hready hn).1⟩

/-- Any number of calls keeps a store sound and lets it grow. -/
theorem Store.Sound.after {calls : List Ingestion} :
    ∀ {owner : NodeId → String} {n : Nat} {s : Store}, s.Sound owner n →
      n + s.idsIssued calls < 2 ^ 64 →
      (∃ owner', (∀ id, id.Issued n → owner' id = owner id) ∧
        (s.after calls).Sound owner' (n + s.idsIssued calls)) ∧ s.Grows (s.after calls) := by
  induction calls with
  | nil =>
    intro owner n s hs _
    exact ⟨⟨owner, fun _ _ => rfl, hs⟩, .rfl⟩
  | cons i rest ih =>
    intro owner n s hs hn
    have hn' : n + ((i.edit s).issued + (i.edit s).store.idsIssued rest) < 2 ^ 64 := hn
    obtain ⟨owner', hagree, hready, hsteps⟩ := hs.call i (by omega)
    obtain ⟨hs', g⟩ := hsteps.sound_and_grows hready.sound (by omega)
    obtain ⟨⟨owner'', hagree', hs''⟩, g'⟩ := ih hs' (by omega)
    refine ⟨⟨owner'', fun id hid => ?_, ?_⟩, g.trans g'⟩
    · exact (hagree' id (hid.mono (Nat.le_add_right _ _))).trans (hagree id hid)
    · rw [Nat.add_assoc] at hs''
      exact hs''

end Owner

/-- Every store that ingestion leads to from the empty one is sound. -/
theorem Store.sound_after_empty (calls : List Ingestion)
    (hn : (∅ : Store).idsIssued calls < 2 ^ 64) :
    ∃ owner, ((∅ : Store).after calls).Sound owner ((∅ : Store).idsIssued calls) := by
  obtain ⟨⟨owner, -, hs⟩, -⟩ :=
    (Store.sound_empty fun _ => "").after (by rw [Nat.zero_add]; exact hn)
  rw [Nat.zero_add] at hs
  exact ⟨owner, hs⟩

/-- Before each of the calls, the ids that it hands out belong to its token. -/
theorem Store.ready_after_empty (calls : List Ingestion) (i : Ingestion)
    (hn : (∅ : Store).idsIssued (calls ++ [i]) < 2 ^ 64) :
    ∃ owner n, Ready owner i.token n ((∅ : Store).after calls) ∧
      n + (i.edit ((∅ : Store).after calls)).issued < 2 ^ 64 := by
  rw [idsIssued_concat] at hn
  obtain ⟨owner, hs⟩ := sound_after_empty calls (by omega)
  obtain ⟨owner', -, hready, -⟩ := hs.call i hn
  exact ⟨owner', _, hready, hn⟩

/-- What holds of the empty store and is kept by every call holds after any calls. -/
theorem Store.call_induction {P : List Ingestion → Store → Prop} (hnil : P [] ∅)
    (hcall : ∀ {owner n} calls i, Ready owner i.token n ((∅ : Store).after calls) →
      n + (i.edit ((∅ : Store).after calls)).issued < 2 ^ 64 → P calls ((∅ : Store).after calls) →
      P (calls ++ [i]) (i.edit ((∅ : Store).after calls)).store)
    (calls : List Ingestion) (hn : (∅ : Store).idsIssued calls < 2 ^ 64) :
    P calls ((∅ : Store).after calls) := by
  induction calls using List.reverseRecOn with
  | nil => exact hnil
  | append_singleton calls i ih =>
    obtain ⟨owner, n, hready, hids⟩ := ready_after_empty calls i hn
    rw [idsIssued_concat] at hn
    rw [after_concat]
    exact hcall calls i hready hids (ih (by omega))

end Cityscape
