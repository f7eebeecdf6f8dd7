import Cityscape.Proofs.Calls
import Cityscape.Proofs.Paths

/-!
# `Forest`: the file tree is a forest of tries

Directories and files know where they hang, and what hangs somewhere is known there. Going up
ends at a directory without a parent, and such a directory was made for one of two reasons: as the
root of a repository, or by a span call as the root of an application that only traces have shown
(`Store.forest_of_calls`).
-/

namespace Cityscape

namespace Store

/-- Directories and files form trees in which no two siblings have the same name, so names lead
to one directory at most. `top` tells what is known of the tops. -/
structure Forest (s : Store) (top : Directory → Prop) : Prop where
  directories : ∀ d ∈ s.directories, ∀ p,
    d.parent = some p ↔ ∃ e, s.directories.get? p = some e ∧ d.id ∈ e.subdirectories
  files : ∀ f ∈ s.files, ∀ p,
    f.parent = some p ↔ ∃ e, s.directories.get? p = some e ∧ f.id ∈ e.fileRevisions
  listed : ∀ d ∈ s.directories, (∀ x ∈ d.subdirectories, (s.directories.get? x).isSome) ∧
    ∀ x ∈ d.fileRevisions, (s.files.get? x).isSome
  tops : ∀ d ∈ s.directories, ∃ e ∈ s.directories,
    Relation.ReflTransGen s.Above d e ∧ e.parent = none ∧ top e
  siblings : ∀ d ∈ s.directories, ∀ x ∈ d.subdirectories, ∀ y ∈ d.subdirectories, ∀ c e,
    s.directories.get? x = some c → s.directories.get? y = some e → c.name = e.name → c = e
  paths : ∀ d ∈ s.directories, ∀ names e e', s.Leads d names e → s.Leads d names e' → e = e'

/-- A directory that a span call has made as the root of an application of no repository. -/
def MadeForTraces (calls : List Ingestion) (d : Directory) : Prop :=
  d.name = tracedRoot ∧ ∃ earlier f later, calls = earlier ++ .span f :: later ∧
    ((∅ : Store).after earlier).directories.get? d.id = none ∧
    ∃ a ∈ ((∅ : Store).after (earlier ++ [.span f])).applications,
      a.token = f.landscapeToken ∧ a.rootDirectory = d.id ∧ a.repository = none

/-- A directory that is the root of a repository, or was made for traces. -/
def Top (calls : List Ingestion) (d : Directory) : Prop :=
  (∃ r ∈ ((∅ : Store).after calls).repositories, r.rootDirectory = d.id) ∨ MadeForTraces calls d

end Store

variable {owner : NodeId → String} {t : String} {k : Topic} {n j : Nat} {s s' : Store}

open Store

/-! ## New tops -/

/-- A directory without a parent that is not in `s`: what a call about `k` makes it for. -/
def Store.NewTop (t : String) (k : Topic) (s s' : Store) (d : Directory) : Prop :=
  (∃ r ∈ s'.repositories, r.rootDirectory = d.id) ∨
    k = .span ∧ s.directories.get? d.id = none ∧ d.name = tracedRoot ∧
      ∃ a ∈ s'.applications, a.token = t ∧ a.rootDirectory = d.id ∧ a.repository = none

/-- A step makes a directory without a parent only as the root of a repository, or for traces. -/
theorem Step.top_origin (h : Step owner t k j s s') (hs : s.Numbered n) (hn : n + j < 2 ^ 64)
    {d' : Directory} (hd : d' ∈ s'.directories) (hp : d'.parent = none) :
    (∃ d ∈ s.directories, d.Kept d') ∨ s.NewTop t k s' d' := by
  have old : s'.directories = s.directories →
      (∃ d ∈ s.directories, d.Kept d') ∨ s.NewTop t k s' d' :=
    fun he => .inl ⟨d', he ▸ hd, .rfl⟩
  cases h with
  | newRepository fresh own own' =>
    rcases Sorted.mem_insert.1 hd with rfl | ⟨hd, -⟩
    · exact .inr (.inl ⟨_, Sorted.mem_insert.2 (.inl rfl), rfl⟩)
    · exact .inl ⟨d', hd, .rfl⟩
  | newTracedApplication fresh own own' =>
    rcases Sorted.mem_insert.1 hd with rfl | ⟨hd, -⟩
    · have free := hs.get?_next (by omega) hs.directories
      exact .inr (.inr ⟨rfl, free, rfl, _, Sorted.mem_insert.2 (.inl rfl), rfl, rfl, rfl⟩)
    · exact .inl ⟨d', hd, .rfl⟩
  | @newDirectory _ _ p name topic mem ownParent fresh own =>
    rcases Sorted.mem_insert.1 hd with rfl | ⟨hd, -⟩
    -- a directory that grows below another one has a parent
    · cases hp
    · rcases Sorted.mem_insert.1 hd with rfl | ⟨hd, -⟩
      · exact .inl ⟨p, mem, { Directory.Kept.rfl with
          subdirectories := fun _ hx => SortedSet.mem_insert.2 (.inr hx) }⟩
      · exact .inl ⟨d', hd, .rfl⟩
  | @newFile _ _ p name topic mem ownParent own =>
    rcases Sorted.mem_insert.1 hd with rfl | ⟨hd, -⟩
    · exact .inl ⟨p, mem, { Directory.Kept.rfl with
        fileRevisions := fun _ hx => SortedSet.mem_insert.2 (.inr hx) }⟩
    · exact .inl ⟨d', hd, .rfl⟩
  | skip => exact old rfl
  | newBranch => exact old rfl
  | contain => exact old rfl
  | newCommit => exact old rfl
  | commit => exact old rfl
  | newTag => exact old rfl
  | file => exact old rfl
  | newClass => exact old rfl
  | classNode => exact old rfl
  | newFunction => exact old rfl
  | newApplication => exact old rfl
  | application => exact old rfl
  | newTrace => exact old rfl
  | trace => exact old rfl
  | newSpan => exact old rfl
  | span => exact old rfl

/-- Only repository calls change applications that were there before. -/
theorem Step.mem_applications (h : Step owner t k j s s') (topic : k ≠ .repository)
    (hs : s.Numbered n) (hn : n + j < 2 ^ 64) {a : Application} (ha : a ∈ s.applications) :
    a ∈ s'.applications := by
  cases h with
  | newTracedApplication fresh own own' =>
    refine Sorted.mem_insert.2 (.inr ⟨ha, fun he => ?_⟩)
    have free : s.applications.get? a.id = none := by
      rw [he]
      exact hs.get?_next_next hn hs.applications
    rw [Sorted.get?_key ha] at free
    cases free
  | newApplication => exact absurd rfl topic
  | application => exact absurd rfl topic
  | skip => exact ha
  | newRepository => exact ha
  | newBranch => exact ha
  | contain => exact ha
  | newCommit => exact ha
  | commit => exact ha
  | newTag => exact ha
  | newDirectory => exact ha
  | newFile => exact ha
  | file => exact ha
  | newClass => exact ha
  | classNode => exact ha
  | newFunction => exact ha
  | newTrace => exact ha
  | trace => exact ha
  | newSpan => exact ha
  | span => exact ha

theorem Steps.mem_applications (h : Steps owner t k j s s') (topic : k ≠ .repository)
    (hs : s.Sound owner n) (hn : n + j < 2 ^ 64) {a : Application} (ha : a ∈ s.applications) :
    a ∈ s'.applications := by
  induction h with
  | refl => exact ha
  | tail first last ih =>
    obtain ⟨hsmid, -⟩ := first.sound_and_grows hs (by omega)
    exact last.mem_applications topic hsmid.numbered (by omega) (ih hs (by omega) ha)

/-- What a call has made a directory for stays so until the end of the call. -/
theorem Step.newTop {s₀ : Store} (h : Step owner t k j s s') (hs : s.Numbered n)
    (hn : n + j < 2 ^ 64) {d : Directory} (hd : s₀.NewTop t k s d) : s₀.NewTop t k s' d := by
  rcases hd with ⟨r, hr, hroot⟩ | ⟨rfl, free, hname, a, ha, has⟩
  · obtain ⟨r', hr', hk⟩ := (h.grows hs hn).repositories.mem hr
    exact .inl ⟨r', hr', hk.rootDirectory.trans hroot⟩
  · exact .inr ⟨rfl, free, hname, a, h.mem_applications nofun hs hn ha, has⟩

/-- A call makes a directory without a parent only as the root of a repository, or for traces. -/
theorem Steps.top_origin (h : Steps owner t k j s s') (hs : s.Sound owner n)
    (hn : n + j < 2 ^ 64) {d' : Directory} (hd : d' ∈ s'.directories) (hp : d'.parent = none) :
    (∃ d ∈ s.directories, d.Kept d') ∨ s.NewTop t k s' d' := by
  induction h generalizing d' with
  | refl => exact .inl ⟨d', hd, .rfl⟩
  | tail first last ih =>
    obtain ⟨hmid, g⟩ := first.sound_and_grows hs (by omega)
    rcases last.top_origin hmid.numbered (by omega) hd hp with ⟨d₁, hd₁, hk⟩ | hroot | htraced
    · rcases ih hs (by omega) hd₁ (hk.parent.symm.trans hp) with ⟨d, hd₀, hk₀⟩ | hnew
      · exact .inl ⟨d, hd₀, hk₀.trans hk⟩
      · have hnew' := last.newTop hmid.numbered (by omega) hnew
        unfold NewTop at hnew' ⊢
        rw [hk.id, hk.name]
        exact .inr hnew'
    · exact .inr (.inl hroot)
    · -- what is not there in the middle was not there at the beginning
      obtain ⟨hk, hfree, rest⟩ := htraced
      refine .inr (.inr ⟨hk, ?_, rest⟩)
      cases hget : Sorted.get? _ d'.id with
      | none => rfl
      | some d =>
        obtain ⟨d₁, hget₁, -⟩ := g.directories _ _ hget
        rw [hfree] at hget₁
        cases hget₁

namespace Store

/-! ## Any number of calls -/

/-- Directories without a parent were made for one of two reasons. -/
theorem top_of_calls (calls : List Ingestion) (hn : (∅ : Store).idsIssued calls < 2 ^ 64) :
    ∀ d ∈ ((∅ : Store).after calls).directories, d.parent = none → Top calls d := by
  refine call_induction (P := fun calls s => ∀ d ∈ s.directories, d.parent = none → Top calls d)
    (fun d hd => absurd hd (Sorted.not_mem_empty d)) ?_ calls hn
  intro owner n calls i hready hids ih d hd hp
  have hsteps := (i.runs hready hids).1
  obtain ⟨-, g⟩ := hsteps.sound_and_grows hready.sound hids
  have hafter := after_concat ∅ calls i
  rcases hsteps.top_origin hready.sound hids hd hp with ⟨d₀, hd₀, hk⟩ | hroot | htraced
  -- a directory that was there before was made for a reason that still holds
  · rcases ih d₀ hd₀ (hk.parent.symm.trans hp) with ⟨r, hr, hroot⟩ | hmade
    · obtain ⟨r', hr', hkr⟩ := g.repositories.mem hr
      refine .inl ⟨r', hafter ▸ hr', ?_⟩
      rw [hkr.rootDirectory, hroot, hk.id]
    · obtain ⟨hname, earlier, f, later, rfl, hfree, happ⟩ := hmade
      refine .inr ⟨hk.name.trans hname, earlier, f, later ++ [i], ?_, ?_⟩
      · rw [List.append_assoc, List.cons_append]
      · rw [hk.id]
        exact ⟨hfree, happ⟩
  · exact .inl (hafter ▸ hroot)
  · obtain ⟨htopic, hfree, hname, happ⟩ := htraced
    -- only a span call is about spans
    cases i with
    | span f => exact .inr ⟨hname, calls, f, [], rfl, hfree, hafter ▸ happ⟩
    | repository f => cases htopic
    | commit f => cases htopic
    | file f => cases htopic

/-- In a sound store going up ends at a directory without a parent. -/
theorem Sound.exists_top (hs : s.Sound owner n) :
    ∀ d ∈ s.directories, ∃ e ∈ s.directories,
      Relation.ReflTransGen s.Above d e ∧ e.parent = none := by
  refine hs.trees.directory_induction fun d hd ih => ?_
  cases hp : d.parent with
  | none => exact ⟨d, hd, .refl, hp⟩
  | some p =>
    obtain ⟨e, he, -⟩ := (hs.fitting.directories d hd).parent p hp
    obtain ⟨top, htop, hup, hnone⟩ := ih p e hp he
    exact ⟨top, htop, .head ⟨p, hp, he⟩ hup, hnone⟩

/-- After any calls from the empty store the directories and files form a forest of tries, whose
tops are the roots of repositories and the directories made for traces. -/
theorem forest_of_calls (calls : List Ingestion)
    (hids : (∅ : Store).idsIssued calls < 2 ^ 64) :
    ((∅ : Store).after calls).Forest (Top calls) := by
  obtain ⟨owner, hs⟩ := sound_after_empty calls hids
  constructor
  case directories => exact fun d hd => hs.parent_iff hd
  case files => exact fun f hf => hs.fileParent_iff hf
  case listed =>
    intro d hd
    have fits := hs.fitting.directories d hd
    constructor
    · intro x hx
      obtain ⟨c, hc, -⟩ := fits.subdirectories x hx
      exact Option.isSome_of_eq_some hc
    · intro x hx
      obtain ⟨f, hf, -⟩ := fits.fileRevisions x hx
      exact Option.isSome_of_eq_some hf
  case tops =>
    intro d hd
    obtain ⟨e, he, hup, hnone⟩ := hs.exists_top d hd
    exact ⟨e, he, hup, hnone, top_of_calls calls hids e he hnone⟩
  case siblings =>
    intro d hd x hx y hy c e hc he hname
    have hxy := (hs.fitting.directories d hd).siblings x hx y hy c e hc he hname
    rw [hxy, he] at hc
    exact (Option.some.inj hc).symm
  case paths => exact fun d hd names e e' h h' => hs.trees.leads_unique hd h h'

theorem forest_of_calls_sample :
    (∅ : Store).idsIssued Ingestion.sample < 2 ^ 64 ∧
      ((∅ : Store).after Ingestion.sample).Forest (Top Ingestion.sample) :=
  ⟨by decide +kernel, forest_of_calls Ingestion.sample (by decide +kernel)⟩

end Store

end Cityscape
