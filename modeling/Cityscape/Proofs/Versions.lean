import Cityscape.Proofs.Calls

/-!
# `Versions`: what spans leave alone

A span may bring applications, directories, files and functions, and it may put what it brings
into directories and files that commits use. All else that is known of versions stays as it is:
repositories, branches, commits, tags and classes do not change at all, files get more functions
at most and directories more children at most (`Store.SameVersions`).
-/

namespace Cityscape

/-- A directory that has got more children at most. -/
structure Directory.Gains (d d' : Directory) : Prop where
  same : d' = { d with subdirectories := d'.subdirectories, fileRevisions := d'.fileRevisions }
  subdirectories : ∀ x ∈ d.subdirectories, x ∈ d'.subdirectories
  fileRevisions : ∀ x ∈ d.fileRevisions, x ∈ d'.fileRevisions

/-- A file that has got more functions at most. -/
structure FileRevision.Gains (f f' : FileRevision) : Prop where
  same : f' = { f with functions := f'.functions }
  functions : ∀ x ∈ f.functions, x ∈ f'.functions

theorem Directory.Gains.rfl {d : Directory} : d.Gains d :=
  ⟨.refl _, fun _ hx => hx, fun _ hx => hx⟩

theorem FileRevision.Gains.rfl {f : FileRevision} : f.Gains f := ⟨.refl _, fun _ hx => hx⟩

theorem Directory.Gains.trans {d d' d'' : Directory} (h : d.Gains d') (h' : d'.Gains d'') :
    d.Gains d'' where
  same := h'.same.trans (by rw [h.same])
  subdirectories x hx := h'.subdirectories x (h.subdirectories x hx)
  fileRevisions x hx := h'.fileRevisions x (h.fileRevisions x hx)

theorem FileRevision.Gains.trans {f f' f'' : FileRevision} (h : f.Gains f') (h' : f'.Gains f'') :
    f.Gains f'' where
  same := h'.same.trans (by rw [h.same])
  functions x hx := h'.functions x (h.functions x hx)

/-- The second store says the same of all versions. Its new applications do not start from a
directory of the first one. -/
structure Store.SameVersions (s s' : Store) : Prop where
  repositories : s'.repositories = s.repositories
  branches : s'.branches = s.branches
  commits : s'.commits = s.commits
  tags : s'.tags = s.tags
  classes : s'.classes = s.classes
  directories : s.directories.Grows Directory.Gains s'.directories
  files : s.files.Grows FileRevision.Gains s'.files
  functions : s.functions.Grows Eq s'.functions
  applications : s.applications.Grows Eq s'.applications
  newApplications : ∀ a ∈ s'.applications,
    a ∈ s.applications ∨ s.directories.get? a.rootDirectory = none

namespace Store.SameVersions

variable {s s' s'' : Store}

protected theorem rfl : s.SameVersions s where
  repositories := .refl _
  branches := .refl _
  commits := .refl _
  tags := .refl _
  classes := .refl _
  directories := .of_eq (fun _ => .rfl) (.refl _)
  files := .of_eq (fun _ => .rfl) (.refl _)
  functions := .of_eq .refl (.refl _)
  applications := .of_eq .refl (.refl _)
  newApplications _ := .inl

theorem trans (h : s.SameVersions s') (h' : s'.SameVersions s'') : s.SameVersions s'' where
  repositories := h'.repositories.trans h.repositories
  branches := h'.branches.trans h.branches
  commits := h'.commits.trans h.commits
  tags := h'.tags.trans h.tags
  classes := h'.classes.trans h.classes
  directories := h.directories.trans (fun _ _ _ => .trans) h'.directories
  files := h.files.trans (fun _ _ _ => .trans) h'.files
  functions := h.functions.trans (fun _ _ _ => .trans) h'.functions
  applications := h.applications.trans (fun _ _ _ => .trans) h'.applications
  newApplications a ha := by
    rcases h'.newApplications a ha with ha' | hnew
    · exact h.newApplications a ha'
    · -- directories do not vanish
      refine .inr (Option.eq_none_iff_forall_ne_some.2 fun d hd => ?_)
      obtain ⟨d', hd', -⟩ := h.directories _ _ hd
      rw [hnew] at hd'
      cases hd'

end Store.SameVersions

section Spans

open Store

variable {owner : NodeId → String} {t : String} {n j : Nat} {s s' : Store}

/-- A step of a call about a span leaves versions alone. -/
theorem Step.sameVersions (h : Step owner t .span j s s') (hs : s.Numbered n)
    (hn : n + j < 2 ^ 64) : s.SameVersions s' := by
  cases h with
  | skip => exact { SameVersions.rfl (s := s) with }
  | newBranch topic mem token fresh own =>
    rcases topic with topic | ⟨_, _, topic⟩ <;> cases topic
  | newDirectory topic mem ownParent fresh own =>
    rename_i p name
    have hp : s.directories.Grows Directory.Gains (s.directories.insert
        { p with subdirectories := p.subdirectories.insert ⟨s.nextId⟩ }) :=
      .insert_kept (fun _ => .rfl) mem (.refl _)
        { Directory.Gains.rfl with
          same := .refl _
          subdirectories := fun _ hx => SortedSet.mem_insert.2 (.inr hx) }
    -- the parent changes first, and the id of the new directory is still free
    have hnew : (s.directories.insert
        { p with subdirectories := p.subdirectories.insert ⟨s.nextId⟩ }).get? ⟨s.nextId⟩
          = none := by
      rw [Sorted.get?_insert, if_neg (hs.ne_next hn (hs.directories p mem)).symm]
      exact hs.get?_next hn hs.directories
    exact { SameVersions.rfl (s := s) with
      directories := hp.trans (fun _ _ _ => .trans) (.insert_new (fun _ => .rfl) hnew) }
  | newFile topic mem ownParent own =>
    exact { SameVersions.rfl (s := s) with
      directories := .insert_kept (fun _ => .rfl) mem (.refl _)
        { Directory.Gains.rfl with
          same := .refl _
          fileRevisions := fun _ hx => SortedSet.mem_insert.2 (.inr hx) }
      files := .insert_new (fun _ => .rfl) (hs.get?_next hn hs.files) }
  | file topic mem own kept fits described functions =>
    exact { SameVersions.rfl (s := s) with
      files := .insert_kept (fun _ => .rfl) mem kept.id ⟨functions (.refl _), kept.functions⟩ }
  | newFunction topic id own =>
    exact { SameVersions.rfl (s := s) with
      functions := .insert_new .refl (id ▸ hs.get?_next hn hs.functions) }
  | newTracedApplication fresh own own' =>
    have hnew : s.directories.get? ⟨s.nextId⟩ = none := hs.get?_next (by omega) hs.directories
    exact { SameVersions.rfl (s := s) with
      directories := .insert_new (fun _ => .rfl) hnew
      applications := .insert_new .refl (hs.get?_next_next hn hs.applications)
      newApplications := Sorted.forall_insert (.inr hnew) fun _ => .inl }
  | newTrace id token fresh fits => exact { SameVersions.rfl (s := s) with }
  | trace mem token kept fits => exact { SameVersions.rfl (s := s) with }
  | newSpan id token fresh fits => exact { SameVersions.rfl (s := s) with }
  | span mem token kept fits => exact { SameVersions.rfl (s := s) with }

/-- Any number of such steps leaves versions alone. -/
theorem Steps.sameVersions (h : Steps owner t .span j s s') (hs : s.Sound owner n)
    (hn : n + j < 2 ^ 64) : s.SameVersions s' := by
  induction h with
  | refl => exact .rfl
  | tail first last ih =>
    obtain ⟨hmid, -⟩ := first.sound_and_grows hs (by omega)
    exact (ih hs (by omega)).trans (last.sameVersions hmid.numbered (by omega))

/-- A span leaves versions alone, whether it is taken in or not. -/
theorem Ingestion.sameVersions {f : SpanFact} (h : Ready owner f.landscapeToken n s)
    (hn : n + ((Ingestion.span f).edit s).issued < 2 ^ 64) :
    s.SameVersions ((Ingestion.span f).edit s).store :=
  ((Ingestion.span f).runs h hn).1.sameVersions h.sound hn

end Spans

end Cityscape
