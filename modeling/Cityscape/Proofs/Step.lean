import Cityscape.Proofs.Paths

/-!
# `Step`: what ingestion may do to a store

Every ingestion call is a sequence of steps. A step hands out the ids it needs and adds or
replaces the nodes that belong together, so a sound store is sound again after it
(`Step.sound`), and has grown (`Step.grows`). Each step says for which calls it is allowed, and
touches only what belongs to the token of the call; what else a call may change or must leave
alone is read off the list of steps.
-/

namespace Cityscape

/-- What a call is about, as far as it limits the steps. -/
inductive Topic where
  | repository
  /-- The commit with the given hash, and the parent that is named. -/
  | commit (hash : String) (parent : Option String)
  | file
  | span
deriving DecidableEq

namespace Store

/-! ## The new stores -/

/-- The store with a new repository and its root. -/
def withRepository (s : Store) (token name : String) : Store :=
  { s with
    nextId := s.nextId + 1 + 1
    directories := s.directories.insert { id := ⟨s.nextId⟩, name }
    repositories := s.repositories.insert
      { id := ⟨s.nextId + 1⟩, token, name, rootDirectory := ⟨s.nextId⟩ } }

/-- The store with a new branch of a repository. -/
def withBranch (s : Store) (r : Repository) (name : String) : Store :=
  { s with
    nextId := s.nextId + 1
    branches := s.branches.insert { id := ⟨s.nextId⟩, name, repository := r.id }
    repositories := s.repositories.insert { r with branches := r.branches.insert ⟨s.nextId⟩ } }

/-- The store with a commit of which nothing is known but its hash. -/
def withCommit (s : Store) (token hash : String) : Store :=
  { s with
    nextId := s.nextId + 1
    commits := s.commits.insert { id := ⟨s.nextId⟩, token, hash } }

/-- The store with a new tag. -/
def withTag (s : Store) (name : String) : Store :=
  { s with nextId := s.nextId + 1, tags := s.tags.insert { id := ⟨s.nextId⟩, name } }

/-- The store with a new directory below another one. -/
def withDirectory (s : Store) (p : Directory) (name : String) : Store :=
  { s with
    nextId := s.nextId + 1
    directories := (s.directories.insert
      { p with subdirectories := p.subdirectories.insert ⟨s.nextId⟩ }).insert
      { id := ⟨s.nextId⟩, name, parent := some p.id } }

/-- The store with a new file below a directory. -/
def withFile (s : Store) (p : Directory) (name : String) : Store :=
  { s with
    nextId := s.nextId + 1
    directories := s.directories.insert
      { p with fileRevisions := p.fileRevisions.insert ⟨s.nextId⟩ }
    files := s.files.insert { id := ⟨s.nextId⟩, name, parent := some p.id } }

/-- The store with a new application that only traces have shown, and its root. -/
def withTracedApplication (s : Store) (token name : String) : Store :=
  { s with
    nextId := s.nextId + 1 + 1
    directories := s.directories.insert { id := ⟨s.nextId⟩, name := tracedRoot }
    applications := s.applications.insert
      { id := ⟨s.nextId + 1⟩, token, name, rootDirectory := ⟨s.nextId⟩ } }

/-- A file that may come into a commit through a repository which contains the commit: it is in
the repository already, or it hangs below the root of the repository and no other file of the
repository has its hash and path. -/
structure MayAttach (s : Store) (r : Repository) (c : Commit) (f : FileRevision) : Prop where
  repository : r ∈ s.repositories
  contains : c.id ∈ r.commits
  file : f ∈ s.files
  hash : f.hash.isSome
  home : f.id ∈ s.fileIdsOf r.id ∨ s.topAbove f.parent = some r.rootDirectory ∧
    ∀ x ∈ s.files, x.id ∈ s.fileIdsOf r.id → s.fileKey x ≠ s.fileKey f

theorem get?_withDirectory (s : Store) (p : Directory) (name : String) (i : NodeId) :
    (s.withDirectory p name).directories.get? i
      = if i = ⟨s.nextId⟩ then some { id := ⟨s.nextId⟩, name, parent := some p.id }
        else if i = p.id then some { p with subdirectories := p.subdirectories.insert ⟨s.nextId⟩ }
        else s.directories.get? i := by
  unfold withDirectory
  rw [Sorted.get?_insert, Sorted.get?_insert]

end Store

/-! ## Steps -/

/-- The steps of a call under token `t` about a topic, with the number of ids they hand out. -/
inductive Step (owner : NodeId → String) (t : String) : Topic → Nat → Store → Store → Prop
  /-- An id is handed out that nothing gets. -/
  | skip {k : Topic} {s : Store} :
    Step owner t k 1 s { s with nextId := s.nextId + 1 }
  | newRepository {s : Store} {name : String}
    (fresh : ∀ r ∈ s.repositories, (r.token, r.name) ≠ (t, name))
    (own : owner ⟨s.nextId⟩ = t) (own' : owner ⟨s.nextId + 1⟩ = t) :
    Step owner t .repository 2 s (s.withRepository t name)
  | newBranch {k : Topic} {s : Store} {r : Repository} {name : String}
    (topic : k = .repository ∨ ∃ hash parent, k = .commit hash parent)
    (mem : r ∈ s.repositories) (token : r.token = t)
    (fresh : ∀ b ∈ s.branches, (b.repository, b.name) ≠ (r.id, name))
    (own : owner ⟨s.nextId⟩ = t) :
    Step owner t k 1 s (s.withBranch r name)
  /-- A repository comes to contain a commit. -/
  | contain {parent : Option String} {s : Store} {r : Repository} {c : Commit}
    (mem : r ∈ s.repositories) (token : r.token = t)
    (memCommit : c ∈ s.commits) (tokenCommit : c.token = t) :
    Step owner t (.commit c.hash parent) 0 s
      { s with repositories := s.repositories.insert { r with commits := r.commits.insert c.id } }
  | newCommit {hash : String} {parent : Option String} {s : Store} {key : String}
    (named : key = hash ∨ parent = some key)
    (fresh : ∀ c ∈ s.commits, (c.token, c.hash) ≠ (t, key))
    (own : owner ⟨s.nextId⟩ = t) :
    Step owner t (.commit hash parent) 1 s (s.withCommit t key)
  /-- The commit that the call is about changes. -/
  | commit {parent : Option String} {s : Store} {c c' : Commit}
    (mem : c ∈ s.commits) (token : c.token = t) (kept : c.Kept c') (fits : c'.Fits owner s)
    (files : c'.fileRevisions = c.fileRevisions ∨
      ∃ r f, s.MayAttach r c f ∧ c'.fileRevisions = c.fileRevisions.insert f.id) :
    Step owner t (.commit c.hash parent) 0 s { s with commits := s.commits.insert c' }
  | newTag {hash : String} {parent : Option String} {s : Store} {name : String}
    (fresh : ∀ x ∈ s.tags, x.name ≠ name) :
    Step owner t (.commit hash parent) 1 s (s.withTag name)
  | newDirectory {k : Topic} {s : Store} {p : Directory} {name : String} (topic : k ≠ .file)
    (mem : p ∈ s.directories) (ownParent : owner p.id = t)
    (fresh : ∀ x ∈ p.subdirectories, ∀ c, s.directories.get? x = some c → c.name ≠ name)
    (own : owner ⟨s.nextId⟩ = t) :
    Step owner t k 1 s (s.withDirectory p name)
  | newFile {k : Topic} {s : Store} {p : Directory} {name : String}
    (topic : k = .span ∨ ∃ hash parent, k = .commit hash parent)
    (mem : p ∈ s.directories) (ownParent : owner p.id = t) (own : owner ⟨s.nextId⟩ = t) :
    Step owner t k 1 s (s.withFile p name)
  /-- A file gets properties, classes or functions. Only calls about files describe it, and calls
  about spans add functions only. -/
  | file {k : Topic} {s : Store} {f f' : FileRevision} (topic : k ≠ .repository)
    (mem : f ∈ s.files) (own : owner f.id = t) (kept : f.Kept f') (fits : f'.Fits owner s)
    (described : k ≠ .file → f'.hasFileData = f.hasFileData)
    (functions : k = .span → f' = { f with functions := f'.functions }) :
    Step owner t k 0 s { s with files := s.files.insert f' }
  | newClass {s : Store} {c : ClassNode} (id : c.id = ⟨s.nextId⟩) (own : owner ⟨s.nextId⟩ = t)
    (fits : c.Fits owner s) :
    Step owner t .file 1 s
      { s with nextId := s.nextId + 1, classes := s.classes.insert c }
  /-- A class gets members or super classes. -/
  | classNode {s : Store} {c c' : ClassNode} (mem : c ∈ s.classes) (own : owner c.id = t)
    (kept : c.Kept c') (fits : c'.Fits owner s) :
    Step owner t .file 0 s { s with classes := s.classes.insert c' }
  | newFunction {k : Topic} {s : Store} {f : FunctionNode} (topic : k = .file ∨ k = .span)
    (id : f.id = ⟨s.nextId⟩) (own : owner ⟨s.nextId⟩ = t) (named : f.Named) :
    Step owner t k 1 s
      { s with nextId := s.nextId + 1, functions := s.functions.insert f }
  | newTracedApplication {s : Store} {name : String}
    (fresh : ∀ a ∈ s.applications, (a.token, a.name) ≠ (t, name))
    (own : owner ⟨s.nextId⟩ = t) (own' : owner ⟨s.nextId + 1⟩ = t) :
    Step owner t .span 2 s (s.withTracedApplication t name)
  | newApplication {s : Store} {a : Application} (id : a.id = ⟨s.nextId⟩) (token : a.token = t)
    (fresh : ∀ x ∈ s.applications, (x.token, x.name) ≠ (t, a.name)) (fits : a.Fits owner s) :
    Step owner t .repository 1 s
      { s with nextId := s.nextId + 1, applications := s.applications.insert a }
  /-- An application moves. -/
  | application {s : Store} {a a' : Application} (mem : a ∈ s.applications) (token : a.token = t)
    (kept : a.Kept a') (fits : a'.Fits owner s) :
    Step owner t .repository 0 s { s with applications := s.applications.insert a' }
  | newTrace {s : Store} {x : Trace} (id : x.id = ⟨s.nextId⟩) (token : x.token = t)
    (fresh : ∀ y ∈ s.traces, (y.token, y.traceId) ≠ (t, x.traceId)) (fits : x.Fits owner s) :
    Step owner t .span 1 s { s with nextId := s.nextId + 1, traces := s.traces.insert x }
  /-- A trace gets spans or other bounds. -/
  | trace {s : Store} {x x' : Trace} (mem : x ∈ s.traces) (token : x.token = t)
    (kept : x.Kept x') (fits : x'.Fits owner s) :
    Step owner t .span 0 s { s with traces := s.traces.insert x' }
  | newSpan {s : Store} {p : Span} (id : p.id = ⟨s.nextId⟩) (token : p.token = t)
    (fresh : ∀ q ∈ s.spans, (q.token, q.spanId) ≠ (t, p.spanId)) (fits : p.Fits owner s) :
    Step owner t .span 1 s { s with nextId := s.nextId + 1, spans := s.spans.insert p }
  /-- A span is told or told again. -/
  | span {s : Store} {p p' : Span} (mem : p ∈ s.spans) (token : p.token = t)
    (kept : p.Kept p') (fits : p'.Fits owner s) :
    Step owner t .span 0 s { s with spans := s.spans.insert p' }

namespace Step

open Store

variable {owner : NodeId → String} {t : String} {k : Topic} {n j : Nat} {s s' : Store}

/-! ## A step lets the store grow -/

theorem grows (h : Step owner t k j s s') (hs : s.Numbered n) (hn : n + j < 2 ^ 64) :
    s.Grows s' := by
  cases h with
  | skip => exact { Store.Grows.rfl (s := s) with }
  | newRepository fresh own own' =>
    exact { Store.Grows.rfl (s := s) with
      directories := .insert_new (fun _ => .rfl) (hs.get?_next (by omega) hs.directories)
      repositories := .insert_new (fun _ => .rfl) (hs.get?_next_next hn hs.repositories) }
  | newBranch topic mem token fresh own =>
    exact { Store.Grows.rfl (s := s) with
      branches := .insert_new .refl (hs.get?_next hn hs.branches)
      repositories := .insert_kept (fun _ => .rfl) mem (.refl _)
        { Repository.Kept.rfl with branches := fun _ hb => SortedSet.mem_insert.2 (.inr hb) } }
  | contain mem token memCommit tokenCommit =>
    exact { Store.Grows.rfl (s := s) with
      repositories := .insert_kept (fun _ => .rfl) mem (.refl _)
        { Repository.Kept.rfl with commits := fun _ hc => SortedSet.mem_insert.2 (.inr hc) } }
  | newCommit named fresh own =>
    exact { Store.Grows.rfl (s := s) with
      commits := .insert_new (fun _ => .rfl) (hs.get?_next hn hs.commits) }
  | commit mem token kept fits =>
    exact { Store.Grows.rfl (s := s) with
      commits := .insert_kept (fun _ => .rfl) mem kept.id kept }
  | newTag fresh =>
    exact { Store.Grows.rfl (s := s) with
      tags := .insert_new .refl (hs.get?_next hn hs.tags) }
  | newDirectory topic mem ownParent fresh own =>
    rename_i p name
    have hp : s.directories.Grows Directory.Kept (s.directories.insert
        { p with subdirectories := p.subdirectories.insert ⟨s.nextId⟩ }) :=
      .insert_kept (fun _ => .rfl) mem (.refl _)
        { Directory.Kept.rfl with
          subdirectories := fun _ hx => SortedSet.mem_insert.2 (.inr hx) }
    -- the parent changes first, and the id of the new directory is still free
    have hnew : (s.directories.insert
        { p with subdirectories := p.subdirectories.insert ⟨s.nextId⟩ }).get? ⟨s.nextId⟩ = none := by
      rw [Sorted.get?_insert, if_neg (hs.ne_next hn (hs.directories p mem)).symm]
      exact hs.get?_next hn hs.directories
    exact { Store.Grows.rfl (s := s) with
      directories := hp.trans (fun _ _ _ => .trans) (.insert_new (fun _ => .rfl) hnew) }
  | newFile topic mem ownParent own =>
    exact { Store.Grows.rfl (s := s) with
      directories := .insert_kept (fun _ => .rfl) mem (.refl _)
        { Directory.Kept.rfl with
          fileRevisions := fun _ hx => SortedSet.mem_insert.2 (.inr hx) }
      files := .insert_new (fun _ => .rfl) (hs.get?_next hn hs.files) }
  | file topic mem own kept fits =>
    exact { Store.Grows.rfl (s := s) with
      files := .insert_kept (fun _ => .rfl) mem kept.id kept }
  | newClass id own fits =>
    exact { Store.Grows.rfl (s := s) with
      classes := .insert_new (fun _ => .rfl) (id ▸ hs.get?_next hn hs.classes) }
  | classNode mem own kept fits =>
    exact { Store.Grows.rfl (s := s) with
      classes := .insert_kept (fun _ => .rfl) mem kept.id kept }
  | newFunction topic id own =>
    exact { Store.Grows.rfl (s := s) with
      functions := .insert_new .refl (id ▸ hs.get?_next hn hs.functions) }
  | newTracedApplication fresh own own' =>
    exact { Store.Grows.rfl (s := s) with
      directories := .insert_new (fun _ => .rfl) (hs.get?_next (by omega) hs.directories)
      applications := .insert_new (fun _ => .rfl) (hs.get?_next_next hn hs.applications) }
  | newApplication id token fresh fits =>
    exact { Store.Grows.rfl (s := s) with
      applications := .insert_new (fun _ => .rfl) (id ▸ hs.get?_next hn hs.applications) }
  | application mem token kept fits =>
    exact { Store.Grows.rfl (s := s) with
      applications := .insert_kept (fun _ => .rfl) mem kept.id kept }
  | newTrace id token fresh fits =>
    exact { Store.Grows.rfl (s := s) with
      traces := .insert_new (fun _ => .rfl) (id ▸ hs.get?_next hn hs.traces) }
  | trace mem token kept fits =>
    exact { Store.Grows.rfl (s := s) with
      traces := .insert_kept (fun _ => .rfl) mem kept.id kept }
  | newSpan id token fresh fits =>
    exact { Store.Grows.rfl (s := s) with
      spans := .insert_new (fun _ => .rfl) (id ▸ hs.get?_next hn hs.spans) }
  | span mem token kept fits =>
    exact { Store.Grows.rfl (s := s) with
      spans := .insert_kept (fun _ => .rfl) mem kept.id kept }

/-! ## A step keeps the store sound -/

theorem numbered (h : Step owner t k j s s') (hs : s.Numbered n) (hn : n + j < 2 ^ 64) :
    s'.Numbered (n + j) := by
  have later : s.Within (n + j) := hs.toWithin.mono (Nat.le_add_right n j)
  cases h with
  | skip => exact { later with next := hs.next_add_one }
  | newRepository fresh own own' =>
    exact { later with
      next := hs.next_add_two
      directories := Sorted.forall_insert ((hs.issued_next (by omega)).mono (by omega))
        later.directories
      repositories := Sorted.forall_insert (hs.issued_next_next hn) later.repositories }
  | newBranch topic mem token fresh own =>
    -- the repository keeps its id when it changes
    have old := later.repositories _ mem
    exact { later with
      next := hs.next_add_one
      branches := Sorted.forall_insert (hs.issued_next hn) later.branches
      repositories := Sorted.forall_insert old later.repositories }
  | contain mem token memCommit tokenCommit =>
    have old := later.repositories _ mem
    exact { later with
      next := hs.next
      repositories := Sorted.forall_insert old later.repositories }
  | newCommit named fresh own =>
    exact { later with
      next := hs.next_add_one
      commits := Sorted.forall_insert (hs.issued_next hn) later.commits }
  | commit mem token kept fits =>
    exact { later with
      next := hs.next
      commits := Sorted.forall_insert (kept.id ▸ later.commits _ mem) later.commits }
  | newTag fresh =>
    exact { later with
      next := hs.next_add_one
      tags := Sorted.forall_insert (hs.issued_next hn) later.tags }
  | newDirectory topic mem ownParent fresh own =>
    have old := later.directories _ mem
    exact { later with
      next := hs.next_add_one
      directories := Sorted.forall_insert (hs.issued_next hn)
        (Sorted.forall_insert old later.directories) }
  | newFile topic mem ownParent own =>
    have old := later.directories _ mem
    exact { later with
      next := hs.next_add_one
      directories := Sorted.forall_insert old later.directories
      files := Sorted.forall_insert (hs.issued_next hn) later.files }
  | file topic mem own kept fits =>
    exact { later with
      next := hs.next
      files := Sorted.forall_insert (kept.id ▸ later.files _ mem) later.files }
  | newClass id own fits =>
    exact { later with
      next := hs.next_add_one
      classes := Sorted.forall_insert (id ▸ hs.issued_next hn) later.classes }
  | classNode mem own kept fits =>
    exact { later with
      next := hs.next
      classes := Sorted.forall_insert (kept.id ▸ later.classes _ mem) later.classes }
  | newFunction topic id own =>
    exact { later with
      next := hs.next_add_one
      functions := Sorted.forall_insert (id ▸ hs.issued_next hn) later.functions }
  | newTracedApplication fresh own own' =>
    exact { later with
      next := hs.next_add_two
      directories := Sorted.forall_insert ((hs.issued_next (by omega)).mono (by omega))
        later.directories
      applications := Sorted.forall_insert (hs.issued_next_next hn) later.applications }
  | newApplication id token fresh fits =>
    exact { later with
      next := hs.next_add_one
      applications := Sorted.forall_insert (id ▸ hs.issued_next hn) later.applications }
  | application mem token kept fits =>
    exact { later with
      next := hs.next
      applications := Sorted.forall_insert (kept.id ▸ later.applications _ mem)
        later.applications }
  | newTrace id token fresh fits =>
    exact { later with
      next := hs.next_add_one
      traces := Sorted.forall_insert (id ▸ hs.issued_next hn) later.traces }
  | trace mem token kept fits =>
    exact { later with
      next := hs.next
      traces := Sorted.forall_insert (kept.id ▸ later.traces _ mem) later.traces }
  | newSpan id token fresh fits =>
    exact { later with
      next := hs.next_add_one
      spans := Sorted.forall_insert (id ▸ hs.issued_next hn) later.spans }
  | span mem token kept fits =>
    exact { later with
      next := hs.next
      spans := Sorted.forall_insert (kept.id ▸ later.spans _ mem) later.spans }

theorem keyed (h : Step owner t k j s s') (hs : s.Keyed) : s'.Keyed := by
  cases h with
  | skip => exact { hs with }
  | newRepository fresh own own' =>
    exact { hs with repositories := hs.repositories.insert_new fresh }
  | newBranch topic mem token fresh own =>
    exact { hs with
      branches := hs.branches.insert_new fresh
      repositories := hs.repositories.insert_same mem (.refl _) (.refl _) }
  | contain mem token memCommit tokenCommit =>
    exact { hs with repositories := hs.repositories.insert_same mem (.refl _) (.refl _) }
  | newCommit named fresh own => exact { hs with commits := hs.commits.insert_new fresh }
  | commit mem token kept fits =>
    exact { hs with
      commits := hs.commits.insert_same mem kept.id (Prod.ext kept.token kept.hash) }
  | newTag fresh => exact { hs with tags := hs.tags.insert_new fresh }
  | newDirectory topic mem ownParent fresh own => exact { hs with }
  | newFile topic mem ownParent own => exact { hs with }
  | file topic mem own kept fits => exact { hs with }
  | newClass id own fits => exact { hs with }
  | classNode mem own kept fits => exact { hs with }
  | newFunction topic id own => exact { hs with }
  | newTracedApplication fresh own own' =>
    exact { hs with applications := hs.applications.insert_new fresh }
  | newApplication id token fresh fits =>
    exact { hs with applications := hs.applications.insert_new (token ▸ fresh) }
  | application mem token kept fits =>
    exact { hs with
      applications := hs.applications.insert_same mem kept.id (Prod.ext kept.token kept.name) }
  | newTrace id token fresh fits =>
    exact { hs with traces := hs.traces.insert_new (token ▸ fresh) }
  | trace mem token kept fits =>
    exact { hs with
      traces := hs.traces.insert_same mem kept.id (Prod.ext kept.token kept.traceId) }
  | newSpan id token fresh fits =>
    exact { hs with spans := hs.spans.insert_new (token ▸ fresh) }
  | span mem token kept fits =>
    exact { hs with spans := hs.spans.insert_same mem kept.id (Prod.ext kept.token kept.spanId) }

/-- A directory that contains nothing and hangs below nothing fits. -/
theorem fits_top {id : NodeId} {name : String} : Directory.Fits owner s { id, name } where
  subdirectories x hx := absurd hx (Sorted.not_mem_empty x)
  fileRevisions x hx := absurd hx (Sorted.not_mem_empty x)
  parent _ hp := nomatch hp
  siblings x hx := absurd hx (Sorted.not_mem_empty x)

/-- A new directory and the one above it fit. -/
theorem fits_withDirectory {p : Directory} {name : String} (hs : s.Sound owner n)
    (hn : n + 1 < 2 ^ 64) (g : s.Grows (s.withDirectory p name)) (mem : p ∈ s.directories)
    (own : owner ⟨s.nextId⟩ = owner p.id)
    (fresh : ∀ x ∈ p.subdirectories, ∀ c, s.directories.get? x = some c → c.name ≠ name) :
    Directory.Fits owner (s.withDirectory p name)
        { p with subdirectories := p.subdirectories.insert ⟨s.nextId⟩ }
      ∧ Directory.Fits owner (s.withDirectory p name)
        { id := ⟨s.nextId⟩, name, parent := some p.id } := by
  have hne : p.id ≠ ⟨s.nextId⟩ := hs.numbered.ne_next hn (hs.numbered.directories p mem)
  have hnew : (s.withDirectory p name).directories.get? ⟨s.nextId⟩
      = some { id := ⟨s.nextId⟩, name, parent := some p.id } := Sorted.get?_insert_self _ _
  have hp : (s.withDirectory p name).directories.get? p.id
      = some { p with subdirectories := p.subdirectories.insert ⟨s.nextId⟩ } := by
    rw [get?_withDirectory, if_neg hne, if_pos rfl]
  have old := (hs.fitting.directories p mem).mono g
  -- a subdirectory that was there before has another name than the new one
  have other : ∀ x ∈ p.subdirectories, ∀ c,
      (s.withDirectory p name).directories.get? x = some c → c.name ≠ name := by
    intro x hx c hc
    obtain ⟨c₀, hc₀, -⟩ := (hs.fitting.directories p mem).subdirectories x hx
    obtain ⟨c', hc', hk⟩ := g.directories _ _ hc₀
    obtain rfl : c' = c := Option.some.inj (hc'.symm.trans hc)
    rw [hk.name]
    exact fresh x hx c₀ hc₀
  constructor
  · constructor
    case subdirectories =>
      exact SortedSet.forall_mem_insert ⟨_, hnew, .refl _, own⟩ old.subdirectories
    case fileRevisions => exact old.fileRevisions
    case parent =>
      intro q hq
      exact old.parent q hq
    case siblings =>
      intro x hx y hy c e hc he hce
      rcases SortedSet.mem_insert.1 hx with rfl | hx <;>
        rcases SortedSet.mem_insert.1 hy with rfl | hy
      · rfl
      · rw [hnew] at hc
        cases hc
        exact absurd hce.symm (other y hy e he)
      · rw [hnew] at he
        cases he
        exact absurd hce (other x hx c hc)
      · exact old.siblings x hx y hy c e hc he hce
  · constructor
    case subdirectories => exact fun x hx => absurd hx (Sorted.not_mem_empty x)
    case fileRevisions => exact fun x hx => absurd hx (Sorted.not_mem_empty x)
    case parent =>
      intro q hq
      cases hq
      exact ⟨_, hp, SortedSet.mem_insert.2 (.inl rfl),
        hs.numbered.lt_next hn (hs.numbered.directories p mem)⟩
    case siblings => exact fun x hx => absurd hx (Sorted.not_mem_empty x)

/-- A new file and the directory above it fit. -/
theorem fits_withFile {p : Directory} {name : String} (hs : s.Sound owner n)
    (g : s.Grows (s.withFile p name)) (mem : p ∈ s.directories)
    (own : owner ⟨s.nextId⟩ = owner p.id) :
    Directory.Fits owner (s.withFile p name)
        { p with fileRevisions := p.fileRevisions.insert ⟨s.nextId⟩ }
      ∧ FileRevision.Fits owner (s.withFile p name)
        { id := ⟨s.nextId⟩, name, parent := some p.id } := by
  have hnew : (s.withFile p name).files.get? ⟨s.nextId⟩
      = some { id := ⟨s.nextId⟩, name, parent := some p.id } := Sorted.get?_insert_self _ _
  have hp : (s.withFile p name).directories.get? p.id
      = some { p with fileRevisions := p.fileRevisions.insert ⟨s.nextId⟩ } :=
    Sorted.get?_insert_self _ _
  have old := (hs.fitting.directories p mem).mono g
  constructor
  · constructor
    case subdirectories => exact old.subdirectories
    case fileRevisions =>
      exact SortedSet.forall_mem_insert ⟨_, hnew, .refl _, own⟩ old.fileRevisions
    case parent =>
      intro q hq
      exact old.parent q hq
    case siblings => exact old.siblings
  · constructor
    case parent => exact ⟨p.id, _, .refl _, hp, SortedSet.mem_insert.2 (.inl rfl)⟩
    case classes => exact fun x hx => absurd hx (Sorted.not_mem_empty x)
    case functions => exact fun x hx => absurd hx (Sorted.not_mem_empty x)
    case inFiles => exact fun x hx => absurd hx (Sorted.not_mem_empty x)

theorem fitting (h : Step owner t k j s s') (hs : s.Sound owner n) (hn : n + j < 2 ^ 64) :
    s'.Fitting owner s' := by
  have g : s.Grows s' := h.grows hs.numbered hn
  have old : s.Fitting owner s' := hs.fitting.mono g
  cases h with
  | skip => exact { old with }
  | newRepository fresh own own' =>
    exact { old with
      directories := Sorted.forall_insert fits_top old.directories
      repositories := Sorted.forall_insert
        { own := own'
          root := ⟨_, Sorted.get?_insert_self _ _, .refl _⟩
          rootOwn := own
          commits := fun x hx => absurd hx (Sorted.not_mem_empty x)
          branches := fun x hx => absurd hx (Sorted.not_mem_empty x) }
        old.repositories }
  | newBranch topic mem token fresh own =>
    have fits := old.repositories _ mem
    exact { old with
      branches := Sorted.forall_insert
        { own := own.trans (fits.own.trans token).symm
          repository := ⟨_, Sorted.get?_insert_self _ _, SortedSet.mem_insert.2 (.inl rfl)⟩ }
        old.branches
      repositories := Sorted.forall_insert
        { fits with
          branches := SortedSet.forall_mem_insert ⟨_, Sorted.get?_insert_self _ _, .refl _⟩
            fits.branches }
        old.repositories }
  | contain mem token memCommit tokenCommit =>
    have fits := old.repositories _ mem
    exact { old with
      repositories := Sorted.forall_insert
        { fits with
          commits := SortedSet.forall_mem_insert
            ⟨_, Sorted.get?_key memCommit, tokenCommit.trans token.symm⟩ fits.commits }
        old.repositories }
  | newCommit named fresh own =>
    exact { old with
      commits := Sorted.forall_insert
        { own
          branch := fun b hb => nomatch hb
          parents := fun x hx => absurd hx (Sorted.not_mem_empty x)
          files := fun x hx => absurd hx (Sorted.not_mem_empty x)
          tags := fun x hx => absurd hx (Sorted.not_mem_empty x) }
        old.commits }
  | commit mem token kept fits =>
    exact { old with commits := Sorted.forall_insert (fits.mono g) old.commits }
  | newTag fresh => exact { old with }
  | newDirectory topic mem ownParent fresh own =>
    obtain ⟨hp, hd⟩ := fits_withDirectory hs hn g mem (own.trans ownParent.symm) fresh
    exact { old with
      directories := Sorted.forall_insert hd (Sorted.forall_insert hp old.directories) }
  | newFile topic mem ownParent own =>
    obtain ⟨hp, hf⟩ := fits_withFile hs g mem (own.trans ownParent.symm)
    exact { old with
      directories := Sorted.forall_insert hp old.directories
      files := Sorted.forall_insert hf old.files }
  | file topic mem own kept fits =>
    exact { old with files := Sorted.forall_insert (fits.mono g) old.files }
  | newClass id own fits =>
    exact { old with classes := Sorted.forall_insert (fits.mono g) old.classes }
  | classNode mem own kept fits =>
    exact { old with classes := Sorted.forall_insert (fits.mono g) old.classes }
  | newFunction topic id own named =>
    exact { old with functions := Sorted.forall_insert named old.functions }
  | newTracedApplication fresh own own' =>
    exact { old with
      directories := Sorted.forall_insert fits_top old.directories
      applications := Sorted.forall_insert
        { own := own'
          root := ⟨_, Sorted.get?_insert_self _ _, own⟩
          repository := fun r hr => nomatch hr }
        old.applications }
  | newApplication id token fresh fits =>
    exact { old with applications := Sorted.forall_insert (fits.mono g) old.applications }
  | application mem token kept fits =>
    exact { old with applications := Sorted.forall_insert (fits.mono g) old.applications }
  | newTrace id token fresh fits =>
    exact { old with traces := Sorted.forall_insert (fits.mono g) old.traces }
  | trace mem token kept fits =>
    exact { old with traces := Sorted.forall_insert (fits.mono g) old.traces }
  | newSpan id token fresh fits =>
    exact { old with spans := Sorted.forall_insert (fits.mono g) old.spans }
  | span mem token kept fits =>
    exact { old with spans := Sorted.forall_insert (fits.mono g) old.spans }

theorem sound (h : Step owner t k j s s') (hs : s.Sound owner n) (hn : n + j < 2 ^ 64) :
    s'.Sound owner (n + j) where
  numbered := h.numbered hs.numbered hn
  keyed := h.keyed hs.keyed
  fitting := h.fitting hs hn

end Step

/-- Steps one after another, with the number of ids they hand out. -/
inductive Steps (owner : NodeId → String) (t : String) (k : Topic) : Nat → Store → Store → Prop
  | refl {s : Store} : Steps owner t k 0 s s
  | tail {i j : Nat} {s s' s'' : Store} (first : Steps owner t k i s s')
    (last : Step owner t k j s' s'') : Steps owner t k (i + j) s s''

namespace Steps

variable {owner : NodeId → String} {t : String} {k : Topic} {i j : Nat} {s s' s'' : Store}

theorem single (h : Step owner t k j s s') : Steps owner t k j s s' := by
  have := Steps.refl.tail h
  rwa [Nat.zero_add] at this

theorem trans (h : Steps owner t k i s s') (h' : Steps owner t k j s' s'') :
    Steps owner t k (i + j) s s'' := by
  induction h' with
  | refl => exact h
  | tail _ last ih => exact Nat.add_assoc .. ▸ (ih h).tail last

/-- Any number of steps keeps a store sound and lets it grow. -/
theorem sound_and_grows {n : Nat} (h : Steps owner t k j s s') (hs : s.Sound owner n)
    (hn : n + j < 2 ^ 64) : s'.Sound owner (n + j) ∧ s.Grows s' := by
  induction h with
  | refl => exact ⟨hs, .rfl⟩
  | tail _ last ih =>
    obtain ⟨hmid, hg⟩ := ih hs (by omega)
    rw [← Nat.add_assoc] at hn ⊢
    exact ⟨last.sound hmid hn, hg.trans (last.grows hmid.numbered hn)⟩

end Steps

end Cityscape
