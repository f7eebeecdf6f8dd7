import Cityscape.Proofs.Calls
import Cityscape.Proofs.LongestMatch
import Cityscape.Proofs.Trees

/-!
# `MissingSuffix`: only what is missing of a path is added

Asking for the file at a path succeeds in every store whose directories and files form trees. If
there is a file in scope at the path, nothing changes. If there is none, the directories on the path
that are missing come in, one for each, and the file; they hang below the last directory that was
there, which is the only one that changes (`Store.EnsuresFile`). Asking again finds the same file.
-/

namespace Cityscape

namespace Edit

variable {s : Store} {d : Directory} {segments : List String}

theorem resolveOrGrow_of_file {root : NodeId} {scope : Scope} {f : FileRevision}
    (h : s.resolve root segments scope = .ok ⟨.file f, []⟩) :
    resolveOrGrow root segments scope s = { result := .ok f, store := s } := by
  unfold resolveOrGrow
  rw [store_bind, h]
  rfl

theorem resolveOrGrow_of_directory {root : NodeId} {scope : Scope} {rest : List String}
    (h : s.resolve root segments scope = .ok ⟨.directory d, rest⟩) (hrest : rest ≠ []) :
    resolveOrGrow root segments scope s = growPath d.id rest s := by
  have hleft : rest.isEmpty = false := by simpa using hrest
  unfold resolveOrGrow
  rw [store_bind, h]
  simp only [Resolution.isComplete, hleft, Bool.false_eq_true, if_false]
  rfl

/-- Asks for the files at several paths below a directory, one after another. -/
def resolveOrGrowAll (root : NodeId) : List (List String × Scope) → Edit Unit
  | [] => return
  | (segments, scope) :: rest => do
    let _ ← resolveOrGrow root segments scope
    resolveOrGrowAll root rest

end Edit

namespace Store

variable {s s' : Store} {n issued : Nat} {root : NodeId} {names before rest segments : List String}
  {d : Directory} {f : FileRevision} {scope : Scope} {allowed : NodeId → Bool}

/-! ## Asking for a file -/

/-- A directory is missing on a path. -/
structure Missing (s : Store) (root : NodeId) (segments names : List String) : Prop where
  start : names <+: segments
  proper : names ≠ segments
  absent : ∀ e, ¬s.DirectoryBelow root names e

/-- What has come in when there was no file at a path: the file, and the directories that were
missing, below the last one that was there. -/
structure AddsSuffix (s : Store) (root : NodeId) (segments : List String) (f : FileRevision)
    (s' : Store) (issued : Nat) : Prop where
  /-- The file is the only new one, and nothing changes but files and directories. -/
  adds : s.AddsFile f s'
  blank : f = { id := f.id, name := f.name, parent := f.parent }
  /-- Every new directory was missing. -/
  directories : ∀ d ∈ s'.directories, s.directories.get? d.id = none →
    ∃ names, s.Missing root segments names ∧ s'.DirectoryBelow root names d
  oneEach : ∀ names, s.Missing root segments names →
    ∃! d, s'.DirectoryBelow root names d ∧ s.directories.get? d.id = none
  /-- The longest part of the path that was there ends at the directory that has got a child. -/
  attached : ∃ known e, known <+: segments ∧ s.DirectoryBelow root known e ∧ s.Attaches e s' ∧
    known.length + issued = segments.length ∧
    ∀ names, s.Missing root segments names ↔
      names <+: segments ∧ names ≠ segments ∧ known.length < names.length

/-- There is a file at a path now, and nothing has come in but what was missing of the path. The
first `n` ids had been handed out before. -/
structure AddsMissing (n : Nat) (s : Store) (root : NodeId) (segments : List String)
    (scope : Scope) (f : FileRevision) (s' : Store) (issued : Nat) : Prop where
  /-- If there were files in scope at the path, the file is one of them. -/
  found : (∃ g, s.FileBelow root segments g ∧ s.InScope scope g.id) →
    s' = s ∧ issued = 0 ∧ s.InScope scope f.id
  added : (¬∃ g, s.FileBelow root segments g ∧ s.InScope scope g.id) →
    s.AddsSuffix root segments f s' issued
  trees : s'.Trees
  numbered : s'.Numbered (n + issued)
  fileBelow : s'.FileBelow root segments f

/-- What asking for the file at a path comes to, after the first `n` ids. -/
structure EnsuresFile (n : Nat) (s : Store) (root : NodeId) (segments : List String)
    (scope : Scope) (f : FileRevision) (s' : Store) (issued : Nat) : Prop
    extends AddsMissing n s root segments scope f s' issued where
  /-- The path of the file is that of the directory below its top, and then the one asked for. -/
  path : ∃ top above d, top ∈ s.directories ∧ top.parent = none ∧ s.Leads top above d ∧
    s.directories.get? root = some d ∧ s'.relativePath f = above ++ segments
  /-- Asking again finds the file, and changes nothing. -/
  again : scope = .everywhere →
    Edit.resolveOrGrow root segments scope s' = { result := .ok f, store := s' }
  /-- So it does in a commit, once the commit has the file. -/
  againInCommit : ∀ id, scope = .commit id → ∃ isNew s'',
    Edit.mergeEdge .commitFile id f.id s' = { result := .ok isNew, store := s'' } ∧
      Edit.resolveOrGrow root segments scope s'' = { result := .ok f, store := s'' }

/-- Below a blocked directory the rest of the path is missing. -/
theorem Trees.missing_of_blocked (ht : s.Trees) (hd : s.DirectoryBelow root before d)
    (blocked : s.Blocked allowed d rest) :
    s.Missing root (before ++ rest) names ↔
      names <+: before ++ rest ∧ names ≠ before ++ rest ∧ before.length < names.length := by
  constructor
  · rintro ⟨hstart, hproper, habsent⟩
    refine ⟨hstart, hproper, Nat.not_le.1 fun hle => ?_⟩
    -- what leads to `d` is there
    obtain ⟨m, hm⟩ := hd.of_start
      (List.prefix_of_prefix_length_le hstart (List.prefix_append before rest) hle)
    exact habsent m hm
  · rintro ⟨hstart, hproper, hlt⟩
    refine ⟨hstart, hproper, fun e he => ?_⟩
    obtain ⟨more, rfl⟩ :=
      List.prefix_of_prefix_length_le (List.prefix_append before rest) hstart (Nat.le_of_lt hlt)
    obtain ⟨tail, rfl⟩ := (List.prefix_append_right_inj before).1 hstart
    obtain ⟨m, hm, d', hd', hleads⟩ := directoryBelow_append.1 he
    obtain rfl := ht.directoryBelow_unique hd hm
    obtain rfl := Option.some.inj ((Sorted.get?_key hd.mem).symm.trans hd')
    cases more with
    | nil =>
      rw [List.append_nil] at hlt
      exact Nat.lt_irrefl _ hlt
    | cons name more =>
      -- the first of the names that are left is that of no child
      have htail : more ++ tail ≠ [] := by
        intro hnil
        obtain ⟨rfl, rfl⟩ := List.append_eq_nil_iff.1 hnil
        exact hproper rfl
      obtain ⟨c, hc, -⟩ := hleads
      rw [blocked.childrenNamed htail] at hc
      exact List.not_mem_nil hc

/-- Adding the rest of a path adds what is missing of it. -/
theorem Appends.addsSuffix (ht : s.Trees) (hd : s.DirectoryBelow root before d)
    (blocked : s.Blocked allowed d rest) (h : s.Appends n d rest f s') :
    s.AddsSuffix root (before ++ rest) f s' rest.length := by
  have g := h.attaches.grows hd.mem
  obtain ⟨d', hd', hk⟩ := hd.of_grows g
  have hfile : s'.FileBelow root (before ++ rest) f := .under hd' (hk.id ▸ h.fileBelow)
  constructor
  case adds => exact h.adds
  case blank => exact h.blank
  case directories =>
    intro e he hfree
    obtain ⟨names, hnonempty, hstart, hproper, hnames⟩ := h.onPath e he hfree
    rw [← hk.id] at hnames
    refine ⟨before ++ names, (ht.missing_of_blocked hd blocked).2 ⟨?_, ?_, ?_⟩,
      directoryBelow_append.2 ⟨d', hd', hnames⟩⟩
    · exact (List.prefix_append_right_inj before).2 hstart
    · exact fun heq => hproper (List.append_cancel_left heq)
    · rw [List.length_append]
      exact Nat.lt_add_of_pos_right (List.length_pos_iff.2 hnonempty)
  case oneEach =>
    intro names hmissing
    obtain ⟨e, he⟩ := hfile.directoryBelow hmissing.start hmissing.proper
    refine ⟨e, ⟨he, ?_⟩, fun e' he' => h.trees.directoryBelow_unique he'.1 he⟩
    cases hold : s.directories.get? e.id with
    | none => rfl
    | some e₀ => exact absurd (ht.directoryBelow_of_grows h.trees g he hold) (hmissing.absent e₀)
  case attached =>
    exact ⟨before, d, List.prefix_append before rest, hd, h.attaches,
      (List.length_append ..).symm, fun names => ht.missing_of_blocked hd blocked⟩

/-- Resolving a path finds the file with the least id at it. -/
theorem resolve_of_least (hroot : s.directories.get? root = some d)
    (hallowed : s.allowedIn scope = .ok allowed) (hf : s.FileBelow root segments f)
    (hin : allowed f.id = true)
    (least : ∀ g, s.FileBelow root segments g → allowed g.id = true → f.id.val ≤ g.id.val) :
    s.resolve root segments scope = .ok ⟨.file f, []⟩ := by
  obtain ⟨before, name, e, path, leads, mem⟩ := (fileBelow_iff hroot).1 ⟨hf, hin⟩
  have hne : segments ≠ [] := by
    rw [path]
    exact List.append_ne_nil_of_right_ne_nil _ (List.cons_ne_nil name [])
  obtain ⟨r, hr, hfound⟩ := resolve_spec hroot hne hallowed
  obtain ⟨f', rfl, hle⟩ := file_of_resolve hroot hallowed hr before path leads mem
  cases hfound with
  | file before' path' leads' mem' =>
    obtain ⟨hf', hin'⟩ := (fileBelow_iff hroot).2 ⟨before', _, _, path', leads', mem'⟩
    have hid : f'.id = f.id := congrArg NodeId.mk (UInt64.le_antisymm hle (least f' hf' hin'))
    obtain ⟨-, -, -, -, -, hget⟩ := hf
    obtain ⟨-, -, -, -, -, hget'⟩ := hf'
    rw [hid, hget] at hget'
    obtain rfl := Option.some.inj hget'
    exact hr

/-- A file of least id among those in scope is found in the commit of the scope, once it is
there. -/
theorem again_in_commit {id : NodeId} (hroot : s.directories.get? root = some d)
    (hscope : ∃ c ∈ s.commits, c.id = id) (hf : s.FileBelow root segments f)
    (least : ∀ g, s.FileBelow root segments g → s.InScope (.commit id) g.id →
      f.id.val ≤ g.id.val) :
    ∃ isNew s', Edit.mergeEdge .commitFile id f.id s = { result := .ok isNew, store := s' } ∧
      Edit.resolveOrGrow root segments (.commit id) s' = { result := .ok f, store := s' } := by
  obtain ⟨c, hc, rfl⟩ := hscope
  have hget : s.files.get? f.id = some f := by
    obtain ⟨-, -, -, -, -, hget⟩ := hf
    exact hget
  obtain ⟨isNew, hmerge⟩ := Edit.mergeEdge_commitFile (Sorted.get?_key hc) hget
  have hcongr : ∀ commits g, ({ s with commits } : Store).FileBelow root segments g ↔
      s.FileBelow root segments g := fun _ _ => fileBelow_congr (.refl _) (.refl _)
  refine ⟨isNew, _, hmerge, Edit.resolveOrGrow_of_file ?_⟩
  refine resolve_of_least hroot (allowedIn_commit (Sorted.get?_insert_self _ _))
    ((hcongr _ f).2 hf) ?_ fun g hg hin => ?_
  · exact SortedSet.contains_iff.2 (SortedSet.mem_insert.2 (.inl rfl))
  · rcases SortedSet.mem_insert.1 (SortedSet.contains_iff.1 hin) with hid | hold
    · exact UInt64.le_of_eq (congrArg NodeId.val hid.symm)
    · exact least g ((hcongr _ g).1 hg) ⟨c, hc, rfl, hold⟩

/-- What is kept when what is missing of a path is added. -/
theorem AddsMissing.keeps (h : s.AddsMissing n root segments scope f s' issued) :
    s.directories.Grows Directory.Kept s'.directories ∧ s'.commits = s.commits ∧
      issued ≤ segments.length := by
  by_cases hex : ∃ g, s.FileBelow root segments g ∧ s.InScope scope g.id
  · obtain ⟨rfl, rfl, -⟩ := h.found hex
    exact ⟨.of_eq (fun _ => .rfl) (.refl _), .refl _, Nat.zero_le _⟩
  · have hadded := h.added hex
    obtain ⟨known, e, -, he, hattaches, hcount, -⟩ := hadded.attached
    exact ⟨hattaches.grows he.mem, hadded.adds.beside.congr commits, by omega⟩

/-- The file of least id among those in scope at its path is found again. -/
theorem AddsMissing.ensuresFile (ht : s.Trees) (hroot : s.directories.get? root = some d)
    (hscope : ∀ id, scope = .commit id → ∃ c ∈ s.commits, c.id = id)
    (h : s.AddsMissing n root segments scope f s' issued)
    (least : ∀ g, s'.FileBelow root segments g → s'.InScope scope g.id → f.id.val ≤ g.id.val) :
    s.EnsuresFile n root segments scope f s' issued := by
  obtain ⟨g, hcommits, -⟩ := h.keeps
  obtain ⟨d', hroot', -⟩ := g _ _ hroot
  refine { h with path := ?_, again := ?_, againInCommit := ?_ }
  · have hd := Sorted.mem_of_get? hroot
    obtain rfl := Sorted.key_of_get? hroot
    obtain ⟨top, htop, hnone, hleads⟩ := ht.exists_top d hd
    refine ⟨top, _, d, htop, hnone, hleads, hroot, ?_⟩
    rw [h.trees.relativePath_of_fileBelow h.fileBelow, ht.namesAbove_of_grows h.trees g hd]
  · rintro rfl
    exact Edit.resolveOrGrow_of_file (resolve_of_least hroot' rfl h.fileBelow rfl
      fun x hx _ => least x hx trivial)
  · rintro id rfl
    have hc := hscope id rfl
    rw [← hcommits] at hc
    exact again_in_commit hroot' hc h.fileBelow least

/-- When the rest of a path has been added, no other file is at it that was in scope before. -/
theorem Appends.eq_of_fileBelow (ht : s.Trees) (hd : d ∈ s.directories)
    (h : s.Appends n d rest f s')
    (hnone : ¬∃ g, s.FileBelow root segments g ∧ s.InScope scope g.id) {g : FileRevision}
    (hg : s'.FileBelow root segments g) (hin : s'.InScope scope g.id) : g = f := by
  have hmem : g ∈ s'.files := by
    obtain ⟨-, -, -, -, -, hget⟩ := hg
    exact Sorted.mem_of_get? hget
  rw [h.adds.files] at hmem
  refine (Sorted.mem_insert.1 hmem).resolve_right fun hold => hnone ⟨g, ?_, ?_⟩
  · exact ht.fileBelow_of_grows h.trees (h.attaches.grows hd) hold.1 hg
  · have hcommits : s'.commits = s.commits := h.adds.beside.congr commits
    cases scope with
    | everywhere => trivial
    | commit id =>
      unfold InScope at hin ⊢
      rwa [hcommits] at hin

/-- Asking for the file at a path below a directory that exists succeeds. -/
theorem Trees.ensuresFile (ht : s.Trees) (hs : s.Numbered n)
    (hroot : s.directories.get? root = some d) (hne : segments ≠ [])
    (hscope : ∀ id, scope = .commit id → ∃ c ∈ s.commits, c.id = id)
    (hn : n + segments.length < 2 ^ 64) :
    ∃ f s' issued, Edit.resolveOrGrow root segments scope s
        = { result := .ok f, store := s', issued } ∧
      s.EnsuresFile n root segments scope f s' issued := by
  obtain ⟨allowed, hallowed, hin⟩ := allowedIn_inScope hscope
  obtain ⟨r, hr, hfound⟩ := resolve_spec hroot hne hallowed
  -- a file in scope at the path is found, up to its id
  have hsearch : ∀ g, s.FileBelow root segments g → s.InScope scope g.id →
      ∃ f, r = ⟨.file f, []⟩ ∧ f.id.val ≤ g.id.val := by
    intro g hg hgin
    obtain ⟨before, name, e, path, leads, mem⟩ :=
      (fileBelow_iff hroot).1 ⟨hg, (hin g.id).2 hgin⟩
    exact file_of_resolve hroot hallowed hr before path leads mem
  cases hfound with
  | @file before name e f path leads mem =>
    obtain ⟨hbelow, hfin⟩ := (fileBelow_iff hroot).2 ⟨before, name, e, path, leads, mem⟩
    have hscoped : s.InScope scope f.id := (hin f.id).1 hfin
    have hadds : s.AddsMissing n root segments scope f s 0 := {
      found := fun _ => ⟨rfl, rfl, hscoped⟩
      added := fun hnone => absurd ⟨f, hbelow, hscoped⟩ hnone
      trees := ht
      numbered := hs
      fileBelow := hbelow }
    refine ⟨f, s, 0, Edit.resolveOrGrow_of_file hr, hadds.ensuresFile ht hroot hscope ?_⟩
    intro g hg hgin
    obtain ⟨f', hf', hle⟩ := hsearch g hg hgin
    cases hf'
    exact hle
  | @directory before rest e path leads blocked =>
    have hat : s.DirectoryBelow root before e := ⟨d, hroot, leads⟩
    have hnone : ¬∃ g, s.FileBelow root segments g ∧ s.InScope scope g.id := by
      rintro ⟨g, hg, hgin⟩
      obtain ⟨f', hf', -⟩ := hsearch g hg hgin
      cases hf'
    subst path
    rw [List.length_append] at hn
    obtain ⟨f, s', hgrow, h⟩ := Edit.growPath_appends blocked.ne_nil ht hs (by omega) hat.mem
      (by rintro name more rfl hmore; exact blocked.childrenNamed hmore)
    obtain ⟨e', he', hk⟩ := hat.of_grows (h.attaches.grows hat.mem)
    have hadds : s.AddsMissing n root (before ++ rest) scope f s' rest.length := {
      found := fun hex => absurd hex hnone
      added := fun _ => h.addsSuffix ht hat blocked
      trees := h.trees
      numbered := h.numbered
      fileBelow := .under he' (hk.id ▸ h.fileBelow) }
    refine ⟨f, s', rest.length,
      (Edit.resolveOrGrow_of_directory hr blocked.ne_nil).trans hgrow,
      hadds.ensuresFile ht hroot hscope ?_⟩
    intro g hg hgin
    rw [h.eq_of_fileBelow ht hat.mem hnone hg hgin]
    exact UInt64.le_refl _

/-! ## Asking for several files -/

/-- After asking for a file there are directories at all paths where there were some, and on the
way to the file. -/
theorem AddsMissing.directoryBelow_iff (ht : s.Trees)
    (h : s.AddsMissing n root segments scope f s' issued) :
    (∃ e, s'.DirectoryBelow root names e) ↔
      (∃ e, s.DirectoryBelow root names e) ∨ names <+: segments ∧ names ≠ segments := by
  obtain ⟨g, -, -⟩ := h.keeps
  constructor
  · rintro ⟨e', he'⟩
    cases hold : s.directories.get? e'.id with
    | some e => exact .inl ⟨e, ht.directoryBelow_of_grows h.trees g he' hold⟩
    | none =>
      have hnone : ¬∃ x, s.FileBelow root segments x ∧ s.InScope scope x.id := by
        intro hex
        obtain ⟨rfl, -⟩ := h.found hex
        rw [Sorted.get?_key he'.mem] at hold
        cases hold
      obtain ⟨names', hmissing, hnames'⟩ := (h.added hnone).directories e' he'.mem hold
      obtain rfl := h.trees.namesBelow_unique he' hnames'
      exact .inr ⟨hmissing.start, hmissing.proper⟩
  · rintro (⟨e, he⟩ | ⟨hstart, hproper⟩)
    · obtain ⟨e', he', -⟩ := he.of_grows g
      exact ⟨e', he'⟩
    · exact h.fileBelow.directoryBelow hstart hproper

/-- Asking for several files adds the directories on the way to them, and no others. -/
theorem Trees.ensuresFiles {paths : List (List String × Scope)} :
    ∀ {n : Nat} {s : Store}, s.Trees → s.Numbered n → (s.directories.get? root).isSome →
      (∀ p ∈ paths, p.1 ≠ [] ∧ ∀ id, p.2 = .commit id → ∃ c ∈ s.commits, c.id = id) →
      n + (paths.map fun p => p.1.length).sum < 2 ^ 64 →
      ∃ s' issued, Edit.resolveOrGrowAll root paths s
          = { result := .ok (), store := s', issued } ∧ s'.Trees ∧
        ∀ names, (∃ e, s'.DirectoryBelow root names e) ↔
          (∃ e, s.DirectoryBelow root names e) ∨
            ∃ p ∈ paths, names <+: p.1 ∧ names ≠ p.1 := by
  induction paths with
  | nil =>
    intro n s ht _ _ _ _
    exact ⟨s, 0, rfl, ht, fun names => by simp⟩
  | cons p paths ih =>
    intro n s ht hs hroot hpaths hn
    obtain ⟨segments, scope⟩ := p
    obtain ⟨⟨hne, hscope⟩, hrest⟩ := List.forall_mem_cons.1 hpaths
    rw [List.map_cons, List.sum_cons] at hn
    obtain ⟨d, hd⟩ := Option.isSome_iff_exists.1 hroot
    obtain ⟨f, s₁, i, happly, h⟩ := ht.ensuresFile hs hd hne hscope (by omega)
    obtain ⟨g, hcommits, hle⟩ := h.keeps
    obtain ⟨d₁, hd₁, -⟩ := g _ _ hd
    obtain ⟨s₂, j, happly', ht₂, hnames⟩ := ih h.trees h.numbered (Option.isSome_of_eq_some hd₁)
      (by rwa [hcommits]) (by omega)
    refine ⟨s₂, i + j, ?_, ht₂, fun names => ?_⟩
    · unfold Edit.resolveOrGrowAll
      rw [Edit.bind_of_ok happly, happly']
    · rw [hnames, h.directoryBelow_iff ht, List.exists_mem_cons_iff, or_assoc]

/-- In any store whose directories and files form trees, asking for the file at a path below a
directory adds exactly what is missing of the path. So after asking for several files there are
directories at the paths where there were some, and on the way to the files. -/
theorem suffix_added (s : Store) (root : NodeId) {n : Nat} (ht : s.Trees) (hs : s.Numbered n)
    (hroot : (s.directories.get? root).isSome) :
    (∀ segments scope, segments ≠ [] →
      (∀ id, scope = .commit id → ∃ c ∈ s.commits, c.id = id) →
      n + segments.length < 2 ^ 64 →
      ∃ f s' issued, Edit.resolveOrGrow root segments scope s
          = { result := .ok f, store := s', issued } ∧
        s.EnsuresFile n root segments scope f s' issued) ∧
    ∀ paths : List (List String × Scope),
      (∀ p ∈ paths, p.1 ≠ [] ∧ ∀ id, p.2 = .commit id → ∃ c ∈ s.commits, c.id = id) →
      n + (paths.map fun p => p.1.length).sum < 2 ^ 64 →
      ∃ s' issued, Edit.resolveOrGrowAll root paths s
          = { result := .ok (), store := s', issued } ∧ s'.Trees ∧
        ∀ names, (∃ e, s'.DirectoryBelow root names e) ↔
          (∃ e, s.DirectoryBelow root names e) ∨
            ∃ p ∈ paths, names <+: p.1 ∧ names ≠ p.1 := by
  constructor
  · intro segments scope hne hscope hn
    obtain ⟨d, hd⟩ := Option.isSome_iff_exists.1 hroot
    exact ht.ensuresFile hs hd hne hscope hn
  · intro paths hpaths hn
    exact ht.ensuresFiles hs hroot hpaths hn

theorem suffix_added_sample :
    ∃ s n, s = (∅ : Store).after Ingestion.sample ∧ s.Trees ∧ s.Numbered n ∧
      (s.directories.get? 1).isSome ∧ (∃ c ∈ s.commits, c.id = 5) ∧ n + 5 < 2 ^ 64 ∧
      (∃ f s' issued, Edit.resolveOrGrow 1 ["src", "new", "a.rs"] (.commit 5) s
          = { result := .ok f, store := s', issued } ∧
        s.EnsuresFile n 1 ["src", "new", "a.rs"] (.commit 5) f s' issued) ∧
      ∃ s' issued, Edit.resolveOrGrowAll 1
          [(["src", "new", "a.rs"], .commit 5), (["src", "a.rs"], .everywhere)] s
            = { result := .ok (), store := s', issued } ∧ s'.Trees ∧
        ∀ names, (∃ e, s'.DirectoryBelow 1 names e) ↔
          (∃ e, s.DirectoryBelow 1 names e) ∨
            ∃ p ∈ [(["src", "new", "a.rs"], Scope.commit 5), (["src", "a.rs"], .everywhere)],
              names <+: p.1 ∧ names ≠ p.1 := by
  obtain ⟨s, hsample⟩ : ∃ s, s = (∅ : Store).after Ingestion.sample := ⟨_, rfl⟩
  obtain ⟨n, hids, owner, hs⟩ : ∃ n, n + 5 < 2 ^ 64 ∧ ∃ owner, s.Sound owner n := by
    rw [hsample]
    exact ⟨_, by decide +kernel, sound_after_empty Ingestion.sample (by decide +kernel)⟩
  have hroot : (s.directories.get? 1).isSome := by
    rw [hsample]
    decide +kernel
  have hcommit : ∃ c ∈ s.commits, c.id = 5 := by
    have hget : (s.commits.get? 5).isSome := by
      rw [hsample]
      decide +kernel
    obtain ⟨c, hc⟩ := Option.isSome_iff_exists.1 hget
    exact ⟨c, Sorted.mem_of_get? hc, Sorted.key_of_get? hc⟩
  have hscope : ∀ id, Scope.commit 5 = .commit id → ∃ c ∈ s.commits, c.id = id := by
    rintro _ ⟨⟩
    exact hcommit
  obtain ⟨hone, hall⟩ := suffix_added s 1 hs.trees hs.numbered hroot
  refine ⟨s, n, hsample, hs.trees, hs.numbered, hroot, hcommit, hids,
    hone _ _ (by decide) hscope ?_, hall _ ?_ hids⟩
  · exact Nat.lt_of_le_of_lt (Nat.add_le_add_left (by decide) n) hids
  · exact List.forall_mem_cons.2 ⟨⟨by decide, hscope⟩,
      List.forall_mem_singleton.2 ⟨by decide, nofun⟩⟩

end Store
end Cityscape
