import Cityscape.Proofs.Edges
import Cityscape.Proofs.Resolution
import Cityscape.Proofs.Runs
import Cityscape.Proofs.Untouched
import Cityscape.Tree.Growth

/-!
# `Growth`: what adding to the file tree comes to

Below a directory that resolving has found, the segments that are left are added and nothing
else. So the new file has the path that was asked for, and no directory gets two children of one
name. The commits and what contains them stay as they are.
-/

namespace Cityscape

namespace Store

variable {s s' s'' : Store} {f : FileRevision}

/-- The stores differ in the file tree only. -/
def SameBesideTree (s s' : Store) : Prop :=
  { s' with
    nextId := s.nextId
    directories := s.directories
    files := s.files } = s

/-- What does not read the file tree reads the same in both stores. -/
theorem SameBesideTree.congr {α : Type} (h : s.SameBesideTree s') (read : Store → α) :
    read { s' with
      nextId := s.nextId
      directories := s.directories
      files := s.files } = read s := congrArg read h

theorem SameBesideTree.trans (h : s.SameBesideTree s') (h' : s'.SameBesideTree s'') :
    s.SameBesideTree s'' := by
  unfold SameBesideTree at h h' ⊢
  rw [← h'] at h
  exact h

theorem SameBesideTree.sameCommits (h : s.SameBesideTree s') : s.SameCommits s' :=
  fun _ => .of_eq (h.congr commits) (h.congr repositories)

/-- Every directory that has come in hangs below the given top, and the names above it are
allowed. -/
def NewAt (s : Store) (top : Option NodeId) (allowed : List String → Prop) (s' : Store) : Prop :=
  ∀ d ∈ s'.directories, s.directories.get? d.id = none →
    s'.topAbove (some d.id) = top ∧ allowed (s'.namesAbove (some d.id))

namespace NewAt

variable {top : Option NodeId} {allowed allowed' : List String → Prop}

/-- No directory has come in. -/
theorem of_eq (h : s'.directories = s.directories) : s.NewAt top allowed s' := by
  intro d hd hnew
  rw [Sorted.get?_key (h ▸ hd)] at hnew
  cases hnew

theorem mono (h : s.NewAt top allowed s') (hallowed : ∀ names, allowed names → allowed' names) :
    s.NewAt top allowed' s' :=
  fun d hd hnew => (h d hd hnew).imp id (hallowed _)

/-- What has come in first is where it was, since trees only grow. -/
theorem trans (h : s.NewAt top allowed s') (h' : s'.NewAt top allowed s'') (ht : s'.Trees)
    (ht' : s''.Trees) (g : s'.directories.Grows Directory.Kept s''.directories) :
    s.NewAt top allowed s'' := by
  intro d hd hnew
  cases hfirst : s'.directories.get? d.id with
  | none => exact h' d hd hfirst
  | some d₁ =>
    have hmem := Sorted.mem_of_get? hfirst
    have hid := Sorted.key_of_get? hfirst
    rw [← hid, ht.topAbove_of_grows ht' g hmem, ht.namesAbove_of_grows ht' g hmem]
    exact h d₁ hmem (hid ▸ hnew)

end NewAt

/-- A file without contents has come into the store, and nothing else but directories. -/
structure AddsFile (s : Store) (f : FileRevision) (s' : Store) : Prop where
  beside : s.SameBesideTree s'
  files : s'.files = s.files.insert f
  fresh : s.files.get? f.id = none
  functions : f.functions = ∅

end Store

namespace Edit

variable {owner : NodeId → String} {t : String} {k : Topic} {n : Nat} {s : Store}

/-! ## One node -/

theorem addDirectory_apply {p : Directory} (name : String) (hp : p ∈ s.directories)
    (hnew : s.directories.get? ⟨s.nextId⟩ = none) :
    addDirectory p.id name s
      = { result := .ok { id := ⟨s.nextId⟩, name, parent := some p.id }
          store := s.withDirectory p name
          issued := 1 } := by
  have hne : p.id ≠ ⟨s.nextId⟩ := by
    intro he
    rw [← he, Sorted.get?_key hp] at hnew
    cases hnew
  let d : Directory := { id := ⟨s.nextId⟩, name }
  let s₁ : Store := { s with
    nextId := s.nextId + 1
    directories := s.directories.insert d }
  have hsave : Store.saveDirectory { s with nextId := s.nextId + 1 } d = s₁ := by
    show { s with nextId := s.nextId + 1, directories := _ } = s₁
    rw [hnew]
  -- the edge needs both ends, and the new one is there already
  have hsource : s₁.directories.get? p.id = some p := by
    rw [Sorted.get?_insert, if_neg hne, Sorted.get?_key hp]
  have htarget : s₁.directories.get? ⟨s.nextId⟩ = some d := Sorted.get?_insert_self _ d
  have hstored : s₁.withEdge .directorySubdirectory p.id ⟨s.nextId⟩ = s.withDirectory p name := by
    show { s₁ with directories := (s₁.directories.modify p.id _).modify ⟨s.nextId⟩ _ } = _
    -- the new directory is stored without parent first, and once more when it has one
    have hswap := Sorted.insert_comm (s := s.directories) (x := d)
      (y := { p with subdirectories := p.subdirectories.insert ⟨s.nextId⟩ }) hne.symm
    have htable := Sorted.modify_insert (x := d) (f := fun d => { d with parent := some p.id })
      (s := s.directories.insert { p with subdirectories := p.subdirectories.insert ⟨s.nextId⟩ })
      (.refl _)
    rw [Sorted.modify_of_get? hsource]
    rw [← hswap] at htable
    exact congrArg (fun ds => { s₁ with directories := ds }) htable
  have hedge : mergeEdge .directorySubdirectory p.id ⟨s.nextId⟩ s₁
      = { result := .ok (!(s₁.edgesFrom .directorySubdirectory p.id).contains ⟨s.nextId⟩)
          store := s.withDirectory p name } := by
    rw [← hstored]
    exact Store.containDirectory_of_free htarget (.inl rfl)
      (Option.isSome_iff_exists.2 ⟨p, hsource⟩) hne
  unfold addDirectory
  rw [bind_of_ok (allocate_apply s)]
  simp only
  rw [bind_of_ok (change_apply _ _), hsave, bind_of_ok hedge]
  rfl

theorem addFile_apply {p : Directory} (name : String) (hp : p ∈ s.directories)
    (hnew : s.files.get? ⟨s.nextId⟩ = none) :
    addFile p.id name s
      = { result := .ok { id := ⟨s.nextId⟩, name, parent := some p.id }
          store := s.withFile p name
          issued := 1 } := by
  let f : FileRevision := { id := ⟨s.nextId⟩, name }
  let s₁ : Store := { s with
    nextId := s.nextId + 1
    files := s.files.insert f }
  have hsave : Store.saveFile { s with nextId := s.nextId + 1 } f = s₁ := by
    show { s with nextId := s.nextId + 1, files := _ } = s₁
    rw [hnew]
  have htarget : s₁.files.get? ⟨s.nextId⟩ = some f := Sorted.get?_insert_self _ f
  have hsource : s₁.directories.get? p.id = some p := Sorted.get?_key hp
  have hstored : s₁.withEdge .directoryFile p.id ⟨s.nextId⟩ = s.withFile p name := by
    show { s₁ with
      directories := s₁.directories.modify p.id _, files := s₁.files.modify ⟨s.nextId⟩ _ } = _
    have htable := Sorted.modify_insert (s := s.files) (x := f)
      (f := fun f => { f with parent := some p.id }) (.refl _)
    rw [Sorted.modify_of_get? hsource]
    exact congrArg (fun fs => { s.withFile p name with files := fs }) htable
  have hedge : mergeEdge .directoryFile p.id ⟨s.nextId⟩ s₁
      = { result := .ok (!(s₁.edgesFrom .directoryFile p.id).contains ⟨s.nextId⟩)
          store := s.withFile p name } := by
    rw [← hstored]
    exact Store.containFile_of_free htarget (.inl rfl) (Option.isSome_iff_exists.2 ⟨p, hsource⟩)
  unfold addFile
  rw [bind_of_ok (allocate_apply s)]
  simp only
  rw [bind_of_ok (change_apply _ _), hsave, bind_of_ok hedge]
  rfl

theorem runs_addDirectory {p : Directory} {name : String} (h : Ready owner t n s)
    (topic : k ≠ .file) (hp : p ∈ s.directories) (own : owner p.id = t)
    (fresh : s.childrenNamed p name = []) :
    Runs owner t k (addDirectory p.id name) n s
      (fun d s' => d ∈ s'.directories ∧ owner d.id = t ∧ d.subdirectories = ∅ ∧
        s'.namesAbove (some d.id) = s.namesAbove (some p.id) ++ [name] ∧
        s'.topAbove (some d.id) = s.topAbove (some p.id) ∧ s.SameBesideTree s' ∧
        s'.files = s.files ∧ s.NewAt (s.topAbove (some p.id))
          (fun names => names = s.namesAbove (some p.id) ++ [name]) s')
      fun _ => False := by
  refine Runs.of_allocate fun hn => ?_
  refine Runs.of_step h
    (addDirectory_apply name hp (h.sound.numbered.get?_next hn h.sound.numbered.directories))
    (fun _ => .newDirectory topic hp own (Store.childrenNamed_eq_nil.1 fresh) (h.own_next hn))
    fun h' g => ?_
  have hmem : { id := ⟨s.nextId⟩, name, parent := some p.id }
      ∈ (s.withDirectory p name).directories := Sorted.mem_insert_self _ _
  have hup := h'.sound.trees.namesAbove_below hmem (.refl _)
  rw [h.sound.trees.namesAbove_of_grows h'.sound.trees g.directories hp] at hup
  have htop := h'.sound.trees.topAbove_below hmem (.refl _)
  rw [h.sound.trees.topAbove_of_grows h'.sound.trees g.directories hp] at htop
  refine ⟨hmem, h.own_next hn, .refl _, hup, htop, .refl _, .refl _, fun d hd hnew => ?_⟩
  rcases Sorted.mem_insert.1 hd with rfl | ⟨hd, -⟩
  · exact ⟨htop, hup⟩
  rcases Sorted.mem_insert.1 hd with rfl | ⟨hd, -⟩
  · rw [Sorted.get?_key hp] at hnew
    cases hnew
  · rw [Sorted.get?_key hd] at hnew
    cases hnew

theorem runs_addFile {p : Directory} {name : String} (h : Ready owner t n s)
    (topic : k = .span ∨ ∃ hash parent, k = .commit hash parent)
    (hp : p ∈ s.directories) (own : owner p.id = t) :
    Runs owner t k (addFile p.id name) n s
      (fun f s' => f ∈ s'.files ∧ owner f.id = t ∧ f.hash = none ∧
        s'.relativePath f = s.namesAbove (some p.id) ++ [name] ∧
        s'.topAbove f.parent = s.topAbove (some p.id) ∧ s.AddsFile f s')
      fun _ => False := by
  refine Runs.of_allocate fun hn => ?_
  have hnew := h.sound.numbered.get?_next hn h.sound.numbered.files
  refine Runs.of_step h (addFile_apply name hp hnew)
    (fun _ => .newFile topic hp own (h.own_next hn)) fun h' g => ?_
  have hup := h.sound.trees.namesAbove_of_grows h'.sound.trees g.directories hp
  have htop := h.sound.trees.topAbove_of_grows h'.sound.trees g.directories hp
  refine ⟨Sorted.mem_insert_self _ _, h.own_next hn, .refl _, ?_, htop, .refl _, .refl _, hnew,
    .refl _⟩
  rw [Store.relativePath_eq, hup]

/-! ## What is left of a path -/

theorem childrenNamed_of_empty {d : Directory} (h : d.subdirectories = ∅) (name : String) :
    s.childrenNamed d name = [] := by
  rw [Store.childrenNamed_eq_nil, h]
  exact fun x hx => absurd hx (Sorted.not_mem_empty x)

/-- If the first of several segments is not there, the file that is added has the path that was
asked for. -/
theorem runs_growPath {segments : List String} (hne : segments ≠ [])
    (topic : k = .span ∨ ∃ hash parent, k = .commit hash parent) :
    ∀ {n : Nat} {s : Store} {d : Directory}, Ready owner t n s → d ∈ s.directories →
      owner d.id = t →
      (∀ name rest, segments = name :: rest → rest ≠ [] → s.childrenNamed d name = []) →
      Runs owner t k (growPath d.id segments) n s
        (fun f s' => f ∈ s'.files ∧ owner f.id = t ∧ f.hash = none ∧
          s'.relativePath f = s.namesAbove (some d.id) ++ segments ∧
          s'.topAbove f.parent = s.topAbove (some d.id) ∧ s.AddsFile f s')
        fun _ => False := by
  have notFile : k ≠ .file := by
    rcases topic with rfl | ⟨_, _, rfl⟩ <;> nofun
  induction segments with
  | nil =>
    intros
    exact absurd rfl hne
  | cons name rest ih =>
    intro n s d h hd own fresh
    cases rest with
    | nil => exact runs_addFile h topic hd own
    | cons next more =>
      have hfree := fresh name (next :: more) rfl (List.cons_ne_nil _ _)
      refine Runs.bind h (runs_addDirectory h notFile hd own hfree) ?_
      rintro c n' s' h' g ⟨hc, hown, hempty, hup, htop, hsame, hfiles, -⟩
      -- the directory that has just been added has no children at all
      refine Runs.imp h' (ih (List.cons_ne_nil _ _) h' hc hown
        fun name _ _ _ => childrenNamed_of_empty hempty name) ?_
      rintro f _ s'' - - ⟨hf, hfown, hash, hpath, hftop, hadds⟩
      refine ⟨hf, hfown, hash, ?_, hftop.trans htop,
        { hadds with
          beside := hsame.trans hadds.beside
          files := hfiles ▸ hadds.files
          fresh := hfiles ▸ hadds.fresh }⟩
      rw [hpath, hup, List.append_assoc]
      rfl

/-- Below a directory that resolving has found, what is left of the path is added. -/
theorem runs_growPath_of_blocked {allowed : NodeId → Bool} {d : Directory} {rest : List String}
    (h : Ready owner t n s) (topic : k = .span ∨ ∃ hash parent, k = .commit hash parent)
    (hd : d ∈ s.directories) (own : owner d.id = t) (blocked : s.Blocked allowed d rest) :
    Runs owner t k (growPath d.id rest) n s
      (fun f s' => f ∈ s'.files ∧ owner f.id = t ∧ f.hash = none ∧
        s'.relativePath f = s.namesAbove (some d.id) ++ rest ∧
        s'.topAbove f.parent = s.topAbove (some d.id) ∧ s.AddsFile f s')
      fun _ => False := by
  refine runs_growPath blocked.ne_nil topic h hd own ?_
  rintro name more rfl hmore
  exact blocked.childrenNamed hmore

/-- The directory at the end of a path of directories hangs below the first one, at this path. What
has come in is on the way to it. -/
theorem runs_growDirectories (topic : k ≠ .file) {segments : List String} :
    ∀ {n : Nat} {s : Store} {d : Directory}, Ready owner t n s → d ∈ s.directories →
      owner d.id = t →
      Runs owner t k (growDirectories d segments) n s
        (fun e s' => e ∈ s'.directories ∧ owner e.id = t ∧
          s'.namesAbove (some e.id) = s.namesAbove (some d.id) ++ segments ∧
          s'.topAbove (some e.id) = s.topAbove (some d.id) ∧ s.SameBesideTree s' ∧
          s.NewAt (s.topAbove (some d.id)) (fun names => ∃ more, more ≠ [] ∧ more <+: segments ∧
            names = s.namesAbove (some d.id) ++ more) s')
        fun _ => False := by
  induction segments with
  | nil =>
    intro n s d h hd own
    exact Runs.pure ⟨hd, own, (List.append_nil _).symm, .refl _, .refl _, .of_eq rfl⟩
  | cons name rest ih =>
    intro n s d h hd own
    have hpath : ∀ above more : List String, above ++ [name] ++ more = above ++ name :: more := by
      simp
    -- what is on the way from the child is also on the way from its parent
    have hway : ∀ {above names : List String}, (∃ more, more ≠ [] ∧ more <+: rest ∧
        names = above ++ [name] ++ more) →
        ∃ more, more ≠ [] ∧ more <+: name :: rest ∧ names = above ++ more := by
      rintro above names ⟨more, -, hmore, rfl⟩
      exact ⟨name :: more, List.cons_ne_nil _ _, (List.prefix_cons_inj name).2 hmore,
        hpath above more⟩
    refine Runs.store_bind ?_
    cases hc : s.childrenNamed d name with
    | cons c others =>
      have hmem : c ∈ s.childrenNamed d name := hc ▸ List.mem_cons_self
      have hleads := Store.leads_single.2 hmem
      have hown := h.sound.owner_of_leads hd hleads
      refine Runs.imp h (ih h (Store.mem_of_childrenNamed hmem) (hown.trans own)) ?_
      rintro e _ s' - - ⟨he, heown, hup, htop, hsame, hnew⟩
      rw [h.sound.trees.namesAbove_of_leads hd hleads] at hup hnew
      rw [h.sound.trees.topAbove_of_leads hd hleads] at htop hnew
      exact ⟨he, heown, hup.trans (hpath _ _), htop, hsame, hnew.mono fun _ => hway⟩
    | nil =>
      refine Runs.bind h (runs_addDirectory h topic hd own hc) ?_
      rintro c n' s' h' g ⟨hc, hown, -, hcup, hctop, hsame, -, hnew⟩
      refine Runs.imp h' (ih h' hc hown) ?_
      rintro e _ s'' h'' g' ⟨he, heown, hup, htop, hsame', hnew'⟩
      rw [hcup] at hup hnew'
      rw [hctop] at htop hnew'
      refine ⟨he, heown, hup.trans (hpath _ _), htop, hsame.trans hsame', ?_⟩
      refine .trans (hnew.mono ?_) (hnew'.mono fun _ => hway) h'.sound.trees h''.sound.trees
        g'.directories
      rintro names rfl
      exact ⟨[name], List.cons_ne_nil _ _, ⟨rest, rfl⟩, rfl⟩

theorem runs_ensureDirectories (h : Ready owner t n s) (topic : k ≠ .file) {d : Directory}
    (hd : d ∈ s.directories) (own : owner d.id = t) {segments : List String} :
    Runs owner t k (ensureDirectories d.id segments) n s
      (fun e s' => e ∈ s'.directories ∧ owner e.id = t ∧
        s'.namesAbove (some e.id) = s.namesAbove (some d.id) ++ segments ∧
        s'.topAbove (some e.id) = s.topAbove (some d.id) ∧ s.SameBesideTree s' ∧
        s.NewAt (s.topAbove (some d.id)) (fun names => ∃ more, more ≠ [] ∧ more <+: segments ∧
          names = s.namesAbove (some d.id) ++ more) s')
      fun _ => False := by
  unfold ensureDirectories
  refine Runs.store_bind ?_
  rw [Sorted.get?_key hd]
  exact Runs.bind h (P := fun e s' => e = d ∧ s' = s) (Runs.pure ⟨rfl, rfl⟩) (by
    rintro e n' s' h' g ⟨rfl, rfl⟩
    exact runs_growDirectories topic h' hd own)

end Edit
end Cityscape
