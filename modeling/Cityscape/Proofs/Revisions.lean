import Cityscape.Proofs.Account

/-!
# `Revisions`: which revision a file of a fact means

Of the revisions of a repository that have the hash and the path of a file, the one with the least
id is meant (`Store.findRevision_eq_some_iff`). A file that comes into the repository later on may
be older than that, but then it has another hash or path. So a revision that is found once is found
for ever (`Store.KeepsRevisions`).
-/

namespace Cityscape

/-- In a list in ascending order of ids, the first element that satisfies a condition is the one
with the least id. -/
theorem find?_eq_some_iff_least {α : Type} {key : α → NodeId} {P : α → Bool} {l : List α} {x : α}
    (h : l.Pairwise fun a b => (key a).val < (key b).val) :
    l.find? P = some x ↔
      (x ∈ l ∧ P x = true) ∧ ∀ y ∈ l, P y = true → (key x).val ≤ (key y).val := by
  -- what satisfies the condition is the one that is found or follows it
  have hfollows : ∀ {z}, l.find? P = some z → ∀ y ∈ l, P y = true →
      y = z ∨ (key z).val < (key y).val := by
    intro z hz y hy hP
    obtain ⟨-, before, after, rfl, hbefore⟩ := List.find?_eq_some_iff_append.1 hz
    rcases List.mem_append.1 hy with hy | hy
    · exact absurd hP (by simpa using hbefore y hy)
    · obtain ⟨hlt, -⟩ := List.pairwise_cons.1 (List.pairwise_append.1 h).2.1
      exact (List.mem_cons.1 hy).imp_right (hlt y)
  constructor
  · intro hx
    refine ⟨⟨List.mem_of_find?_eq_some hx, List.find?_some hx⟩, fun y hy hP => ?_⟩
    rcases hfollows hx y hy hP with rfl | hlt
    · exact UInt64.le_refl _
    · exact UInt64.le_of_lt hlt
  · rintro ⟨⟨hx, hP⟩, hmin⟩
    obtain ⟨z, hz⟩ := Option.isSome_iff_exists.1 (List.find?_isSome.2 ⟨x, hx, hP⟩)
    rcases hfollows hz x hx hP with rfl | hlt
    · exact hz
    · have hle := hmin z (List.mem_of_find?_eq_some hz) (List.find?_some hz)
      exact absurd (UInt64.lt_of_lt_of_le hlt hle) (UInt64.lt_irrefl _)

namespace Store

variable {owner : NodeId → String} {n m : Nat} {s s' s'' : Store}

/-- The store after a commit has got a file revision. -/
def withRevision (s : Store) (c : Commit) (file : NodeId) : Store :=
  { s with commits := s.commits.insert { c with fileRevisions := c.fileRevisions.insert file } }

/-- The files of a repository are those of its commits. -/
theorem mem_fileIdsOf {r : Repository} (hr : r ∈ s.repositories) {id : NodeId} :
    id ∈ s.fileIdsOf r.id ↔ ∃ c ∈ s.commits, c.id ∈ r.commits ∧ id ∈ c.fileRevisions := by
  unfold fileIdsOf
  rw [Sorted.get?_key hr]
  simp only [SortedSet.mem_ofList, List.mem_flatMap, List.mem_filterMap, Sorted.mem_toList]
  constructor
  · rintro ⟨c, ⟨i, hi, hget⟩, hfile⟩
    obtain rfl := Sorted.key_of_get? hget
    exact ⟨c, Sorted.mem_of_get? hget, hi, hfile⟩
  · rintro ⟨c, hc, hi, hfile⟩
    exact ⟨c, ⟨c.id, hi, Sorted.get?_key hc⟩, hfile⟩

theorem mem_filesByHash {repository : NodeId} {hash : String} {f : FileRevision} :
    f ∈ s.filesByHash repository hash ↔
      f ∈ s.files ∧ f.id ∈ s.fileIdsOf repository ∧ f.hash = some hash := by
  unfold filesByHash
  simp only [List.mem_filter, List.mem_filterMap, decide_eq_true_eq, Sorted.mem_toList]
  constructor
  · rintro ⟨⟨id, hid, hget⟩, hash⟩
    obtain rfl := Sorted.key_of_get? hget
    exact ⟨Sorted.mem_of_get? hget, hid, hash⟩
  · rintro ⟨hf, hid, hash⟩
    exact ⟨⟨f.id, hid, Sorted.get?_key hf⟩, hash⟩

/-- A file of a repository has a hash and belongs to the token of the repository. -/
theorem Sound.of_fileIdsOf (hs : s.Sound owner n) {r : Repository} (hr : r ∈ s.repositories)
    {id : NodeId} (hid : id ∈ s.fileIdsOf r.id) :
    ∃ f ∈ s.files, f.id = id ∧ f.hash.isSome ∧ owner id = r.token := by
  obtain ⟨c, hc, hi, hfile⟩ := (mem_fileIdsOf hr).1 hid
  obtain ⟨x, hx, htoken⟩ := (hs.fitting.repositories r hr).commits c.id hi
  obtain rfl : c = x := Option.some.inj ((Sorted.get?_key hc).symm.trans hx)
  obtain ⟨f, hf, hash, hown⟩ := (hs.fitting.commits c hc).files id hfile
  exact ⟨f, Sorted.mem_of_get? hf, Sorted.key_of_get? hf, hash, hown.trans htoken⟩

/-- A file that is found by its content hash has it, and belongs to the token of the
repository. -/
theorem Sound.of_filesByHash (hs : s.Sound owner n) {r : Repository} {hash : String}
    {f : FileRevision} (hr : r ∈ s.repositories) (hf : f ∈ s.filesByHash r.id hash) :
    f ∈ s.files ∧ f.hash = some hash ∧ owner f.id = r.token := by
  obtain ⟨hmem, hid, hash⟩ := mem_filesByHash.1 hf
  obtain ⟨-, -, -, -, hown⟩ := hs.of_fileIdsOf hr hid
  exact ⟨hmem, hash, hown⟩

theorem fileIdsOf_of_grows (g : s.Grows s') {r r' : Repository} (hr : r ∈ s.repositories)
    (hr' : r' ∈ s'.repositories) (he : r'.id = r.id) {id : NodeId} (hid : id ∈ s.fileIdsOf r.id) :
    id ∈ s'.fileIdsOf r'.id := by
  obtain ⟨c, hc, hi, hfile⟩ := (mem_fileIdsOf hr).1 hid
  obtain ⟨r'', hget, hk⟩ := g.repositories _ _ (Sorted.get?_key hr)
  rw [← he, Sorted.get?_key hr'] at hget
  obtain rfl := Option.some.inj hget
  obtain ⟨c', hc', hkc⟩ := g.commits.mem hc
  exact (mem_fileIdsOf hr').2 ⟨c', hc', hkc.id ▸ hk.commits _ hi, hkc.fileRevisions _ hfile⟩

/-! ## The revision that is meant -/

theorem ascending_filesByHash (s : Store) (repository : NodeId) (hash : String) :
    (s.filesByHash repository hash).Pairwise fun a b => a.id.val < b.id.val := by
  unfold filesByHash
  refine List.Pairwise.filter _ (List.Pairwise.filterMap _ ?_ (s.fileIdsOf repository).ascending)
  intro i j hlt a ha b hb
  rw [Sorted.key_of_get? ha, Sorted.key_of_get? hb]
  exact NodeId.compare_eq_lt.1 hlt

theorem nodup_filesByHash (s : Store) (repository : NodeId) (hash : String) :
    ((s.filesByHash repository hash).map FileRevision.id).Nodup :=
  List.pairwise_map.2 ((s.ascending_filesByHash repository hash).imp fun hlt he =>
    absurd (he ▸ hlt) (UInt64.lt_irrefl _))

/-- The file is a revision of the repository with the given hash and path. -/
structure IsRevision (s : Store) (repository : NodeId) (hash : String) (segments : List String)
    (f : FileRevision) : Prop where
  mem : f ∈ s.files
  inRepository : f.id ∈ s.fileIdsOf repository
  key : s.fileKey f = (some hash, segments)

/-- Of the revisions that a hash and a path fit, the one with the least id is meant. -/
theorem findRevision_eq_some_iff {repository : NodeId} {hash : String} {segments : List String}
    {f : FileRevision} :
    s.findRevision repository hash segments = some f ↔
      s.IsRevision repository hash segments f ∧
        ∀ g, s.IsRevision repository hash segments g → f.id.val ≤ g.id.val := by
  have hiff : ∀ g, s.IsRevision repository hash segments g ↔
      g ∈ s.filesByHash repository hash ∧ decide (s.relativePath g = segments) = true := by
    intro g
    rw [mem_filesByHash, decide_eq_true_eq]
    constructor
    · rintro ⟨hg, hid, hkey⟩
      exact ⟨⟨hg, hid, congrArg Prod.fst hkey⟩, congrArg Prod.snd hkey⟩
    · rintro ⟨⟨hg, hid, hash⟩, hpath⟩
      exact ⟨hg, hid, Prod.ext hash hpath⟩
  simp only [hiff, and_imp]
  exact find?_eq_some_iff_least (s.ascending_filesByHash repository hash)

theorem IsRevision.found {repository : NodeId} {hash : String} {segments : List String}
    {f : FileRevision} (h : s.IsRevision repository hash segments f) :
    ∃ g, s.findRevision repository hash segments = some g := by
  have hmem := mem_filesByHash.2 ⟨h.mem, h.inRepository, congrArg Prod.fst h.key⟩
  have hpath : decide (s.relativePath f = segments) = true :=
    decide_eq_true (congrArg Prod.snd h.key)
  exact Option.isSome_iff_exists.1 (List.find?_isSome.2 ⟨f, hmem, hpath⟩)

/-! ## A revision that is found stays the one -/

/-- The revision that a hash and a path have meant once they mean for ever. -/
def KeepsRevisions (repository : NodeId) (s s' : Store) : Prop :=
  ∀ hash segments f, s.findRevision repository hash segments = some f →
    ∃ f', s'.findRevision repository hash segments = some f' ∧ f'.id = f.id

theorem KeepsRevisions.rfl {repository : NodeId} : KeepsRevisions repository s s :=
  fun _ _ f hf => ⟨f, hf, .refl _⟩

theorem KeepsRevisions.trans {repository : NodeId} (h : KeepsRevisions repository s s')
    (h' : KeepsRevisions repository s' s'') : KeepsRevisions repository s s'' := by
  intro hash segments f hf
  obtain ⟨f', hf', he⟩ := h hash segments f hf
  obtain ⟨f'', hf'', he'⟩ := h' hash segments f' hf'
  exact ⟨f'', hf'', he'.trans he⟩

section Grows

variable {r : Repository} {hash : String} {segments : List String}

/-- A revision stays one while the store grows. -/
theorem Sound.isRevision_of_grows (hs : s.Sound owner n) (hs' : s'.Sound owner m)
    (g : s.Grows s') (hr : r ∈ s.repositories) {f : FileRevision}
    (h : s.IsRevision r.id hash segments f) :
    ∃ f', f'.id = f.id ∧ s'.IsRevision r.id hash segments f' := by
  obtain ⟨r', hr', hk⟩ := g.repositories.mem hr
  obtain ⟨f', hf', hkf⟩ := g.files.mem h.mem
  have hhash : f.hash = some hash := congrArg Prod.fst h.key
  refine ⟨f', hkf.id, hf', ?_, ?_⟩
  · rw [← hk.id, hkf.id]
    exact fileIdsOf_of_grows g hr hr' hk.id h.inRepository
  · rw [hs.fileKey_of_grows hs' g h.mem hkf (hhash ▸ rfl), h.key]

/-- A revision of the grown store whose id was in the repository before was one before. -/
theorem Sound.isRevision_before (hs : s.Sound owner n) (hs' : s'.Sound owner m)
    (g : s.Grows s') (hr : r ∈ s.repositories) {f' : FileRevision}
    (h : s'.IsRevision r.id hash segments f') (hid : f'.id ∈ s.fileIdsOf r.id) :
    ∃ f, f.id = f'.id ∧ s.IsRevision r.id hash segments f := by
  obtain ⟨f, hf, he, hhash, -⟩ := hs.of_fileIdsOf hr hid
  obtain ⟨f'', hget, hk⟩ := g.files _ _ (Sorted.get?_key hf)
  rw [he, Sorted.get?_key h.mem] at hget
  obtain rfl := Option.some.inj hget
  refine ⟨f, he, hf, he ▸ hid, ?_⟩
  rw [← hs.fileKey_of_grows hs' g hf hk hhash, h.key]

/-- Revisions stay the ones found as long as nothing comes into the repository that has the hash
and the path of one of them. -/
theorem Sound.keepsRevisions (hs : s.Sound owner n) (hs' : s'.Sound owner m) (g : s.Grows s')
    (hr : r ∈ s.repositories)
    (hnew : ∀ hash segments f', s'.IsRevision r.id hash segments f' →
      f'.id ∈ s.fileIdsOf r.id ∨ s.findRevision r.id hash segments = none) :
    KeepsRevisions r.id s s' := by
  intro hash segments f hf
  obtain ⟨hrev, hmin⟩ := findRevision_eq_some_iff.1 hf
  obtain ⟨f', he, hrev'⟩ := hs.isRevision_of_grows hs' g hr hrev
  refine ⟨f', findRevision_eq_some_iff.2 ⟨hrev', fun y hy => ?_⟩, he⟩
  rcases hnew hash segments y hy with hid | hnone
  · obtain ⟨x, hx, hrevx⟩ := hs.isRevision_before hs' g hr hy hid
    rw [he, ← hx]
    exact hmin x hrevx
  · rw [hnone] at hf
    cases hf

end Grows

/-! ## A file comes into a commit -/

/-- The commit has the revision that is meant by a file. -/
def HoldsRevision (s : Store) (repository commit : NodeId) (file : FileIdentifier) : Prop :=
  ∃ f c, s.findRevision repository file.hash (splitPath file.path) = some f ∧
    c ∈ s.commits ∧ c.id = commit ∧ f.id ∈ c.fileRevisions

theorem HoldsRevision.of_grows {repository commit : NodeId} {file : FileIdentifier}
    (h : s.HoldsRevision repository commit file) (g : s.Grows s')
    (k : KeepsRevisions repository s s') : s'.HoldsRevision repository commit file := by
  obtain ⟨f, c, hf, hc, hid, hmem⟩ := h
  obtain ⟨f', hf', he⟩ := k _ _ f hf
  obtain ⟨c', hc', hk⟩ := g.commits.mem hc
  exact ⟨f', c', hf', hc', hk.id.trans hid, he ▸ hk.fileRevisions _ hmem⟩

/-- The revision of a file is there, or has been added without a change to any commit. -/
structure FoundOrAdded (owner : NodeId → String) (t : String) (r : Repository)
    (file : FileIdentifier) (s s' : Store) (f : FileRevision) : Prop where
  mem : f ∈ s'.files
  own : owner f.id = t
  key : s'.fileKey f = (some file.hash, splitPath file.path)
  same : s.SameCommits s'
  /-- Only what is missing is added, and it is added below the root of the repository. -/
  home : s.findRevision r.id file.hash (splitPath file.path) = some f ∨
    s.findRevision r.id file.hash (splitPath file.path) = none ∧
      s'.topAbove f.parent = some r.rootDirectory

theorem FoundOrAdded.first {t : String} {r : Repository} {file : FileIdentifier} {f : FileRevision}
    (h : FoundOrAdded owner t r file s s' f) {g : FileRevision}
    (hg : s.findRevision r.id file.hash (splitPath file.path) = some g) : g = f := by
  rcases h.home with hfound | ⟨hnone, -⟩
  · exact Option.some.inj (hg.symm.trans hfound)
  · rw [hnone] at hg
    cases hg

/-- The repository may have been read earlier. -/
theorem FoundOrAdded.of_kept {t : String} {r r' : Repository} {file : FileIdentifier}
    {f : FileRevision} (h : FoundOrAdded owner t r file s s' f) (hk : r.Kept r') :
    FoundOrAdded owner t r' file s s' f :=
  { h with
    home := by
      rw [hk.id, hk.rootDirectory]
      exact h.home }

/-- While the commits stay as they are, no file comes into a repository. -/
theorem mem_fileIdsOf_of_same (same : s.SameCommits s') {r r' : Repository}
    (hr : r ∈ s.repositories) (hr' : r' ∈ s'.repositories) (he : r'.id = r.id) {id : NodeId}
    (hid : id ∈ s'.fileIdsOf r'.id) : id ∈ s.fileIdsOf r.id := by
  obtain ⟨c, hc, hi, hfile⟩ := (mem_fileIdsOf hr').1 hid
  obtain ⟨r₀, hr₀, he₀, hi₀⟩ := (same c.id).holders r' hr' hi
  obtain rfl : r₀ = r := Sorted.eq_of_key_eq hr₀ hr (he₀.trans he)
  have hc₀ := (same c.id).commit.symm.trans (Sorted.get?_key hc)
  exact (mem_fileIdsOf hr).2 ⟨c, Sorted.mem_of_get? hc₀, hi₀, hfile⟩

/-- A revision that has been found or added may come into a commit of its repository. -/
theorem FoundOrAdded.mayAttach {t : String} {r r' : Repository} {c : Commit}
    {file : FileIdentifier} {f : FileRevision} (h : FoundOrAdded owner t r file s s' f)
    (hs : s.Sound owner n) (hs' : s'.Sound owner m) (g : s.Grows s') (hr : r ∈ s.repositories)
    (hr' : r' ∈ s'.repositories) (hk : r.Kept r') (hcontains : c.id ∈ r'.commits) :
    s'.MayAttach r' c f where
  repository := hr'
  contains := hcontains
  file := h.mem
  hash := by
    have hhash : f.hash = some file.hash := congrArg Prod.fst h.key
    rw [hhash]
    rfl
  home := by
    rcases h.home with hfound | ⟨hnone, htop⟩
    · have hrev := (findRevision_eq_some_iff.1 hfound).1
      exact .inl (fileIdsOf_of_grows g hr hr' hk.id hrev.inRepository)
    · refine .inr ⟨htop.trans (congrArg some hk.rootDirectory.symm), ?_⟩
      intro x hx hid hkey
      -- a file with the same key would have been found
      have hrev : s'.IsRevision r.id file.hash (splitPath file.path) x :=
        ⟨hx, hk.id ▸ hid, hkey.trans h.key⟩
      have hbefore := mem_fileIdsOf_of_same h.same hr hr' hk.id hid
      obtain ⟨y, -, hy⟩ := hs.isRevision_before hs' g hr hrev hbefore
      obtain ⟨z, hz⟩ := hy.found
      rw [hnone] at hz
      cases hz

/-- No file but the new one comes into the repositories of the commit. -/
theorem mem_fileIdsOf_withRevision {c : Commit} (hc : c ∈ s.commits) (same : s.SameCommits s')
    {r r' : Repository} (hr : r ∈ s.repositories) (hr' : r' ∈ s'.repositories)
    (he : r'.id = r.id) {file id : NodeId} (hid : id ∈ (s'.withRevision c file).fileIdsOf r.id) :
    id ∈ s.fileIdsOf r.id ∨ id = file := by
  rw [← he, mem_fileIdsOf (s := s'.withRevision c file) hr'] at hid
  obtain ⟨x, hx, hxr, hfile⟩ := hid
  -- the repository had the commit before
  obtain ⟨r₀, hr₀, he₀, hxr₀⟩ := (same x.id).holders r' hr' hxr
  obtain rfl : r₀ = r := Sorted.eq_of_key_eq hr₀ hr (he₀.trans he)
  rcases Sorted.mem_insert.1 hx with rfl | ⟨hx, -⟩
  · rcases SortedSet.mem_insert.1 hfile with hnew | hold
    · exact .inr hnew
    · exact .inl ((mem_fileIdsOf hr).2 ⟨c, hc, hxr₀, hold⟩)
  · have hx₀ := (same x.id).commit.symm.trans (Sorted.get?_key hx)
    exact .inl ((mem_fileIdsOf hr).2 ⟨x, Sorted.mem_of_get? hx₀, hxr₀, hfile⟩)

/-- After its revision has come into the commit, the file means this revision, and all others keep
theirs. -/
theorem Sound.keepsRevisions_withRevision {s₁ : Store} {t : String} {c : Commit} {r r₁ : Repository}
    {file : FileIdentifier} {f : FileRevision} (hs : s.Sound owner n)
    (hs' : (s₁.withRevision c f.id).Sound owner m) (g : s.Grows (s₁.withRevision c f.id))
    (hc : c ∈ s.commits) (hr : r ∈ s.repositories) (hr₁ : r₁ ∈ s₁.repositories)
    (he : r₁.id = r.id) (hcontains : c.id ∈ r₁.commits)
    (hf : FoundOrAdded owner t r file s s₁ f) :
    KeepsRevisions r.id s (s₁.withRevision c f.id) ∧
      (s₁.withRevision c f.id).HoldsRevision r.id c.id file := by
  have hold : ∀ id ∈ (s₁.withRevision c f.id).fileIdsOf r.id, id ∈ s.fileIdsOf r.id ∨ id = f.id :=
    fun id => mem_fileIdsOf_withRevision hc hf.same hr hr₁ he
  have hc' : { c with fileRevisions := c.fileRevisions.insert f.id }
      ∈ (s₁.withRevision c f.id).commits := Sorted.mem_insert_self _ _
  have hfile : f.id ∈ c.fileRevisions.insert f.id := SortedSet.mem_insert.2 (.inl rfl)
  have hrev : (s₁.withRevision c f.id).IsRevision r.id file.hash (splitPath file.path) f :=
    ⟨hf.mem, he ▸ (mem_fileIdsOf (s := s₁.withRevision c f.id) hr₁).2 ⟨_, hc', hcontains, hfile⟩,
      hf.key⟩
  constructor
  · refine hs.keepsRevisions hs' g hr fun hash segments y hy => ?_
    rcases hold _ hy.inRepository with hid | hid
    · exact .inl hid
    · -- the new file has the hash and the path of the fact
      obtain rfl : y = f := Sorted.eq_of_key_eq hy.mem hf.mem hid
      obtain ⟨rfl, rfl⟩ : file.hash = hash ∧ splitPath file.path = segments := by
        simpa using hf.key.symm.trans hy.key
      cases hfind : s.findRevision r.id file.hash (splitPath file.path) with
      | none => exact .inr rfl
      | some x =>
        obtain rfl := hf.first hfind
        exact .inl (findRevision_eq_some_iff.1 hfind).1.inRepository
  · refine ⟨f, _, findRevision_eq_some_iff.2 ⟨hrev, fun y hy => ?_⟩, hc', rfl, hfile⟩
    rcases hold _ hy.inRepository with hid | hid
    · obtain ⟨x, hx, hrevx⟩ := hs.isRevision_before hs' g hr hy hid
      obtain ⟨z, hz⟩ := hrevx.found
      obtain rfl := hf.first hz
      exact hx ▸ (findRevision_eq_some_iff.1 hz).2 x hrevx
    · exact UInt64.le_of_eq (congrArg NodeId.val hid.symm)

end Store

end Cityscape
