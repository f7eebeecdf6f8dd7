import Cityscape.Proofs.Calls
import Mathlib.Logic.Relation

/-!
# `Homes`: whose tree the files of a repository hang in

A file comes into a commit through a repository that contains the commit: either it is a file of
that repository already, or it has been added below its root. So every file of a repository hangs
below the root of a repository that is linked to it by shared commits
(`Store.Housed.files`), and as long as a repository shares no commit, no two of its files have the
same hash and path (`Store.Housed.distinct`).
-/

namespace Cityscape

namespace Store

variable {owner : NodeId → String} {t : String} {k : Topic} {n m j : Nat} {s s' : Store}
  {r r' q : Repository} {f f' : FileRevision}

/-! ## Linked repositories -/

/-- Two repositories, given by their ids, contain a commit in common. -/
def Share (s : Store) (a b : NodeId) : Prop :=
  ∃ r ∈ s.repositories, ∃ q ∈ s.repositories, r.id = a ∧ q.id = b ∧ ∃ c ∈ r.commits, c ∈ q.commits

/-- One repository leads to another one over shared commits. -/
def Linked (s : Store) : NodeId → NodeId → Prop := Relation.ReflTransGen s.Share

/-- No other repository contains a commit of this one. -/
def Exclusive (s : Store) (r : Repository) : Prop :=
  ∀ q ∈ s.repositories, ∀ c ∈ r.commits, c ∈ q.commits → q = r

theorem Share.of_grows (g : s.Grows s') {a b : NodeId} (h : s.Share a b) : s'.Share a b := by
  obtain ⟨r, hr, q, hq, ha, hb, c, hcr, hcq⟩ := h
  obtain ⟨r', hr', hkr⟩ := g.repositories.mem hr
  obtain ⟨q', hq', hkq⟩ := g.repositories.mem hq
  exact ⟨r', hr', q', hq', hkr.id.trans ha, hkq.id.trans hb, c, hkr.commits c hcr,
    hkq.commits c hcq⟩

theorem Linked.of_grows (g : s.Grows s') {a b : NodeId} (h : s.Linked a b) : s'.Linked a b :=
  (Relation.ReflTransGen.mono fun _ _ => Share.of_grows g) a b h

/-- A repository that shares no commit is linked to itself only. -/
theorem Exclusive.eq_of_linked (h : s.Exclusive r) (hr : r ∈ s.repositories)
    (hq : q ∈ s.repositories) (hlinked : s.Linked r.id q.id) : q = r := by
  have hid : ∀ b, s.Linked r.id b → b = r.id := by
    intro b hb
    induction hb with
    | refl => rfl
    | tail _ hshare ih =>
      obtain ⟨r₁, hr₁, q₁, hq₁, ha, rfl, c, hcr, hcq⟩ := hshare
      obtain rfl : r₁ = r := Sorted.eq_of_key_eq hr₁ hr (ha.trans ih)
      rw [h q₁ hq₁ c hcr hcq]
  exact Sorted.eq_of_key_eq hq hr (hid q.id hlinked)

/-- What has contained a commit of a repository that shares none is that repository. -/
theorem Exclusive.eq_of_contained (h : s'.Exclusive r') (g : s.Grows s') (hr : r ∈ s.repositories)
    (he : r'.id = r.id) (hq : q ∈ s.repositories) {c : NodeId} (hc : c ∈ r'.commits)
    (hcq : c ∈ q.commits) : q = r := by
  obtain ⟨q', hq', hk⟩ := g.repositories.mem hq
  have hsame : q' = r' := h q' hq' c hc (hk.commits c hcq)
  apply Sorted.eq_of_key_eq hq hr
  rw [← hk.id, hsame, he]

/-- A repository that shares no commit has never shared one. -/
theorem Exclusive.before (h : s'.Exclusive r') (g : s.Grows s') (hr : r ∈ s.repositories)
    (hr' : r' ∈ s'.repositories) (he : r'.id = r.id) : s.Exclusive r := by
  intro q hq c hcr hcq
  obtain ⟨r₁, hr₁, hk⟩ := g.repositories.mem hr
  obtain rfl : r₁ = r' := Sorted.eq_of_key_eq hr₁ hr' (hk.id.trans he.symm)
  exact h.eq_of_contained g hr he hq (hk.commits c hcr) hcq

/-! ## Files and their homes -/

/-- The commit with the given id has a file. -/
def InCommit (s : Store) (commit file : NodeId) : Prop :=
  ∃ c ∈ s.commits, c.id = commit ∧ file ∈ c.fileRevisions

/-- The file hangs below the root of a repository that this one is linked to. -/
def HomeNear (s : Store) (r : Repository) (f : FileRevision) : Prop :=
  ∃ q ∈ s.repositories, s.Linked r.id q.id ∧ s.topAbove f.parent = some q.rootDirectory

/-- Where the files of repositories are, and how they can be told apart. -/
structure Housed (s : Store) : Prop where
  /-- A commit that has files is in some repository. -/
  commits : ∀ c i, s.InCommit c i → ∃ r ∈ s.repositories, c ∈ r.commits
  files : ∀ r ∈ s.repositories, ∀ f ∈ s.files, f.id ∈ s.fileIdsOf r.id → s.HomeNear r f
  distinct : ∀ r ∈ s.repositories, s.Exclusive r → ∀ f ∈ s.files, ∀ x ∈ s.files,
    f.id ∈ s.fileIdsOf r.id → x.id ∈ s.fileIdsOf r.id → s.fileKey f = s.fileKey x → f = x

theorem mem_fileIdsOf_iff (hr : r ∈ s.repositories) {i : NodeId} :
    i ∈ s.fileIdsOf r.id ↔ ∃ c ∈ r.commits, s.InCommit c i := by
  rw [mem_fileIdsOf hr]
  constructor
  · intro h
    obtain ⟨c, hc, hi, hfile⟩ := h
    exact ⟨c.id, hi, c, hc, rfl, hfile⟩
  · intro h
    obtain ⟨_, hi, c, hc, rfl, hfile⟩ := h
    exact ⟨c, hc, hi, hfile⟩

theorem InCommit.mem_files (hs : s.Sound owner n) {c i : NodeId} (h : s.InCommit c i) :
    ∃ f ∈ s.files, f.id = i ∧ f.hash.isSome := by
  obtain ⟨x, hx, -, hi⟩ := h
  obtain ⟨f, hf, hash, -⟩ := (hs.fitting.commits x hx).files i hi
  exact ⟨f, Sorted.mem_of_get? hf, Sorted.key_of_get? hf, hash⟩

theorem HomeNear.of_grows (hs : s.Sound owner n) (hs' : s'.Sound owner m) (g : s.Grows s')
    (hf : f ∈ s.files) (hkf : f.Kept f') (hkr : r.Kept r') (h : s.HomeNear r f) :
    s'.HomeNear r' f' := by
  obtain ⟨q, hq, hlinked, htop⟩ := h
  obtain ⟨q', hq', hkq⟩ := g.repositories.mem hq
  refine ⟨q', hq', ?_, ?_⟩
  · rw [hkr.id, hkq.id]
    exact hlinked.of_grows g
  · rw [hs.fileTop_of_grows hs' g hf hkf, htop, hkq.rootDirectory]

theorem Sound.fileKey_before (hs : s.Sound owner n) (hs' : s'.Sound owner m) (g : s.Grows s')
    (hf : f ∈ s.files) (hf' : f' ∈ s'.files) (he : f'.id = f.id) (hash : f.hash.isSome) :
    s'.fileKey f' = s.fileKey f := by
  obtain ⟨f₁, hf₁, hk⟩ := g.files.mem hf
  obtain rfl : f₁ = f' := Sorted.eq_of_key_eq hf₁ hf' (hk.id.trans he.symm)
  exact hs.fileKey_of_grows hs' g hf hk hash

theorem MayAttach.homeNear (h : s.Housed) {c : Commit} (hmay : s.MayAttach r c f) :
    s.HomeNear r f := by
  rcases hmay.home with hold | ⟨htop, -⟩
  · exact h.files r hmay.repository f hmay.file hold
  · exact ⟨r, hmay.repository, .refl, htop⟩

end Store

/-! ## One step -/

section Step

open Store

variable {owner : NodeId → String} {t : String} {k : Topic} {n m j : Nat} {s s' : Store}
  {r' : Repository}

/-- A step brings no file into a commit, or one file into one commit, through a repository. -/
theorem Step.inCommit_cases (h : Step owner t k j s s') :
    (∀ a i, s'.InCommit a i → s.InCommit a i) ∨
      ∃ r c f, s.MayAttach r c f ∧
        ∀ a i, s'.InCommit a i → s.InCommit a i ∨ a = c.id ∧ i = f.id := by
  cases h with
  | newCommit named fresh own =>
    refine .inl fun a i hi => ?_
    obtain ⟨x, hx, hid, hfile⟩ := hi
    rcases Sorted.mem_insert.1 hx with rfl | ⟨hx, -⟩
    · exact absurd hfile (Sorted.not_mem_empty i)
    · exact ⟨x, hx, hid, hfile⟩
  | @commit parent s c c' mem token kept fits files =>
    -- the commit that changes has its old files, or one more
    have hcase : ∀ a i, Store.InCommit { s with commits := s.commits.insert c' } a i →
        s.InCommit a i ∨ a = c.id ∧ i ∈ c'.fileRevisions := by
      intro a i hi
      obtain ⟨x, hx, hid, hfile⟩ := hi
      rcases Sorted.mem_insert.1 hx with rfl | ⟨hx, -⟩
      · exact .inr ⟨hid.symm.trans kept.id, hfile⟩
      · exact .inl ⟨x, hx, hid, hfile⟩
    rcases files with hsame | ⟨r, f, hmay, hfiles⟩
    · refine .inl fun a i hi => ?_
      rcases hcase a i hi with hold | ⟨rfl, hfile⟩
      · exact hold
      · exact ⟨c, mem, rfl, hsame ▸ hfile⟩
    · refine .inr ⟨r, c, f, hmay, fun a i hi => ?_⟩
      rcases hcase a i hi with hold | ⟨rfl, hfile⟩
      · exact .inl hold
      · rw [hfiles] at hfile
        rcases SortedSet.mem_insert.1 hfile with hnew | hold
        · exact .inr ⟨rfl, hnew⟩
        · exact .inl ⟨c, mem, rfl, hold⟩
  | _ => exact .inl fun _ _ => id

/-- A file that a commit has after a step was there before, and so was a repository which contains
the commit and near which the file has its home. -/
theorem Step.home_before (h : Step owner t k j s s') (hs : s.Sound owner n) (hhoused : s.Housed)
    {a i : NodeId} (hi : s'.InCommit a i) :
    ∃ r ∈ s.repositories, a ∈ r.commits ∧ ∃ f ∈ s.files, f.id = i ∧ s.HomeNear r f := by
  have hold : ∀ i, s.InCommit a i →
      ∃ r ∈ s.repositories, a ∈ r.commits ∧ ∃ f ∈ s.files, f.id = i ∧ s.HomeNear r f := by
    intro i hi
    obtain ⟨r, hr, hcontains⟩ := hhoused.commits a i hi
    obtain ⟨f, hf, rfl, -⟩ := hi.mem_files hs
    have hmem := (mem_fileIdsOf_iff hr).2 ⟨a, hcontains, hi⟩
    exact ⟨r, hr, hcontains, f, hf, rfl, hhoused.files r hr f hf hmem⟩
  rcases h.inCommit_cases with hsame | ⟨r, c, f, hmay, hcase⟩
  · exact hold i (hsame a i hi)
  · rcases hcase a i hi with hi | ⟨rfl, rfl⟩
    · exact hold i hi
    · exact ⟨r, hmay.repository, hmay.contains, f, hmay.file, rfl, hmay.homeNear hhoused⟩

/-- The files that a repository which shares no commit has after a step were there before, but for
one at most, and that one has a hash and a path of its own. -/
theorem Step.fileIds_cases {r : Repository} (h : Step owner t k j s s') (hs : s.Sound owner n)
    (g : s.Grows s') (hhoused : s.Housed) (hr : r ∈ s.repositories) (hr' : r' ∈ s'.repositories)
    (he : r'.id = r.id) (hexclusive : s'.Exclusive r') :
    (∀ i ∈ s'.fileIdsOf r'.id, i ∈ s.fileIdsOf r.id) ∨
      ∃ f ∈ s.files, f.hash.isSome ∧
        (∀ x ∈ s.files, x.id ∈ s.fileIdsOf r.id → s.fileKey x ≠ s.fileKey f) ∧
        ∀ i ∈ s'.fileIdsOf r'.id, i ∈ s.fileIdsOf r.id ∨ i = f.id := by
  have hold : ∀ a ∈ r'.commits, ∀ i, s'.InCommit a i → s.InCommit a i → i ∈ s.fileIdsOf r.id := by
    intro a ha i hi' hi
    obtain ⟨q, hq, hcontains, -⟩ := h.home_before hs hhoused hi'
    rw [hexclusive.eq_of_contained g hr he hq ha hcontains] at hcontains
    exact (mem_fileIdsOf_iff hr).2 ⟨a, hcontains, hi⟩
  rcases h.inCommit_cases with hsame | ⟨q, c, f, hmay, hcase⟩
  · refine .inl fun i hi => ?_
    obtain ⟨a, ha, hi⟩ := (mem_fileIdsOf_iff hr').1 hi
    exact hold a ha i hi (hsame a i hi)
  · have hone : ∀ i ∈ s'.fileIdsOf r'.id, i ∈ s.fileIdsOf r.id ∨ c.id ∈ r'.commits ∧ i = f.id := by
      intro i hi
      obtain ⟨a, ha, hi⟩ := (mem_fileIdsOf_iff hr').1 hi
      rcases hcase a i hi with hbefore | ⟨rfl, hnew⟩
      · exact .inl (hold a ha i hi hbefore)
      · exact .inr ⟨ha, hnew⟩
    by_cases hc : c.id ∈ r'.commits
    · -- the step works for the repository that contains the commit
      obtain rfl : q = r := hexclusive.eq_of_contained g hr he hmay.repository hc hmay.contains
      rcases hmay.home with hmem | ⟨-, hother⟩
      · exact .inl fun i hi => (hone i hi).elim id fun hnew => hnew.2 ▸ hmem
      · exact .inr ⟨f, hmay.file, hmay.hash, hother, fun i hi => (hone i hi).imp_right And.right⟩
    · exact .inl fun i hi => (hone i hi).resolve_right fun hnew => hc hnew.1

/-- Files of a repository that shares no commit are told apart by hash and path after a step. -/
theorem Step.distinct (h : Step owner t k j s s') (hs : s.Sound owner n) (hs' : s'.Sound owner m)
    (g : s.Grows s') (hhoused : s.Housed) (hr' : r' ∈ s'.repositories)
    (hexclusive : s'.Exclusive r') {f' x' : FileRevision} (hf' : f' ∈ s'.files)
    (hx' : x' ∈ s'.files) (hfr : f'.id ∈ s'.fileIdsOf r'.id) (hxr : x'.id ∈ s'.fileIdsOf r'.id)
    (hkey : s'.fileKey f' = s'.fileKey x') : f' = x' := by
  apply Sorted.eq_of_key_eq hf' hx'
  -- the repository was there before, since it contains a commit that has a file
  obtain ⟨a, ha, hi⟩ := (mem_fileIdsOf_iff hr').1 hfr
  obtain ⟨r, hr, hcontains, -⟩ := h.home_before hs hhoused hi
  obtain ⟨r₁, hr₁, hk⟩ := g.repositories.mem hr
  obtain rfl : r₁ = r' := hexclusive r₁ hr₁ a ha (hk.commits a hcontains)
  have hbefore := hexclusive.before g hr hr' hk.id
  have hold : ∀ y' ∈ s'.files, y'.id ∈ s.fileIdsOf r.id →
      ∃ y ∈ s.files, y.id = y'.id ∧ s'.fileKey y' = s.fileKey y := by
    intro y' hy' hmem
    obtain ⟨y, hy, hid, hash, -⟩ := hs.of_fileIdsOf hr hmem
    exact ⟨y, hy, hid, hs.fileKey_before hs' g hy hy' hid.symm hash⟩
  have hboth : f'.id ∈ s.fileIdsOf r.id → x'.id ∈ s.fileIdsOf r.id → f'.id = x'.id := by
    intro hfmem hxmem
    obtain ⟨f, hf, hfid, hfkey⟩ := hold f' hf' hfmem
    obtain ⟨x, hx, hxid, hxkey⟩ := hold x' hx' hxmem
    have hsame := hhoused.distinct r hr hbefore f hf x hx (hfid ▸ hfmem) (hxid ▸ hxmem)
      (by rw [← hfkey, ← hxkey, hkey])
    rw [← hfid, ← hxid, hsame]
  rcases h.fileIds_cases hs g hhoused hr hr' hk.id hexclusive with
    hall | ⟨f, hf, hash, hother, hone⟩
  · exact hboth (hall _ hfr) (hall _ hxr)
  · -- the new file has another hash or path than the ones that were there
    have hnew : ∀ y' ∈ s'.files, ∀ z' ∈ s'.files, y'.id ∈ s.fileIdsOf r.id → z'.id = f.id →
        s'.fileKey y' ≠ s'.fileKey z' := by
      intro y' hy' z' hz' hmem hz he
      obtain ⟨y, hy, hid, hykey⟩ := hold y' hy' hmem
      apply hother y hy (hid ▸ hmem)
      rw [← hykey, he, hs.fileKey_before hs' g hf hz' hz hash]
    rcases hone _ hfr with hfmem | hfid <;> rcases hone _ hxr with hxmem | hxid
    · exact hboth hfmem hxmem
    · exact absurd hkey (hnew f' hf' x' hx' hfmem hxid)
    · exact absurd hkey.symm (hnew x' hx' f' hf' hxmem hfid)
    · exact hfid.trans hxid.symm

theorem Step.housed (h : Step owner t k j s s') (hs : s.Sound owner n) (hn : n + j < 2 ^ 64)
    (hhoused : s.Housed) : s'.Housed := by
  have hs' := h.sound hs hn
  have g := h.grows hs.numbered hn
  constructor
  case commits =>
    intro a i hi
    obtain ⟨r, hr, hcontains, -⟩ := h.home_before hs hhoused hi
    obtain ⟨r', hr', hk⟩ := g.repositories.mem hr
    exact ⟨r', hr', hk.commits a hcontains⟩
  case files =>
    intro r' hr' f' hf' hmem
    obtain ⟨a, ha, hi⟩ := (mem_fileIdsOf_iff hr').1 hmem
    obtain ⟨q, hq, hcontains, f, hf, hid, hhome⟩ := h.home_before hs hhoused hi
    obtain ⟨q', hq', hkq⟩ := g.repositories.mem hq
    obtain ⟨f₁, hf₁, hkf⟩ := g.files.mem hf
    obtain rfl : f₁ = f' := Sorted.eq_of_key_eq hf₁ hf' (hkf.id.trans hid)
    -- the two repositories share the commit that has the file
    obtain ⟨p, hp, hlinked, htop⟩ := hhome.of_grows hs hs' g hf hkf hkq
    have hshare : s'.Share r'.id q'.id :=
      ⟨r', hr', q', hq', rfl, rfl, a, ha, hkq.commits a hcontains⟩
    exact ⟨p, hp, hlinked.head hshare, htop⟩
  case distinct =>
    intro r' hr' hexclusive f' hf' x' hx' hfr hxr hkey
    exact h.distinct hs hs' g hhoused hr' hexclusive hf' hx' hfr hxr hkey

/-- Any number of steps keeps files in their homes. -/
theorem Steps.housed (h : Steps owner t k j s s') (hs : s.Sound owner n) (hn : n + j < 2 ^ 64)
    (hhoused : s.Housed) : s'.Housed := by
  induction h with
  | refl => exact hhoused
  | tail first last ih =>
    have hmid := (first.sound_and_grows hs (by omega)).1
    exact last.housed hmid (by omega) (ih hs (by omega) hhoused)

end Step

/-! ## Any number of calls -/

namespace Store

theorem housed_empty : (∅ : Store).Housed where
  commits _ _ hi := by
    obtain ⟨c, hc, -⟩ := hi
    exact absurd hc (Sorted.not_mem_empty c)
  files r hr := absurd hr (Sorted.not_mem_empty r)
  distinct r hr := absurd hr (Sorted.not_mem_empty r)

theorem Sound.housed_after {calls : List Ingestion} :
    ∀ {owner : NodeId → String} {n : Nat} {s : Store}, s.Sound owner n →
      n + s.idsIssued calls < 2 ^ 64 → s.Housed → (s.after calls).Housed := by
  induction calls with
  | nil =>
    intro owner n s _ _ hhoused
    exact hhoused
  | cons i rest ih =>
    intro owner n s hs hn hhoused
    have hn' : n + ((i.edit s).issued + (i.edit s).store.idsIssued rest) < 2 ^ 64 := hn
    obtain ⟨owner', -, hready, hsteps⟩ := hs.call i (by omega)
    have hs' := (hsteps.sound_and_grows hready.sound (by omega)).1
    exact ih hs' (by omega) (hsteps.housed hready.sound (by omega) hhoused)

/-- Every store that ingestion leads to from the empty one has its files in their homes. -/
theorem housed_after_empty (calls : List Ingestion)
    (hn : (∅ : Store).idsIssued calls < 2 ^ 64) : ((∅ : Store).after calls).Housed :=
  (sound_empty fun _ => "").housed_after (by rw [Nat.zero_add]; exact hn) housed_empty

end Store

end Cityscape
