import Cityscape.Proofs.Delivery
import Cityscape.Proofs.Homes
import Mathlib.Data.Set.Function

/-!
# `Identity`: a revision is its hash and its path

As long as no commit is told of two repositories of a landscape, repositories share no commits.
Then the revisions of a repository are told apart by hash and path, and there is one for each
file that the commit facts of the repository name, and no other (`Store.revision_identity`).
-/

namespace Cityscape

/-! ## What is told of a repository -/

/-- No commit of a landscape is told of two repositories. -/
def Ingestion.OneRepository (calls : List Ingestion) : Prop :=
  ∀ f ∈ calls.filterMap commitFact?, ∀ x ∈ calls.filterMap commitFact?,
    f.key = x.key → f.repositoryKey = x.repositoryKey

/-- The hash and the path of each file that commit facts name for a repository. -/
def Ingestion.filesTold (calls : List Ingestion) (r : Repository) :
    Set (Option String × List String) :=
  {key | ∃ f ∈ calls.filterMap commitFact?, f.repositoryKey = (r.token, r.name) ∧
    key ∈ f.fileKeys}

theorem Ingestion.mem_commitFacts {calls : List Ingestion} {f : CommitFact} :
    f ∈ calls.filterMap commitFact? ↔ .commit f ∈ calls := by
  rw [List.mem_filterMap]
  constructor
  · intro h
    obtain ⟨i, hi, hf⟩ := h
    cases i with
    | commit x => exact Option.some.inj hf ▸ hi
    | repository x | file x | span x => cases hf
  · intro h
    exact ⟨.commit f, h, rfl⟩

theorem Ingestion.mem_factsAbout {calls : List Ingestion} {token hash : String} {f : CommitFact} :
    f ∈ calls.filterMap (Ingestion.factAbout token hash) ↔
      f ∈ calls.filterMap commitFact? ∧ f.key = (token, hash) := by
  rw [List.mem_filterMap, mem_commitFacts]
  constructor
  · intro h
    obtain ⟨i, hi, hf⟩ := h
    cases i with
    | commit x =>
      obtain ⟨rfl, hkey⟩ := CommitFact.factAbout_eq_some_iff.1 hf
      exact ⟨hi, hkey⟩
    | repository x | file x | span x => cases hf
  · intro h
    exact ⟨.commit f, h.1, CommitFact.factAbout_eq_some_iff.2 ⟨rfl, h.2⟩⟩

namespace Store

variable {owner : NodeId → String} {n m : Nat} {s s' : Store} {r : Repository}
  {calls : List Ingestion}

/-! ## The commits of a repository -/

/-- The account of each commit is made of the facts about it. -/
def Told (s : Store) (calls : List Ingestion) : Prop :=
  ∀ token hash, s.account token hash = CommitAccount.ofCalls token hash calls

theorem told_after_empty (calls : List Ingestion) (hids : (∅ : Store).idsIssued calls < 2 ^ 64)
    (hok : (∅ : Store).commitsSucceed calls = true) : ((∅ : Store).after calls).Told calls := by
  intro token hash
  rw [(sound_empty fun _ => "").account_after (by rw [Nat.zero_add]; exact hids) hok,
    Accounts.foldl_recordIn]
  exact Accounts.told_nothing calls token hash

theorem Told.accountOf_eq (h : s.Told calls) (hs : s.Sound owner n) {c : Commit}
    (hc : c ∈ s.commits) : s.accountOf c = CommitAccount.ofFacts
      (calls.filterMap (Ingestion.factAbout c.token c.hash)) := by
  have haccount : s.account c.token c.hash = some (s.accountOf c) := by
    rw [hs.keyed.account_eq hc, accountAt, Sorted.get?_key hc, Option.map_some]
  have hfacts := haccount.symm.trans (h c.token c.hash)
  unfold CommitAccount.ofCalls at hfacts
  split at hfacts
  · exact Option.some.inj hfacts
  · cases hfacts

/-- A commit is in a repository just if one of the facts about it names the repository. -/
theorem Told.mem_commits_iff (h : s.Told calls) (hs : s.Sound owner n) {c : Commit}
    (hc : c ∈ s.commits) (hr : r ∈ s.repositories) :
    c.id ∈ r.commits ↔ ∃ f ∈ calls.filterMap Ingestion.commitFact?,
      f.key = (c.token, c.hash) ∧ f.repositoryKey = (r.token, r.name) := by
  have hholders : (r.token, r.name) ∈ s.holders c.id ↔
      ∃ f ∈ calls.filterMap Ingestion.commitFact?,
        f.key = (c.token, c.hash) ∧ f.repositoryKey = (r.token, r.name) := by
    show _ ∈ (s.accountOf c).repositories ↔ _
    rw [h.accountOf_eq hs hc]
    unfold CommitAccount.ofFacts
    simp only [List.mem_toFinset, List.mem_map, Ingestion.mem_factsAbout, and_assoc]
  rw [← hholders, mem_holders]
  constructor
  · intro hmem
    exact ⟨r, hr, hmem, rfl⟩
  · intro hmem
    obtain ⟨q, hq, hcq, hkey⟩ := hmem
    obtain rfl := hs.keyed.repositories q hq r hr hkey
    exact hcq

/-- The files of a commit are those that the facts about it name. -/
theorem Told.mem_files_iff (h : s.Told calls) (hs : s.Sound owner n) {c : Commit}
    (hc : c ∈ s.commits) {key : Option String × List String} :
    (∃ i ∈ c.fileRevisions, ∃ f, s.files.get? i = some f ∧ s.fileKey f = key) ↔
      ∃ f ∈ calls.filterMap Ingestion.commitFact?, f.key = (c.token, c.hash) ∧
        key ∈ f.fileKeys := by
  rw [← Sorted.mem_namesIn]
  show key ∈ (s.accountOf c).files ↔ _
  rw [h.accountOf_eq hs hc]
  unfold CommitAccount.ofFacts
  simp only [List.mem_toFinset, List.mem_flatMap, Ingestion.mem_factsAbout, and_assoc]

/-- A commit that is told of exists. -/
theorem Told.exists_commit (h : s.Told calls) (hs : s.Sound owner n) {f : CommitFact}
    (hf : f ∈ calls.filterMap Ingestion.commitFact?) :
    ∃ c ∈ s.commits, f.key = (c.token, c.hash) := by
  have hnames : calls.any (Ingestion.names f.landscapeToken f.commitHash) = true := by
    rw [List.any_eq_true]
    exact ⟨.commit f, Ingestion.mem_commitFacts.1 hf,
      by simp [Ingestion.names, Ingestion.commitFact?]⟩
  have haccount := h f.landscapeToken f.commitHash
  unfold CommitAccount.ofCalls at haccount
  rw [if_pos hnames] at haccount
  obtain ⟨c, hfind, -⟩ := Option.map_eq_some_iff.1 haccount
  obtain ⟨hc, htoken, hhash⟩ := hs.keyed.findCommit_eq_some_iff.1 hfind
  exact ⟨c, hc, Prod.ext htoken.symm hhash.symm⟩

/-- If no commit is told of two repositories, repositories share no commits. -/
theorem Told.exclusive (h : s.Told calls) (hs : s.Sound owner n)
    (hone : Ingestion.OneRepository calls) (hr : r ∈ s.repositories) : s.Exclusive r := by
  intro q hq i hir hiq
  obtain ⟨c, hget, -⟩ := (hs.fitting.repositories r hr).commits i hir
  have hc := Sorted.mem_of_get? hget
  obtain rfl := Sorted.key_of_get? hget
  obtain ⟨f, hf, hfkey, hfr⟩ := (h.mem_commits_iff hs hc hr).1 hir
  obtain ⟨x, hx, hxkey, hxq⟩ := (h.mem_commits_iff hs hc hq).1 hiq
  apply hs.keyed.repositories q hq r hr
  show (q.token, q.name) = (r.token, r.name)
  rw [← hfr, ← hxq]
  exact hone x hx f hf (hxkey.trans hfkey.symm)

/-! ## The revisions of a repository -/

/-- The file revisions in the commits of a repository. -/
def revisionsOf (s : Store) (r : Repository) : Set FileRevision :=
  {f | f ∈ s.files ∧ ∃ c ∈ s.commits, c.id ∈ r.commits ∧ f.id ∈ c.fileRevisions}

theorem mem_revisionsOf (hr : r ∈ s.repositories) {f : FileRevision} :
    f ∈ s.revisionsOf r ↔ f ∈ s.files ∧ f.id ∈ s.fileIdsOf r.id := by
  rw [mem_fileIdsOf hr]
  rfl

theorem mapsTo_fileKey (h : s.Told calls) (hs : s.Sound owner n)
    (hone : Ingestion.OneRepository calls) (hr : r ∈ s.repositories) :
    Set.MapsTo s.fileKey (s.revisionsOf r) (Ingestion.filesTold calls r) := by
  intro f hf
  obtain ⟨hmem, c, hc, hcr, hfile⟩ := hf
  obtain ⟨x, hx, hxkey, hkey⟩ :=
    (h.mem_files_iff hs hc).1 ⟨f.id, hfile, f, Sorted.get?_key hmem, rfl⟩
  -- all facts about the commit name the same repository
  obtain ⟨y, hy, hykey, hyr⟩ := (h.mem_commits_iff hs hc hr).1 hcr
  exact ⟨x, hx, (hone x hx y hy (hxkey.trans hykey.symm)).trans hyr, hkey⟩

theorem injOn_fileKey (hhoused : s.Housed) (hr : r ∈ s.repositories) (hexclusive : s.Exclusive r) :
    Set.InjOn s.fileKey (s.revisionsOf r) := by
  intro f hf x hx hkey
  obtain ⟨hf, hfr⟩ := (mem_revisionsOf hr).1 hf
  obtain ⟨hx, hxr⟩ := (mem_revisionsOf hr).1 hx
  exact hhoused.distinct r hr hexclusive f hf x hx hfr hxr hkey

theorem surjOn_fileKey (h : s.Told calls) (hs : s.Sound owner n) (hr : r ∈ s.repositories) :
    Set.SurjOn s.fileKey (s.revisionsOf r) (Ingestion.filesTold calls r) := by
  intro key hkey
  obtain ⟨f, hf, hfr, hkey⟩ := hkey
  obtain ⟨c, hc, hfc⟩ := h.exists_commit hs hf
  obtain ⟨i, hi, x, hget, hxkey⟩ := (h.mem_files_iff hs hc).2 ⟨f, hf, hfc, hkey⟩
  obtain rfl := Sorted.key_of_get? hget
  exact ⟨x, ⟨Sorted.mem_of_get? hget, c, hc, (h.mem_commits_iff hs hc hr).2 ⟨f, hf, hfc, hfr⟩, hi⟩,
    hxkey⟩

/-- Revisions of a repository with the same path are in the same directory. -/
theorem Sound.parent_eq_of_relativePath (hs : s.Sound owner n) (hhoused : s.Housed)
    (hr : r ∈ s.repositories) (hexclusive : s.Exclusive r) {f x : FileRevision}
    (hf : f ∈ s.revisionsOf r) (hx : x ∈ s.revisionsOf r)
    (hpath : s.relativePath f = s.relativePath x) : f.parent = x.parent := by
  obtain ⟨root, hroot, -⟩ := (hs.fitting.repositories r hr).root
  have hrootmem := Sorted.mem_of_get? hroot
  -- each of them is in the directory that its path leads to from the root
  have hleads : ∀ y ∈ s.revisionsOf r, ∃ d ∈ s.directories, y.parent = some d.id ∧
      s.Leads root (s.namesAbove y.parent) d := by
    intro y hy
    obtain ⟨hmem, hyr⟩ := (mem_revisionsOf hr).1 hy
    obtain ⟨q, hq, hlinked, htop⟩ := hhoused.files r hr y hmem hyr
    obtain rfl := hexclusive.eq_of_linked hr hq hlinked
    obtain ⟨p, d, hp, hd, -⟩ := (hs.fitting.files y hmem).parent
    obtain rfl := Sorted.key_of_get? hd
    have hdmem := Sorted.mem_of_get? hd
    rw [hp, ← Sorted.key_of_get? hroot] at htop
    exact ⟨d, hdmem, hp, hp ▸ hs.trees.leads_of_topAbove hrootmem d hdmem htop⟩
  obtain ⟨d, -, hfd, hdleads⟩ := hleads f hf
  obtain ⟨e, -, hxe, heleads⟩ := hleads x hx
  have hnames : s.namesAbove f.parent = s.namesAbove x.parent := by
    rw [relativePath_eq, relativePath_eq] at hpath
    exact (List.append_inj' hpath rfl).1
  rw [hnames] at hdleads
  rw [hfd, hxe, hs.trees.leads_unique hrootmem hdleads heleads]

/-- The revisions of a repository are revisions of it in another store, with the same hash and
path. -/
def RevisionsStay (s s' : Store) (r : Repository) : Prop :=
  ∃ r' ∈ s'.repositories, r'.id = r.id ∧ ∀ f ∈ s.revisionsOf r,
    ∃ f' ∈ s'.revisionsOf r', f'.id = f.id ∧ s'.fileKey f' = s.fileKey f

theorem Sound.revisionsStay (hs : s.Sound owner n) (hs' : s'.Sound owner m) (g : s.Grows s')
    (hr : r ∈ s.repositories) : s.RevisionsStay s' r := by
  obtain ⟨r', hr', hkr⟩ := g.repositories.mem hr
  refine ⟨r', hr', hkr.id, ?_⟩
  intro f hf
  obtain ⟨hmem, hfr⟩ := (mem_revisionsOf hr).1 hf
  obtain ⟨f', hf', hkf⟩ := g.files.mem hmem
  obtain ⟨f₁, hf₁, hid, hash, -⟩ := hs.of_fileIdsOf hr hfr
  obtain rfl := Sorted.eq_of_key_eq hf₁ hmem hid
  have hfr' := fileIdsOf_of_grows g hr hr' hkr.id hfr
  exact ⟨f', (mem_revisionsOf hr').2 ⟨hf', hkf.id ▸ hfr'⟩, hkf.id,
    hs.fileKey_of_grows hs' g hmem hkf hash⟩

/-- The revisions of a repository are the files that are told of it. -/
structure RevisionsMatch (s : Store) (r : Repository) (told : Set (Option String × List String)) :
    Prop where
  bijOn : Set.BijOn s.fileKey (s.revisionsOf r) told
  /-- A file that is in two commits is the same revision in both. -/
  shared : ∀ c ∈ s.commits, ∀ d ∈ s.commits, c.id ∈ r.commits → d.id ∈ r.commits →
    ∀ key ∈ (s.accountOf c).files, key ∈ (s.accountOf d).files →
      ∃ f ∈ s.revisionsOf r, s.fileKey f = key ∧ f.id ∈ c.fileRevisions ∧ f.id ∈ d.fileRevisions
  /-- Revisions of a file that changes stand side by side. -/
  siblings : ∀ f ∈ s.revisionsOf r, ∀ x ∈ s.revisionsOf r,
    s.relativePath f = s.relativePath x → f.parent = x.parent

/-- As long as no commit is told of two repositories, revisions are the files that are told. -/
theorem Told.revisionsMatch (h : s.Told calls) (hs : s.Sound owner n) (hhoused : s.Housed)
    (hone : Ingestion.OneRepository calls) (hr : r ∈ s.repositories) :
    s.RevisionsMatch r (Ingestion.filesTold calls r) := by
  have hexclusive := h.exclusive hs hone hr
  have hinj := injOn_fileKey hhoused hr hexclusive
  constructor
  case bijOn => exact ⟨mapsTo_fileKey h hs hone hr, hinj, surjOn_fileKey h hs hr⟩
  case shared =>
    intro c hc d hd hcr hdr key hck hdk
    obtain ⟨i, hi, f, hf, hfkey⟩ := Sorted.mem_namesIn.1 hck
    obtain ⟨j, hj, x, hx, hxkey⟩ := Sorted.mem_namesIn.1 hdk
    obtain rfl := Sorted.key_of_get? hf
    obtain rfl := Sorted.key_of_get? hx
    have hfr : f ∈ s.revisionsOf r := ⟨Sorted.mem_of_get? hf, c, hc, hcr, hi⟩
    have hxr : x ∈ s.revisionsOf r := ⟨Sorted.mem_of_get? hx, d, hd, hdr, hj⟩
    obtain rfl : f = x := hinj hfr hxr (hfkey.trans hxkey.symm)
    exact ⟨f, hfr, hfkey, hi, hj⟩
  case siblings =>
    intro f hf x hx
    exact hs.parent_eq_of_relativePath hhoused hr hexclusive hf hx

/-- After any calls of which no commit call failed, and none told of a commit under two
repositories, the revisions of a repository are the files that are told of it. Whatever is told
from then on, they stay. -/
theorem revision_identity (calls more : List Ingestion)
    (hids : (∅ : Store).idsIssued (calls ++ more) < 2 ^ 64)
    (hok : (∅ : Store).commitsSucceed calls = true) (hone : Ingestion.OneRepository calls) :
    ∀ r ∈ ((∅ : Store).after calls).repositories,
      ((∅ : Store).after calls).RevisionsMatch r (Ingestion.filesTold calls r) ∧
      ((∅ : Store).after calls).RevisionsStay ((∅ : Store).after (calls ++ more)) r := by
  rw [idsIssued_append] at hids
  have htold := told_after_empty calls (by omega) hok
  have hhoused := housed_after_empty calls (by omega)
  obtain ⟨owner, hs⟩ := sound_after_empty calls (by omega)
  obtain ⟨⟨owner', hagree, hs'⟩, g⟩ := hs.after hids
  rw [after_append]
  intro r hr
  exact ⟨htold.revisionsMatch hs hhoused hone hr, (hs.congr hagree).revisionsStay hs' g hr⟩

theorem revision_identity_sample :
    (∅ : Store).idsIssued (Ingestion.sample ++ [.sampleElsewhere]) < 2 ^ 64 ∧
      (∅ : Store).commitsSucceed Ingestion.sample = true ∧
      Ingestion.OneRepository Ingestion.sample ∧
      ∃ r ∈ ((∅ : Store).after Ingestion.sample).repositories,
        ((∅ : Store).after Ingestion.sample).RevisionsMatch r
          (Ingestion.filesTold Ingestion.sample r) ∧
        ((∅ : Store).after Ingestion.sample).RevisionsStay
          ((∅ : Store).after (Ingestion.sample ++ [.sampleElsewhere])) r := by
  have hids : (∅ : Store).idsIssued (Ingestion.sample ++ [.sampleElsewhere]) < 2 ^ 64 := by
    decide +kernel
  have hok : (∅ : Store).commitsSucceed Ingestion.sample = true := by decide +kernel
  have hone : Ingestion.OneRepository Ingestion.sample := by
    unfold Ingestion.OneRepository
    decide +kernel
  have hshop : (((∅ : Store).after Ingestion.sample).repositories.get? ⟨2⟩).isSome := by
    decide +kernel
  obtain ⟨r, hget⟩ := Option.isSome_iff_exists.1 hshop
  have hr := Sorted.mem_of_get? hget
  exact ⟨hids, hok, hone, r, hr,
    revision_identity Ingestion.sample [.sampleElsewhere] hids hok hone r hr⟩

end Store

end Cityscape
