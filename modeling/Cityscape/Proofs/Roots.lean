import Cityscape.Proofs.Homes

/-!
# `Roots`: below which root the files of a commit fact hang

After a commit fact has been taken in, its commit has each file of the fact with its hash, and
the names from a root down to the file are those of its path. The root is that of the repository
of the fact if no other repository contains one of its commits
(`Store.placed_of_ingestCommit`). Otherwise the file may be one that another repository has
brought into a shared commit, and hang in the tree of that one
(`Store.not_below_own_root`).
-/

namespace Cityscape

namespace Store

variable {owner : NodeId → String} {n : Nat} {s : Store} {root : NodeId} {segments : List String}
  {f : FileRevision}

/-- The way up from a file ends at a root, and the names on the way down from there are the given
ones. -/
def HangsAt (s : Store) (root : NodeId) (segments : List String) (f : FileRevision) : Prop :=
  ∃ below top, s.ancestors f = below ++ [top] ∧ top.id = root ∧ top.parent = none ∧
    (below.map Directory.name).reverse ++ [f.name] = segments

/-- A climb ends at a directory without a parent, and all others on the way have one. -/
theorem Sound.climb_split (hs : s.Sound owner n) : ∀ d ∈ s.directories, ∃ below top,
    climb s.directories.toList (some d.id) = below ++ [top] ∧ top.parent = none ∧
      ∀ x ∈ below, x.parent.isSome := by
  refine hs.trees.directory_induction fun d hd ih => ?_
  have hclimb := hs.trees.climb_eq_cons hd
  cases hp : d.parent with
  | none =>
    have hnil : climb s.directories.toList d.parent = [] := by rw [hp, climb]
    rw [hnil] at hclimb
    exact ⟨[], d, hclimb, hp, fun _ hx => absurd hx List.not_mem_nil⟩
  | some p =>
    obtain ⟨e, he, -⟩ := (hs.fitting.directories d hd).parent p hp
    obtain ⟨below, top, hsplit, htop, hbelow⟩ := ih p e hp he
    rw [Sorted.key_of_get? he] at hsplit
    rw [hp, hsplit] at hclimb
    refine ⟨d :: below, top, hclimb, htop, ?_⟩
    intro x hx
    rcases List.mem_cons.1 hx with rfl | hx
    · rw [hp]
      rfl
    · exact hbelow x hx

theorem HangsAt.topAbove (h : s.HangsAt root segments f) : s.topAbove f.parent = some root := by
  obtain ⟨below, top, hsplit, rfl, -⟩ := h
  have hclimb : climb s.directories.toList f.parent = below ++ [top] := hsplit
  unfold Store.topAbove
  rw [hclimb, List.getLast?_concat, Option.map_some]

/-- The root and the relative path of a file tell where it hangs. -/
theorem Sound.hangsAt (hs : s.Sound owner n) (hf : f ∈ s.files)
    (htop : s.topAbove f.parent = some root) : s.HangsAt root (s.relativePath f) f := by
  obtain ⟨p, e, hp, he, -⟩ := (hs.fitting.files f hf).parent
  obtain ⟨below, top, hsplit, hnone, hbelow⟩ := hs.climb_split e (Sorted.mem_of_get? he)
  rw [Sorted.key_of_get? he, ← hp] at hsplit
  -- only the top has no parent, so the path is made of all names but that of the top
  have hpath : (below ++ [top]).takeWhile (fun d => d.parent.isSome) = below :=
    takeWhile_append_cons hbelow (by rw [hnone]; nofun)
  refine ⟨below, top, hsplit, ?_, hnone, ?_⟩
  · unfold Store.topAbove at htop
    rw [hsplit, List.getLast?_concat, Option.map_some] at htop
    exact Option.some.inj htop
  · rw [relativePath_eq]
    unfold namesAbove
    rw [hsplit, hpath]

end Store

/-- A commit with one file, told of a repository. -/
def CommitFact.sampleFork (repository : String) : CommitFact :=
  { landscapeToken := "t", repositoryName := repository, branchName := "main", commitHash := "c"
    addedFiles := [⟨"h1", "a.rs"⟩] }

/-- Two repositories of a landscape, and a commit of the first one. -/
def Ingestion.sampleForks : List Ingestion :=
  [.repository { landscapeToken := "t", repositoryName := "r1", branchName := "main" },
    .repository { landscapeToken := "t", repositoryName := "r2", branchName := "main" },
    .commit (.sampleFork "r1")]

/-- What comes of telling the commit of the second one. -/
def Outcome.sampleForked : Outcome Commit :=
  Edit.ingestCommit (.sampleFork "r2") ((∅ : Store).after Ingestion.sampleForks)

/-- Where the files of a commit fact are after the fact has been taken in: in its commit, below
the root of the repository that the fact names or of one that is linked to it. -/
def CommitFact.PlacedIn (f : CommitFact) (s : Store) (c : Commit) : Prop :=
  ∃ r ∈ s.repositories, (r.token, r.name) = f.repositoryKey ∧ c.id ∈ r.commits ∧
    ∀ file ∈ f.files, ∃ x ∈ s.files, x.id ∈ c.fileRevisions ∧ x.hash = some file.hash ∧
      ∃ q ∈ s.repositories, s.Linked r.id q.id ∧
        s.HangsAt q.rootDirectory (splitPath file.path) x ∧ (s.Exclusive r → q = r)

/-- The files of a fact that has been taken in are in their places. -/
theorem CommitFact.TakenIn.placedIn {owner : NodeId → String} {n : Nat} {f : CommitFact}
    {s s' : Store} {c : Commit} (h : f.TakenIn s s' c) (hs' : s'.Sound owner n)
    (hhoused : s'.Housed) : f.PlacedIn s' c := by
  obtain ⟨hc, htoken, hhash⟩ := hs'.keyed.findCommit_eq_some_iff.1 h.found
  have haccount : s'.accountOf c
      = ((s.account f.landscapeToken f.commitHash).getD {}).withFact f := by
    have := h.account
    unfold Store.account at this
    rw [h.found, Option.map_some] at this
    exact Option.some.inj this
  have hholds : f.repositoryKey ∈ s'.holders c.id := by
    show f.repositoryKey ∈ (s'.accountOf c).repositories
    rw [haccount]
    exact Finset.mem_insert_self _ _
  obtain ⟨r, hr, hcontains, hkey⟩ := Store.mem_holders.1 hholds
  refine ⟨r, hr, hkey, hcontains, ?_⟩
  intro file hfile
  obtain ⟨hrtoken, hrname⟩ := Prod.ext_iff.1 hkey
  have hfind := hs'.keyed.findRepository_eq_some_iff.2 ⟨hr, hrtoken, hrname⟩
  obtain ⟨x, c', hx, hc', hid, hmem⟩ := h.files r hfind file hfile
  obtain rfl : c' = c := Sorted.eq_of_key_eq hc' hc hid
  have hrev := (Store.findRevision_eq_some_iff.1 hx).1
  obtain ⟨q, hq, hlinked, htop⟩ := hhoused.files r hr x hrev.mem hrev.inRepository
  have hangs := hs'.hangsAt hrev.mem htop
  rw [show s'.relativePath x = splitPath file.path from congrArg Prod.snd hrev.key] at hangs
  exact ⟨x, hrev.mem, hmem, congrArg Prod.fst hrev.key, q, hq, hlinked, hangs,
    fun hexclusive => hexclusive.eq_of_linked hr hq hlinked⟩

namespace Store

/-- After any calls, a commit fact that is taken in has its files in their places. -/
theorem placed_of_ingestCommit (calls : List Ingestion) (f : CommitFact) (c : Commit)
    (hids : (∅ : Store).idsIssued (calls ++ [.commit f]) < 2 ^ 64)
    (hok : (Edit.ingestCommit f ((∅ : Store).after calls)).result = .ok c) :
    f.PlacedIn (Edit.ingestCommit f ((∅ : Store).after calls)).store c := by
  have hedit : ((Ingestion.commit f).edit ((∅ : Store).after calls)).issued
      = (Edit.ingestCommit f ((∅ : Store).after calls)).issued :=
    congrArg Outcome.issued (Edit.bind_of_ok (congrArg (Outcome.mk · _ _) hok))
  rw [show (∅ : Store).idsIssued (calls ++ [.commit f]) = (∅ : Store).idsIssued calls
      + ((Ingestion.commit f).edit ((∅ : Store).after calls)).issued from
    idsIssued_append ∅ calls [.commit f]] at hids
  have hhoused := housed_after_empty calls (by omega)
  obtain ⟨owner, hs⟩ := sound_after_empty calls (by omega)
  obtain ⟨owner', -, hready, -⟩ := hs.call (.commit f) hids
  rw [hedit] at hids
  obtain ⟨hsteps, hpost, -⟩ := Edit.runs_ingestCommit hready hids
  obtain ⟨hs', -⟩ := hsteps.sound_and_grows hready.sound hids
  exact (hpost c hok).placedIn hs' (hsteps.housed hready.sound hids hhoused)

theorem placed_of_ingestCommit_sample :
    ∃ c, (∅ : Store).idsIssued (Ingestion.sampleForks ++ [.commit (.sampleFork "r2")]) < 2 ^ 64 ∧
      Outcome.sampleForked.result = .ok c ∧
      (CommitFact.sampleFork "r2").PlacedIn Outcome.sampleForked.store c := by
  have hids : (∅ : Store).idsIssued
      (Ingestion.sampleForks ++ [.commit (.sampleFork "r2")]) < 2 ^ 64 := by
    decide +kernel
  have hok : Outcome.sampleForked.result.isOk = true := by decide +kernel
  cases hc : Outcome.sampleForked.result with
  | error x =>
    rw [hc] at hok
    cases hok
  | ok c =>
    exact ⟨c, hids, rfl, placed_of_ingestCommit Ingestion.sampleForks (.sampleFork "r2") c hids hc⟩

/-- The second repository is told of a commit that the first one contains with the same file. No
file of the commit hangs below the root of the second one afterwards. -/
theorem not_below_own_root :
    ∃ c r, Outcome.sampleForked.result = .ok c ∧
      Outcome.sampleForked.store.findRepository "t" "r2" = some r ∧
      ∃ file ∈ (CommitFact.sampleFork "r2").files,
        ¬∃ x ∈ Outcome.sampleForked.store.files, x.id ∈ c.fileRevisions ∧
          x.hash = some file.hash ∧
          Outcome.sampleForked.store.HangsAt r.rootDirectory (splitPath file.path) x := by
  have hok : Outcome.sampleForked.result.isOk = true := by decide +kernel
  have hroot : (Outcome.sampleForked.store.findRepository "t" "r2").map Repository.rootDirectory
      = some ⟨4⟩ := by decide +kernel
  have htops : ∀ x ∈ Outcome.sampleForked.store.files.toList,
      Outcome.sampleForked.store.topAbove x.parent = some ⟨1⟩ := by decide +kernel
  cases hc : Outcome.sampleForked.result with
  | error x =>
    rw [hc] at hok
    cases hok
  | ok c =>
    obtain ⟨r, hr, hid⟩ := Option.map_eq_some_iff.1 hroot
    refine ⟨c, r, rfl, hr, ⟨"h1", "a.rs"⟩, List.mem_singleton_self _, ?_⟩
    intro h
    obtain ⟨x, hx, -, -, hangs⟩ := h
    have htop := hangs.topAbove
    rw [htops x hx, hid] at htop
    exact absurd htop (by decide)

end Store

end Cityscape
