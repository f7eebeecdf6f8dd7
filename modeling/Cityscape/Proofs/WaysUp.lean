import Cityscape.Proofs.Calls
import Cityscape.Proofs.Hydration
import Cityscape.Proofs.Roots

/-!
# `WaysUp`: the directories above the files of a commit

Going up from a file step by step may go on for ever, as parents may form a circle in a store that
no call has made. The way up is what is met until a parent is missing or has been met before
(`IsWayUp`); there is one such way from everywhere (`isWayUp_climb`, `IsWayUp.unique`).

A commit is hydrated file by file, and a walk upwards stops early, at the first directory that an
earlier file has led to. All the same the directories that are loaded are those on the ways up from
the files, and the way up from each file can be read off them (`Store.ways_up_loaded`). After any
calls the way up ends at a root.
-/

namespace Cityscape

/-! ## Going up step by step -/

/-- The directory that is met after so many steps more, if the next one has the given id. -/
def stepUp (find : NodeId → Option Directory) (next : Option NodeId) : Nat → Option Directory
  | 0 => next.bind find
  | k + 1 => (next.bind find).bind fun d => stepUp find d.parent k

/-- The directories are those met step by step, up to where the way ends or comes back. -/
structure IsWayUp (find : NodeId → Option Directory) (next : Option NodeId)
    (chain : List Directory) : Prop where
  steps : ∀ k < chain.length, chain[k]? = stepUp find next k
  distinct : (chain.map Directory.id).Nodup
  /-- What comes next, if anything does, has been met before. -/
  ends : ∀ d, stepUp find next chain.length = some d → d ∈ chain

section

variable {find : NodeId → Option Directory} {ds : List Directory} {next : Option NodeId}
  {chain chain' : List Directory} {d : Directory}

/-- One of two ways cannot be longer than the other one, as it would meet a directory twice. -/
theorem IsWayUp.length_le (h : IsWayUp find next chain) (h' : IsWayUp find next chain') :
    chain'.length ≤ chain.length := by
  refine Nat.le_of_not_lt fun hlt => ?_
  have hnext : chain'[chain.length]? = some chain'[chain.length] := List.getElem?_eq_getElem hlt
  -- the longer way goes on where the shorter one has come back
  have hback := h.ends _ ((h'.steps _ hlt).symm.trans hnext)
  obtain ⟨k, hk, hget⟩ := List.mem_iff_getElem.1 hback
  have hsame : chain'[k]? = some chain'[chain.length] := by
    rw [h'.steps k (Nat.lt_trans hk hlt), ← h.steps k hk, List.getElem?_eq_getElem hk, hget]
  have hids : (chain'.map Directory.id)[k]? = (chain'.map Directory.id)[chain.length]? := by
    rw [List.getElem?_map, List.getElem?_map, hsame, hnext]
  have hlength : k < (chain'.map Directory.id).length := by
    rw [List.length_map]
    exact Nat.lt_trans hk hlt
  exact Nat.ne_of_lt hk ((List.getElem?_inj hlength h'.distinct).1 hids)

/-- There is one way up at most. -/
theorem IsWayUp.unique (h : IsWayUp find next chain) (h' : IsWayUp find next chain') :
    chain = chain' := by
  have hlength := Nat.le_antisymm (h'.length_le h) (h.length_le h')
  refine List.ext_getElem? fun k => ?_
  by_cases hk : k < chain.length
  · rw [h.steps k hk, h'.steps k (hlength ▸ hk)]
  · rw [List.getElem?_eq_none (Nat.le_of_not_lt hk),
      List.getElem?_eq_none (hlength ▸ Nat.le_of_not_lt hk)]

theorem stepUp_mono {more : NodeId → Option Directory}
    (hfind : ∀ q c, find q = some c → more q = some c) {k : Nat} (h : stepUp find next k = some d) :
    stepUp more next k = some d := by
  induction k generalizing next with
  | zero =>
    obtain ⟨id, rfl, hd⟩ := Option.bind_eq_some_iff.1 h
    exact hfind id d hd
  | succ k ih =>
    obtain ⟨e, he, hrest⟩ := Option.bind_eq_some_iff.1 h
    obtain ⟨id, rfl, he⟩ := Option.bind_eq_some_iff.1 he
    exact Option.bind_eq_some_iff.2 ⟨e, hfind id e he, ih hrest⟩

/-- What is met after some steps is on the way. -/
theorem reach_of_stepUp {k : Nat} (h : stepUp (fun q => ds.find? fun d => d.id = q) next k = some d) :
    Reach ds next d := by
  induction k generalizing next with
  | zero =>
    obtain ⟨id, rfl, hd⟩ := Option.bind_eq_some_iff.1 h
    exact .here hd
  | succ k ih =>
    obtain ⟨e, he, hrest⟩ := Option.bind_eq_some_iff.1 h
    obtain ⟨id, rfl, he⟩ := Option.bind_eq_some_iff.1 he
    exact .up he (ih hrest)

/-- A climb meets one directory after another. -/
theorem stepUp_of_getElem?_climb {k : Nat} (h : (climb ds next)[k]? = some d) :
    stepUp (fun q => ds.find? fun d => d.id = q) next k = some d := by
  induction ds, next using climb.induct generalizing k with
  | case1 ds =>
    rw [climb] at h
    cases h
  | case2 ds id hnone =>
    rw [climb_of_find?_eq_none hnone] at h
    cases h
  | case3 ds id e hfind _ ih =>
    rw [climb_of_find?_eq_some hfind] at h
    cases k with
    | zero =>
      obtain rfl := Option.some.inj h
      exact hfind
    | succ k =>
      refine Option.bind_eq_some_iff.2 ⟨e, hfind, stepUp_mono (fun q c hc => ?_) (ih h)⟩
      rw [find?_others] at hc
      split at hc
      · cases hc
      · exact hc

theorem nodup_climb (ds : List Directory) (next : Option NodeId) :
    ((climb ds next).map Directory.id).Nodup := by
  induction ds, next using climb.induct with
  | case1 ds =>
    rw [climb]
    exact .nil
  | case2 ds id hnone =>
    rw [climb_of_find?_eq_none hnone]
    exact .nil
  | case3 ds id d hfind _ ih =>
    rw [climb_of_find?_eq_some hfind, List.map_cons]
    refine List.nodup_cons.2 ⟨fun hmem => ?_, ih⟩
    -- what is met later is found among the others
    obtain ⟨e, he, hid⟩ := List.mem_map.1 hmem
    have hother := (mem_climb_iff.1 he).find?
    obtain rfl : d.id = id := by simpa using List.find?_some hfind
    rw [find?_others, if_pos hid] at hother
    cases hother

/-- A climb is the way up. -/
theorem isWayUp_climb (ds : List Directory) (next : Option NodeId) :
    IsWayUp (fun q => ds.find? fun d => d.id = q) next (climb ds next) where
  steps k hk := by
    have hget := List.getElem?_eq_getElem hk
    rw [hget, stepUp_of_getElem?_climb hget]
  distinct := nodup_climb ds next
  ends _ hd := mem_climb_iff.2 (reach_of_stepUp hd)

end

/-! ## Hydrated commits -/

namespace Store

/-- The directories on the way up from `next`. -/
def WayUp (s : Store) (next : Option NodeId) (chain : List Directory) : Prop :=
  IsWayUp s.directories.get? next chain

theorem wayUp_iff {s : Store} {f : FileRevision} {chain : List Directory} :
    s.WayUp f.parent chain ↔ s.ancestors f = chain := by
  have hclimb : s.WayUp f.parent (s.ancestors f) := isWayUp_climb s.directories.toList f.parent
  constructor
  · exact hclimb.unique
  · rintro rfl
    exact hclimb

/-- What a commit comes to when it is hydrated: its files that exist, with everything on the ways
up from them. -/
structure Loads (s : Store) (c : Commit) (h : HydratedCommit) : Prop where
  commit : h.commit = c
  files : h.files.map HydratedFile.file = c.fileRevisions.toList.filterMap s.files.get?
  directories : ∀ d, d ∈ h.directories ↔
    ∃ f ∈ h.files, ∃ chain, s.WayUp f.file.parent chain ∧ d ∈ chain
  ancestors : ∀ f ∈ h.files, ∀ chain, s.WayUp f.file.parent chain ↔ h.ancestors f.file = chain

/-- The way up from a file ends at a directory without a parent, and the path of the file is made of
the names before it. -/
def EndsAtRoot (s : Store) (h : HydratedCommit) (f : FileRevision) : Prop :=
  ∃ below root, h.ancestors f = below ++ [root] ∧ root.parent = none ∧
    s.relativePath f = (below.map Directory.name).reverse ++ [f.name]

theorem loads_hydrate (s : Store) (c : Commit) : s.Loads c (s.hydrate c) where
  commit := rfl
  files := by
    show ((c.fileRevisions.toList.filterMap s.files.get?).map s.hydrateFile).map _ = _
    rw [List.map_map]
    exact List.map_id _
  directories d := by
    rw [mem_directories_hydrate]
    refine exists_congr fun f => and_congr_right fun _ => ?_
    simp only [wayUp_iff, exists_eq_left']
  ancestors f hf chain := by rw [wayUp_iff, ancestors_hydrate hf]

/-- In a sound store the way up from each file of a commit ends at a root. -/
theorem Sound.endsAtRoot {owner : NodeId → String} {n : Nat} {s : Store} (hs : s.Sound owner n)
    {c : Commit} {f : HydratedFile} (hf : f ∈ (s.hydrate c).files) :
    s.EndsAtRoot (s.hydrate c) f.file := by
  obtain ⟨x, -, hx, rfl⟩ := mem_files_hydrate.1 hf
  have hmem := Sorted.mem_of_get? hx
  obtain ⟨p, e, hp, he, -⟩ := (hs.fitting.files x hmem).parent
  obtain ⟨top, htop, hnone, hleads⟩ := hs.trees.exists_top e (Sorted.mem_of_get? he)
  have habove : s.topAbove x.parent = some top.id := by
    rw [hp, ← Sorted.key_of_get? he, hs.trees.topAbove_of_leads htop hleads,
      hs.trees.topAbove_top htop hnone]
  obtain ⟨below, root, hsplit, -, hroot, hnames⟩ := hs.hangsAt hmem habove
  exact ⟨below, root, (ancestors_hydrate hf).trans hsplit, hroot, hnames.symm⟩

/-- A commit with two files in directories of which each lies in another one, one file in a directory
whose parent is not there, and one that is not there itself. -/
def sampleCircular : Store :=
  { (∅ : Store) with
    commits := (∅ : Sorted Commit.id).insert
      { id := 20, token := "t", hash := "c", fileRevisions := Sorted.ofList [10, 11, 12, 13] }
    directories := Sorted.ofList
      [{ id := 1, name := "a", parent := some 2 }, { id := 2, name := "b", parent := some 3 },
        { id := 3, name := "c", parent := some 1 }, { id := 4, name := "d", parent := some 99 }]
    files := Sorted.ofList
      [{ id := 10, name := "x.rs", parent := some 2 }, { id := 11, name := "y.rs", parent := some 1 },
        { id := 12, name := "z.rs", parent := some 4 }] }

/-- In every store each commit that is known can be hydrated, and then holds exactly the directories
on the ways up from its files. After any calls these ways end at roots, and the paths of the files
are the names on the way down. -/
theorem ways_up_loaded (s : Store) (token hash : String) (c : Commit)
    (hfind : s.findCommit token hash = some c) :
    ∃ h, s.loadCommit hash token = .ok h ∧ s.Loads c h ∧
      ∀ calls, (∅ : Store).idsIssued calls < 2 ^ 64 → s = (∅ : Store).after calls →
        ∀ f ∈ h.files, s.EndsAtRoot h f.file := by
  refine ⟨s.hydrate c, ?_, s.loads_hydrate c, ?_⟩
  · unfold loadCommit
    rw [hfind]
  · rintro calls hids rfl f hf
    obtain ⟨owner, hs⟩ := sound_after_empty calls hids
    exact hs.endsAtRoot hf

/-- A store with directories that lie in one another, and one that calls have made. -/
theorem ways_up_loaded_sample :
    (∃ c h, sampleCircular.findCommit "t" "c" = some c ∧
      sampleCircular.loadCommit "c" "t" = .ok h ∧ sampleCircular.Loads c h ∧
      h.files.map (fun f => (h.ancestors f.file).map Directory.name)
        = [["b", "c", "a"], ["a", "b", "c"], ["d"]]) ∧
    ∃ c h, ((∅ : Store).after Ingestion.sample).findCommit "t" "c2" = some c ∧
      ((∅ : Store).after Ingestion.sample).loadCommit "c2" "t" = .ok h ∧
      ((∅ : Store).after Ingestion.sample).Loads c h ∧ h.files.length = 2 ∧
      ∀ f ∈ h.files, ((∅ : Store).after Ingestion.sample).EndsAtRoot h f.file := by
  have hcircular : (sampleCircular.findCommit "t" "c").isSome := by decide +kernel
  have hknown : (((∅ : Store).after Ingestion.sample).findCommit "t" "c2").isSome := by
    decide +kernel
  obtain ⟨c, hc⟩ := Option.isSome_iff_exists.1 hcircular
  obtain ⟨c', hc'⟩ := Option.isSome_iff_exists.1 hknown
  obtain ⟨h, hload, hloads, -⟩ := ways_up_loaded sampleCircular "t" "c" c hc
  obtain ⟨h', hload', hloads', hends⟩ := ways_up_loaded _ "t" "c2" c' hc'
  have hchains : (sampleCircular.loadCommit "c" "t").toOption.map
      (fun h => h.files.map fun f => (h.ancestors f.file).map Directory.name)
        = some [["b", "c", "a"], ["a", "b", "c"], ["d"]] := by
    decide +kernel
  have hlength : (((∅ : Store).after Ingestion.sample).loadCommit "c2" "t").toOption.map
      (fun h => h.files.length) = some 2 := by
    decide +kernel
  rw [hload] at hchains
  rw [hload'] at hlength
  exact ⟨⟨c, h, hc, hload, hloads, Option.some.inj hchains⟩,
    c', h', hc', hload', hloads', Option.some.inj hlength,
    hends Ingestion.sample (by decide +kernel) rfl⟩

end Store

end Cityscape
