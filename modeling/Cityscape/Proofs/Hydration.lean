import Cityscape.Proofs.Paths
import Cityscape.Query.CodeMetrics
import Mathlib.Data.List.TakeWhile

/-!
# `Hydration`: nothing is missing above a file

Loading the directories above the files of a commit stops wherever an earlier file has led
already. Nothing gets lost by that: what lies further up from there has been loaded with the
earlier file. So a hydrated commit has exactly the directories above its files
(`Store.mem_directories_hydrate`), and the way up from a file is that of the store
(`Store.ancestors_hydrate`).
-/

namespace Cityscape

/-! ## The directories above some files -/

/-- No directory hides another one with the same id. -/
def Distinct (ds : List Directory) : Prop := ∀ d ∈ ds, ds.find? (fun e => e.id = d.id) = some d

theorem Distinct.find?_filter {ds : List Directory} (hds : Distinct ds) {P : Directory → Bool}
    {q : NodeId} {c : Directory} :
    (ds.filter P).find? (fun d => d.id = q) = some c
      ↔ ds.find? (fun d => d.id = q) = some c ∧ P c := by
  constructor
  case mp =>
    intro h
    obtain ⟨hmem, hP⟩ := List.mem_filter.1 (List.mem_of_find?_eq_some h)
    obtain rfl : c.id = q := by simpa using List.find?_some h
    exact ⟨hds c hmem, hP⟩
  case mpr =>
    rintro ⟨h, hP⟩
    obtain rfl : c.id = q := by simpa using List.find?_some h
    have hmem := List.mem_of_find?_eq_some h
    -- only `c` itself has its id
    have hunique : ∀ d ∈ ds, d.id = c.id → d = c := fun d hd he =>
      Option.some.inj ((he ▸ hds d hd).symm.trans h)
    cases hfind : (ds.filter P).find? fun d => d.id = c.id with
    | none =>
      have hno := List.find?_eq_none.1 hfind c (List.mem_filter.2 ⟨hmem, hP⟩)
      exact absurd (decide_eq_true rfl) hno
    | some d =>
      have hd := (List.mem_filter.1 (List.mem_of_find?_eq_some hfind)).1
      rw [hunique d hd (by simpa using List.find?_some hfind)]

/-- A way that has not led to a directory so far leads there without those met before, if with
each of them all that is above it was met. -/
theorem Reach.filter {ds : List Directory} (hds : Distinct ds) {met : List Directory}
    (hmet : ∀ d ∈ met, ∀ e, Reach ds d.parent e → e ∈ met) {next : Option NodeId} {e : Directory}
    (he : e ∉ met) (h : Reach ds next e) : Reach (ds.filter fun d => d ∉ met) next e := by
  induction h with
  | here h => exact .here (hds.find?_filter.2 ⟨h, decide_eq_true he⟩)
  | @up id d e h rest ih =>
    have hd : d ∉ met := fun hd => he (hmet d hd e rest)
    exact .up (hds.find?_filter.2 ⟨h, decide_eq_true hd⟩) (ih he)

/-- The directories above some files are those on the way up from one of them. -/
theorem mem_directoriesAbove {ds : List Directory} (hds : Distinct ds) {fs : List FileRevision}
    {e : Directory} : e ∈ directoriesAbove ds fs ↔ ∃ f ∈ fs, Reach ds f.parent e := by
  induction fs generalizing ds with
  | nil => simp [directoriesAbove]
  | cons f fs ih =>
    have hrest : Distinct (ds.filter fun d => d ∉ climb ds f.parent) := by
      intro d hd
      obtain ⟨hd, hP⟩ := List.mem_filter.1 hd
      exact hds.find?_filter.2 ⟨hds d hd, hP⟩
    have hclosed : ∀ d ∈ climb ds f.parent, ∀ e, Reach ds d.parent e → e ∈ climb ds f.parent :=
      fun d hd e he => mem_climb_iff.2 ((mem_climb_iff.1 hd).trans he)
    rw [directoriesAbove, List.mem_append, ih hrest, mem_climb_iff]
    simp only [List.mem_cons, exists_eq_or_imp]
    constructor
    case mp =>
      rintro (h | ⟨g, hg, h⟩)
      · exact .inl h
      · exact .inr ⟨g, hg, h.mono fun q c hc => (hds.find?_filter.1 hc).1⟩
    case mpr =>
      rintro (h | ⟨g, hg, h⟩)
      · exact .inl h
      · by_cases hmet : e ∈ climb ds f.parent
        · exact .inl (mem_climb_iff.1 hmet)
        · exact .inr ⟨g, hg, h.filter hds hclosed hmet⟩

/-! ## Hydrated commits -/

namespace Store

variable {s : Store} {c : Commit} {f : HydratedFile}

theorem distinct_directories (s : Store) : Distinct s.directories.toList :=
  fun _ hd => Sorted.get?_key hd

/-- A file of a hydrated commit is one of the commit's files that exist. -/
theorem mem_files_hydrate :
    f ∈ (s.hydrate c).files ↔ ∃ g, g.id ∈ c.fileRevisions ∧ s.files.get? g.id = some g ∧
      f = s.hydrateFile g := by
  show f ∈ (c.fileRevisions.toList.filterMap s.files.get?).map s.hydrateFile ↔ _
  simp only [List.mem_map, List.mem_filterMap, Sorted.mem_toList]
  constructor
  case mp =>
    rintro ⟨g, ⟨x, hx, hg⟩, rfl⟩
    obtain rfl := Sorted.key_of_get? hg
    exact ⟨g, hx, hg, rfl⟩
  case mpr =>
    rintro ⟨g, hx, hg, rfl⟩
    exact ⟨g, ⟨g.id, hx, hg⟩, rfl⟩

/-- A hydrated commit has exactly the directories above its files. -/
theorem mem_directories_hydrate {d : Directory} :
    d ∈ (s.hydrate c).directories ↔ ∃ f ∈ (s.hydrate c).files, d ∈ s.ancestors f.file := by
  let fs := c.fileRevisions.toList.filterMap s.files.get?
  have habove : ∀ e, e ∈ directoriesAbove s.directories.toList fs ↔
      ∃ f ∈ fs, Reach s.directories.toList f.parent e :=
    fun e => mem_directoriesAbove s.distinct_directories
  have hfun : ∀ x ∈ directoriesAbove s.directories.toList fs,
      ∀ y ∈ directoriesAbove s.directories.toList fs, x.id = y.id → x = y := by
    intro x hx y hy he
    obtain ⟨_, _, hx⟩ := (habove x).1 hx
    obtain ⟨_, _, hy⟩ := (habove y).1 hy
    exact Option.some.inj (hx.find?.symm.trans (he ▸ hy.find?))
  show d ∈ Sorted.ofList (directoriesAbove s.directories.toList fs) ↔
    ∃ f ∈ fs.map s.hydrateFile, _
  rw [Sorted.mem_ofList_of_functional hfun, habove]
  simp only [List.mem_map, exists_exists_and_eq_and]
  exact exists_congr fun g => and_congr_right fun _ => mem_climb_iff.symm

/-- The way up from a file of a hydrated commit is that of the store. -/
theorem ancestors_hydrate (hf : f ∈ (s.hydrate c).files) :
    (s.hydrate c).ancestors f.file = s.ancestors f.file := by
  -- the parents that the way up can ask for are the same in both places
  refine (climb_congr (fun id => f.file.parent = some id ∨
    ∃ d, Reach s.directories.toList f.file.parent d ∧ d.parent = some id) ?_ ?_ ?_).symm
  · intro id hid
    cases hfind : s.directories.toList.find? fun d => d.id = id with
    | none =>
      refine (List.find?_eq_none.2 fun d hd he => ?_).symm
      obtain ⟨g, -, hd⟩ := mem_directories_hydrate.1 hd
      have hd := (mem_climb_iff.1 hd).find?
      rw [show d.id = id by simpa using he, hfind] at hd
      cases hd
    | some d =>
      have hreach : Reach s.directories.toList f.file.parent d := by
        rcases hid with hid | ⟨e, he, hid⟩
        · rw [hid]
          exact .here hfind
        · exact he.trans (hid ▸ .here hfind)
      have hmem := mem_directories_hydrate.2 ⟨f, hf, mem_climb_iff.2 hreach⟩
      obtain rfl : d.id = id := by simpa using List.find?_some hfind
      exact (Sorted.get?_key hmem).symm
  · intro id d p hid hfind hp
    refine .inr ⟨d, ?_, hp⟩
    rcases hid with hid | ⟨e, he, hid⟩
    · rw [hid]
      exact .here hfind
    · exact he.trans (hid ▸ .here hfind)
  · exact fun p hp => .inl hp

end Store

/-- A file has a path below a directory if the way up from it leads there. -/
theorem HydratedCommit.pathBelow_eq_some_iff {h : HydratedCommit} {f : FileRevision}
    {ds : List Directory} (hclimb : h.ancestors f = climb ds f.parent) {root : NodeId}
    {path : String} : h.pathBelow root f = some path ↔
      ∃ past, LeadsUp (fun q => ds.find? fun d => d.id = q) root f.parent past ∧
        path = "/".intercalate ((past.map Directory.name).reverse ++ [f.name]) := by
  simp only [leadsUp_iff_climb, ← hclimb]
  unfold pathBelow
  generalize h.ancestors f = chain
  constructor
  · intro hpath
    have hsplit := List.takeWhile_append_dropWhile (p := fun d : Directory => d.id ≠ root)
      (l := chain)
    have hpast : ∀ x ∈ chain.takeWhile (fun d => d.id ≠ root), x.id ≠ root := fun x hx =>
      of_decide_eq_true (List.mem_takeWhile_imp (p := fun d : Directory => d.id ≠ root) hx)
    have hfirst := List.head?_dropWhile_not (fun d : Directory => decide (d.id ≠ root)) chain
    simp only at hpath
    split at hpath
    · rename_i hlength
      cases hdrop : chain.dropWhile (fun d => d.id ≠ root) with
      | nil =>
        rw [hdrop, List.append_nil] at hsplit
        rw [hsplit] at hlength
        exact absurd hlength (Nat.lt_irrefl _)
      | cons d rest =>
        rw [hdrop] at hsplit hfirst
        exact ⟨_, ⟨d, rest, hsplit.symm, by simpa using hfirst, hpast⟩,
          (Option.some.inj hpath).symm⟩
    · cases hpath
  · rintro ⟨past, ⟨d, rest, rfl, rfl, hpast⟩, rfl⟩
    have htake : (past ++ d :: rest).takeWhile (fun x => x.id ≠ d.id) = past :=
      takeWhile_append_cons (fun x hx => decide_eq_true (hpast x hx)) (by simp)
    have hlength : past.length < (past ++ d :: rest).length := by
      rw [List.length_append, List.length_cons]
      omega
    simp only [htake, hlength, if_true]

/-- A file that is not below a directory has no path below it. -/
theorem HydratedCommit.pathBelow_eq_none {h : HydratedCommit} {root : NodeId} {f : FileRevision}
    (hroot : ∀ d ∈ h.ancestors f, d.id ≠ root) : h.pathBelow root f = none := by
  have hall : (h.ancestors f).takeWhile (fun d => d.id ≠ root) = h.ancestors f :=
    List.takeWhile_eq_self_iff.2 fun d hd => decide_eq_true (hroot d hd)
  unfold HydratedCommit.pathBelow
  simp only [hall, Nat.lt_irrefl, if_false]

end Cityscape
