import Cityscape.Ingestion.Commits
import Cityscape.Proofs.Paths
import Cityscape.Proofs.Untouched
import Mathlib.Data.Finset.Option

/-!
# `Account`: what a store says of a commit

An account names everything that a commit refers to by tokens, names, hashes and paths, as facts
do, so accounts of different stores can be compared, and with what facts say. The account of a
commit stays the same for as long as the commit does, whatever else is added to the store.
-/

namespace Cityscape

/-- The names of a branch and its repository. -/
structure BranchKey where
  token : String
  repository : String
  name : String
deriving DecidableEq

/-- What is known of a commit. -/
structure CommitAccount where
  branch : Option BranchKey := none
  author : Option String := none
  authorDate : Option Instant := none
  commitDate : Option Instant := none
  /-- The hashes of the parents. -/
  parents : Finset String := ∅
  tags : Finset String := ∅
  /-- The content hash and the path of each file. -/
  files : Finset (Option String × List String) := ∅
  /-- The token and the name of each repository that contains the commit. -/
  repositories : Finset (String × String) := ∅
deriving DecidableEq

/-! ## What facts say -/

namespace CommitFact

/-- The parent that a fact names. An empty hash and the word for none name no parent. -/
def parentNamed (f : CommitFact) : Option String :=
  match f.parentCommitHash with
  | none => none
  | some h => if h = "" ∨ h = "NONE" then none else some h

/-- The branch that a fact names, or the main branch if the name is empty. -/
def branchKey (f : CommitFact) : BranchKey where
  token := f.landscapeToken
  repository := displayName f.repositoryName
  name := if f.branchName = "" then "main" else f.branchName

/-- The token and the name of the repository of a fact. -/
def repositoryKey (f : CommitFact) : String × String :=
  (f.landscapeToken, displayName f.repositoryName)

/-- The content hash and the path of each file of a fact. -/
def fileKeys (f : CommitFact) : List (Option String × List String) :=
  f.files.map fun i => (some i.hash, splitPath i.path)

theorem parentNamed_eq (f : CommitFact) :
    f.parentNamed = (nonEmpty f.parentCommitHash).filter fun h => h ≠ noParent := by
  unfold parentNamed nonEmpty
  cases f.parentCommitHash with
  | none => rfl
  | some h =>
    by_cases hempty : h = ""
    · simp [hempty, Option.filter]
    · by_cases hnone : h = "NONE" <;> simp [hempty, hnone, noParent, Option.filter]

theorem branchKey_name (f : CommitFact) : f.branchKey.name = branchMeant f.branchName := by
  unfold branchKey branchMeant
  by_cases h : f.branchName = "" <;> simp [h, defaultBranch]

end CommitFact

namespace CommitAccount

/-- The account after one more fact. -/
def withFact (a : CommitAccount) (f : CommitFact) : CommitAccount where
  branch := some f.branchKey
  author := f.author.or a.author
  authorDate := f.authorDate.or a.authorDate
  commitDate := f.commitDate.or a.commitDate
  parents := a.parents ∪ f.parentNamed.toFinset
  tags := a.tags ∪ f.tags.toFinset
  files := a.files ∪ f.fileKeys.toFinset
  repositories := insert f.repositoryKey a.repositories

/-- What the facts given for a commit say, in the order in which they were given: the branch of
the last one, the last known author and dates, and all parents, tags, files and repositories. -/
def ofFacts (fs : List CommitFact) : CommitAccount where
  branch := fs.getLast?.map CommitFact.branchKey
  author := (fs.filterMap CommitFact.author).getLast?
  authorDate := (fs.filterMap CommitFact.authorDate).getLast?
  commitDate := (fs.filterMap CommitFact.commitDate).getLast?
  parents := (fs.filterMap CommitFact.parentNamed).toFinset
  tags := (fs.flatMap CommitFact.tags).toFinset
  files := (fs.flatMap CommitFact.fileKeys).toFinset
  repositories := (fs.map CommitFact.repositoryKey).toFinset

/-- The last of the values that are known, after one more value. -/
theorem getLast?_filterMap_concat {α β : Type} (g : α → Option β) (l : List α) (a : α) :
    ((l ++ [a]).filterMap g).getLast? = (g a).or (l.filterMap g).getLast? := by
  rw [List.filterMap_append, List.getLast?_append]
  cases h : g a <;> simp [List.filterMap, h]

/-- One more fact changes the account as if it had been told alone. -/
theorem ofFacts_concat (fs : List CommitFact) (f : CommitFact) :
    ofFacts (fs ++ [f]) = (ofFacts fs).withFact f := by
  have hparent : (fs ++ [f]).filterMap CommitFact.parentNamed
      = fs.filterMap CommitFact.parentNamed ++ f.parentNamed.toList := by
    rw [List.filterMap_append]
    cases h : f.parentNamed <;> simp [List.filterMap, h]
  unfold ofFacts withFact
  rw [getLast?_filterMap_concat, getLast?_filterMap_concat, getLast?_filterMap_concat, hparent]
  congr 1
  · simp
  · ext h
    simp
  · simp
  · simp
  · ext r
    simp

end CommitAccount

/-! ## What a store says -/

/-- The names of the elements with the given ids. -/
def Sorted.namesIn {α β : Type} [DecidableEq β] {key : α → NodeId} (t : Sorted key)
    (name : α → β) (ids : SortedSet NodeId) : Finset β :=
  ((ids.toList.filterMap t.get?).map name).toFinset

namespace Sorted

variable {α β : Type} [DecidableEq β] {key : α → NodeId} {t t' : Sorted key} {name name' : α → β}
  {ids : SortedSet NodeId}

theorem mem_namesIn {b : β} :
    b ∈ t.namesIn name ids ↔ ∃ i ∈ ids, ∃ x, t.get? i = some x ∧ name x = b := by
  unfold namesIn
  simp only [List.mem_toFinset, List.mem_map, List.mem_filterMap, mem_toList]
  constructor
  · rintro ⟨x, ⟨i, hi, hx⟩, hb⟩
    exact ⟨i, hi, x, hx, hb⟩
  · rintro ⟨i, hi, x, hx, hb⟩
    exact ⟨x, ⟨i, hi, hx⟩, hb⟩

theorem namesIn_insert {i : NodeId} {x : α} (h : t.get? i = some x) :
    t.namesIn name (ids.insert i) = t.namesIn name ids ∪ {name x} := by
  ext b
  rw [mem_namesIn, Finset.mem_union, Finset.mem_singleton, mem_namesIn]
  constructor
  · rintro ⟨j, hj, y, hy, hb⟩
    rcases SortedSet.mem_insert.1 hj with rfl | hj
    · obtain rfl := Option.some.inj (h.symm.trans hy)
      exact .inr hb.symm
    · exact .inl ⟨j, hj, y, hy, hb⟩
  · rintro (⟨j, hj, y, hy, hb⟩ | rfl)
    · exact ⟨j, SortedSet.mem_insert.2 (.inr hj), y, hy, hb⟩
    · exact ⟨i, SortedSet.mem_insert.2 (.inl rfl), x, h, rfl⟩

/-- Names stay the same if the elements are there and keep their names. -/
theorem namesIn_congr
    (h : ∀ i ∈ ids, ∃ x x', t.get? i = some x ∧ t'.get? i = some x' ∧ name' x' = name x) :
    t'.namesIn name' ids = t.namesIn name ids := by
  ext b
  rw [mem_namesIn, mem_namesIn]
  constructor
  · rintro ⟨i, hi, y, hy, hb⟩
    obtain ⟨x, x', hx, hx', hname⟩ := h i hi
    obtain rfl := Option.some.inj (hx'.symm.trans hy)
    exact ⟨i, hi, x, hx, hname.symm.trans hb⟩
  · rintro ⟨i, hi, y, hy, hb⟩
    obtain ⟨x, x', hx, hx', hname⟩ := h i hi
    obtain rfl := Option.some.inj (hx.symm.trans hy)
    exact ⟨i, hi, x', hx', hname.trans hb⟩

end Sorted

namespace Store

/-- The names of a branch that exists, with those of its repository. -/
def branchKey (s : Store) (branch : Option NodeId) : Option BranchKey := do
  let b ← s.branches.get? (← branch)
  let r ← s.repositories.get? b.repository
  return { token := r.token, repository := r.name, name := b.name }

/-- The token and the name of each repository that contains a commit. -/
def holders (s : Store) (commit : NodeId) : Finset (String × String) :=
  ((s.repositories.toList.filter fun r => r.commits.contains commit).map fun r =>
    (r.token, r.name)).toFinset

/-- What the store says of a commit. -/
def accountOf (s : Store) (c : Commit) : CommitAccount where
  branch := s.branchKey c.branch
  author := c.author
  authorDate := c.authorDate
  commitDate := c.commitDate
  parents := s.commits.namesIn Commit.hash c.parents
  tags := s.tags.namesIn Tag.name c.tags
  files := s.files.namesIn s.fileKey c.fileRevisions
  repositories := s.holders c.id

/-- What the store says of the commit with the given id. -/
def accountAt (s : Store) (id : NodeId) : Option CommitAccount :=
  (s.commits.get? id).map s.accountOf

/-- What the store says of the commit of a landscape with the given hash. -/
def account (s : Store) (token hash : String) : Option CommitAccount :=
  (s.findCommit token hash).map s.accountOf

theorem mem_holders {s : Store} {id : NodeId} {key : String × String} :
    key ∈ s.holders id ↔ ∃ r ∈ s.repositories, id ∈ r.commits ∧ (r.token, r.name) = key := by
  unfold holders
  simp only [List.mem_toFinset, List.mem_map, List.mem_filter, SortedSet.contains_iff,
    Sorted.mem_toList, and_assoc]

/-! ## Look-ups by key -/

variable {owner : NodeId → String} {n m : Nat} {s s' : Store}

theorem Keyed.eq_of_hash (h : s.Keyed) {c d : Commit} (hc : c ∈ s.commits) (hd : d ∈ s.commits)
    (htoken : c.token = d.token) (hhash : c.hash = d.hash) : c = d :=
  h.commits c hc d hd (Prod.ext htoken hhash)

theorem Keyed.findCommit_eq_some_iff (h : s.Keyed) {token hash : String} {c : Commit} :
    s.findCommit token hash = some c ↔ c ∈ s.commits ∧ c.token = token ∧ c.hash = hash :=
  h.commits.find?_eq_some_iff

theorem Keyed.findRepository_eq_some_iff (h : s.Keyed) {token name : String} {r : Repository} :
    s.findRepository token name = some r
      ↔ r ∈ s.repositories ∧ r.token = token ∧ r.name = name :=
  h.repositories.find?_eq_some_iff

theorem Keyed.account_eq (h : s.Keyed) {c : Commit} (hc : c ∈ s.commits) :
    s.account c.token c.hash = s.accountAt c.id := by
  unfold account accountAt
  rw [h.findCommit_eq_some_iff.2 ⟨hc, rfl, rfl⟩, Sorted.get?_key hc]

theorem findCommit_eq_none_iff {token hash : String} :
    s.findCommit token hash = none ↔ ∀ c ∈ s.commits, (c.token, c.hash) ≠ (token, hash) :=
  Sorted.find?_pair_eq_none_iff

/-! ## Accounts stay -/

theorem Sound.branchKey_of_grows (hs : s.Sound owner n) (g : s.Grows s') {c : Commit}
    (hc : c ∈ s.commits) : s'.branchKey c.branch = s.branchKey c.branch := by
  cases hb : c.branch with
  | none => rfl
  | some id =>
    obtain ⟨b, hget, -⟩ := (hs.fitting.commits c hc).branch id hb
    obtain ⟨r, hr, -⟩ := (hs.fitting.branches b (Sorted.mem_of_get? hget)).repository
    obtain ⟨b', hget', rfl⟩ := g.branches _ _ hget
    obtain ⟨r', hr', hk⟩ := g.repositories _ _ hr
    simp [branchKey, hget, hget', hr, hr', hk.token, hk.name]

theorem Sound.fileKey_of_grows (hs : s.Sound owner n) (hs' : s'.Sound owner m) (g : s.Grows s')
    {f f' : FileRevision} (hf : f ∈ s.files) (hk : f.Kept f') (hash : f.hash.isSome) :
    s'.fileKey f' = s.fileKey f := by
  obtain ⟨h, hh⟩ := Option.isSome_iff_exists.1 hash
  unfold fileKey
  rw [hs.relativePath_of_grows hs' g hf hk, hk.hash h hh, hh]

theorem SameCommit.holders_eq {id : NodeId} (h : SameCommit id s s') (g : s.Grows s') :
    s'.holders id = s.holders id := by
  ext key
  rw [mem_holders, mem_holders]
  constructor
  · rintro ⟨r', hr', hid, rfl⟩
    obtain ⟨r, hr, hsame, hmem⟩ := h.holders r' hr' hid
    obtain ⟨r'', hget, hk⟩ := g.repositories _ _ (Sorted.get?_key hr)
    rw [hsame, Sorted.get?_key hr'] at hget
    obtain rfl := Option.some.inj hget
    exact ⟨r, hr, hmem, Prod.ext hk.token.symm hk.name.symm⟩
  · rintro ⟨r, hr, hid, rfl⟩
    obtain ⟨r', hget, hk⟩ := g.repositories _ _ (Sorted.get?_key hr)
    exact ⟨r', Sorted.mem_of_get? hget, hk.commits _ hid, Prod.ext hk.token hk.name⟩

/-- A commit that stays as it is keeps its account while the store grows. -/
theorem Sound.accountAt_of_same (hs : s.Sound owner n) (hs' : s'.Sound owner m) (g : s.Grows s')
    {id : NodeId} (h : SameCommit id s s') : s'.accountAt id = s.accountAt id := by
  unfold accountAt
  rw [h.commit]
  cases hget : s.commits.get? id with
  | none => rfl
  | some c =>
    have hc := Sorted.mem_of_get? hget
    have fits := hs.fitting.commits c hc
    obtain rfl := Sorted.key_of_get? hget
    -- what the commit refers to was there before, and names and paths stay
    have hparents : s'.commits.namesIn Commit.hash c.parents
        = s.commits.namesIn Commit.hash c.parents := by
      refine Sorted.namesIn_congr fun i hi => ?_
      obtain ⟨x, hx, -⟩ := fits.parents i hi
      obtain ⟨x', hx', hk⟩ := g.commits _ _ hx
      exact ⟨x, x', hx, hx', hk.hash⟩
    have htags : s'.tags.namesIn Tag.name c.tags = s.tags.namesIn Tag.name c.tags := by
      refine Sorted.namesIn_congr fun i hi => ?_
      obtain ⟨x, hx⟩ := fits.tags i hi
      obtain ⟨x', hx', rfl⟩ := g.tags _ _ hx
      exact ⟨x, x, hx, hx', rfl⟩
    have hfiles : s'.files.namesIn s'.fileKey c.fileRevisions
        = s.files.namesIn s.fileKey c.fileRevisions := by
      refine Sorted.namesIn_congr fun i hi => ?_
      obtain ⟨x, hx, hash, -⟩ := fits.files i hi
      obtain ⟨x', hx', hk⟩ := g.files _ _ hx
      exact ⟨x, x', hx, hx', hs.fileKey_of_grows hs' g (Sorted.mem_of_get? hx) hk hash⟩
    simp only [Option.map_some, accountOf, hs.branchKey_of_grows g hc, hparents, htags, hfiles,
      h.holders_eq g]

/-- Accounts stay the same if all commits do. -/
theorem Sound.account_of_same (hs : s.Sound owner n) (hs' : s'.Sound owner m) (g : s.Grows s')
    (h : s.SameCommits s') (token hash : String) :
    s'.account token hash = s.account token hash := by
  cases hfind : s.findCommit token hash with
  | some c =>
    obtain ⟨hc, rfl, rfl⟩ := hs.keyed.findCommit_eq_some_iff.1 hfind
    have hc' := (h c.id).mem hc
    rw [hs'.keyed.account_eq hc', hs.keyed.account_eq hc, hs.accountAt_of_same hs' g (h c.id)]
  | none =>
    have hnone : s'.findCommit token hash = none := by
      rw [findCommit_eq_none_iff] at hfind ⊢
      intro c' hc'
      exact hfind c' (Sorted.mem_of_get? ((h c'.id).commit.symm.trans (Sorted.get?_key hc')))
    simp only [account, hfind, hnone, Option.map_none]

end Store
end Cityscape
