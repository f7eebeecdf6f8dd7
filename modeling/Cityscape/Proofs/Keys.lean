import Cityscape.Proofs.Refusals
import Cityscape.Proofs.Repetition
import Mathlib.Data.List.Nodup
import Mathlib.Data.List.TakeWhile
import Mathlib.Logic.Function.Basic

/-!
# `Keys`: every id and every key names one node

No id is used twice, not even in two tables: there is always a function that tells for each id in
which table its node is, and a step extends it to the ids that it hands out (`Step.tabled`). A
commit that is on a branch is in the repository of the branch. Single steps do not keep this, as a
commit is put on its branch before it is put into the repository. Whole calls do: all but one of
the commits are as they were before the call or blank, and the one that the call is about has been
told completely, if its fact is cut off before the first file that has no path
(`Edit.sameEffect_ingestCommit`).
-/

namespace Cityscape

/-! ## Ids -/

/-- The tables of a store. -/
inductive Table where
  | repositories | branches | commits | tags | directories | files | classes | functions
  | applications | traces | spans
deriving DecidableEq

/-- All tables. -/
def Table.all : List Table :=
  [.repositories, .branches, .commits, .tags, .directories, .files, .classes, .functions,
    .applications, .traces, .spans]

namespace Store

/-- The ids of the nodes in a table. -/
def idsIn (s : Store) : Table → List NodeId
  | .repositories => s.repositories.toList.map Repository.id
  | .branches => s.branches.toList.map Branch.id
  | .commits => s.commits.toList.map Commit.id
  | .tags => s.tags.toList.map Tag.id
  | .directories => s.directories.toList.map Directory.id
  | .files => s.files.toList.map FileRevision.id
  | .classes => s.classes.toList.map ClassNode.id
  | .functions => s.functions.toList.map FunctionNode.id
  | .applications => s.applications.toList.map Application.id
  | .traces => s.traces.toList.map Trace.id
  | .spans => s.spans.toList.map Span.id

/-- The ids of all nodes, table by table. -/
def nodeIds (s : Store) : List NodeId := Table.all.flatMap s.idsIn

/-- The function tells for each node in which table it is. -/
structure Tabled (table : NodeId → Table) (s : Store) : Prop where
  repositories : ∀ x ∈ s.repositories, table x.id = .repositories
  branches : ∀ x ∈ s.branches, table x.id = .branches
  commits : ∀ x ∈ s.commits, table x.id = .commits
  tags : ∀ x ∈ s.tags, table x.id = .tags
  directories : ∀ x ∈ s.directories, table x.id = .directories
  files : ∀ x ∈ s.files, table x.id = .files
  classes : ∀ x ∈ s.classes, table x.id = .classes
  functions : ∀ x ∈ s.functions, table x.id = .functions
  applications : ∀ x ∈ s.applications, table x.id = .applications
  traces : ∀ x ∈ s.traces, table x.id = .traces
  spans : ∀ x ∈ s.spans, table x.id = .spans

theorem tabled_empty (table : NodeId → Table) : (∅ : Store).Tabled table := by
  constructor <;> exact fun x hx => absurd hx (Sorted.not_mem_empty x)

variable {n : Nat} {s : Store} {table : NodeId → Table}

/-- An id that has not been handed out may be given to any table. -/
theorem Tabled.give (h : s.Tabled table) (hs : s.Within n) {id : NodeId} (hid : n < id.val.toNat)
    (new : Table) : s.Tabled (Function.update table id new) := by
  -- no node has the id yet
  have old : ∀ {x : NodeId} {k : Table}, x.Issued n → table x = k →
      Function.update table id new x = k := by
    intro x k hx hk
    rw [Function.update_of_ne ?_, hk]
    rintro rfl
    exact Nat.not_le_of_lt hid hx
  exact {
    repositories := fun x hx => old (hs.repositories x hx) (h.repositories x hx)
    branches := fun x hx => old (hs.branches x hx) (h.branches x hx)
    commits := fun x hx => old (hs.commits x hx) (h.commits x hx)
    tags := fun x hx => old (hs.tags x hx) (h.tags x hx)
    directories := fun x hx => old (hs.directories x hx) (h.directories x hx)
    files := fun x hx => old (hs.files x hx) (h.files x hx)
    classes := fun x hx => old (hs.classes x hx) (h.classes x hx)
    functions := fun x hx => old (hs.functions x hx) (h.functions x hx)
    applications := fun x hx => old (hs.applications x hx) (h.applications x hx)
    traces := fun x hx => old (hs.traces x hx) (h.traces x hx)
    spans := fun x hx => old (hs.spans x hx) (h.spans x hx) }

/-- The next id is given to a table. -/
theorem Tabled.giveNext (h : s.Tabled table) (hs : s.Numbered n) (hn : n + 1 < 2 ^ 64)
    (new : Table) : ∃ table', s.Tabled table' ∧ table' ⟨s.nextId⟩ = new := by
  refine ⟨_, h.give hs.toWithin ?_ new, Function.update_self ..⟩
  rw [hs.next_toNat hn]
  exact Nat.lt_succ_self n

/-- The next two ids are given to tables. -/
theorem Tabled.giveTwo (h : s.Tabled table) (hs : s.Numbered n) (hn : n + 2 < 2 ^ 64)
    (first second : Table) :
    ∃ table', s.Tabled table' ∧ table' ⟨s.nextId⟩ = first ∧ table' ⟨s.nextId + 1⟩ = second := by
  have hfirst : n < (NodeId.mk s.nextId).val.toNat := by
    rw [hs.next_toNat (by omega)]
    exact Nat.lt_succ_self n
  have hsecond : n < (NodeId.mk (s.nextId + 1)).val.toNat := by
    rw [hs.next_next_toNat hn]
    omega
  have hne : (⟨s.nextId⟩ : NodeId) ≠ ⟨s.nextId + 1⟩ := by
    intro he
    have := congrArg (fun id : NodeId => id.val.toNat) he
    simp only [hs.next_toNat (by omega), hs.next_next_toNat hn] at this
    omega
  refine ⟨_, (h.give hs.toWithin hfirst first).give hs.toWithin hsecond second, ?_,
    Function.update_self ..⟩
  rw [Function.update_of_ne hne, Function.update_self]

end Store

open Store

variable {owner : NodeId → String} {t : String} {k : Topic} {n j : Nat} {s s' : Store}
  {table : NodeId → Table}

/-- A step extends the function to the ids that it hands out. -/
theorem Step.tabled (h : Step owner t k j s s') (hs : s.Numbered n) (hn : n + j < 2 ^ 64)
    (ht : s.Tabled table) : ∃ table', s'.Tabled table' := by
  cases h with
  | skip => exact ⟨table, { ht with }⟩
  | newRepository fresh own own' =>
    obtain ⟨_, ht, hd, hr⟩ := ht.giveTwo hs hn .directories .repositories
    exact ⟨_, { ht with
      directories := Sorted.forall_insert hd ht.directories
      repositories := Sorted.forall_insert hr ht.repositories }⟩
  | newBranch topic mem token fresh own =>
    obtain ⟨_, ht, hb⟩ := ht.giveNext hs hn .branches
    have old := ht.repositories _ mem
    exact ⟨_, { ht with
      branches := Sorted.forall_insert hb ht.branches
      repositories := Sorted.forall_insert old ht.repositories }⟩
  | contain mem token memCommit tokenCommit =>
    have old := ht.repositories _ mem
    exact ⟨_, { ht with repositories := Sorted.forall_insert old ht.repositories }⟩
  | newCommit named fresh own =>
    obtain ⟨_, ht, hc⟩ := ht.giveNext hs hn .commits
    exact ⟨_, { ht with commits := Sorted.forall_insert hc ht.commits }⟩
  | commit mem token kept fits =>
    exact ⟨_, { ht with
      commits := Sorted.forall_insert (kept.id ▸ ht.commits _ mem) ht.commits }⟩
  | newTag fresh =>
    obtain ⟨_, ht, hx⟩ := ht.giveNext hs hn .tags
    exact ⟨_, { ht with tags := Sorted.forall_insert hx ht.tags }⟩
  | newDirectory topic mem ownParent fresh own =>
    obtain ⟨_, ht, hd⟩ := ht.giveNext hs hn .directories
    have old := ht.directories _ mem
    exact ⟨_, { ht with
      directories := Sorted.forall_insert hd (Sorted.forall_insert old ht.directories) }⟩
  | newFile topic mem ownParent own =>
    obtain ⟨_, ht, hf⟩ := ht.giveNext hs hn .files
    have old := ht.directories _ mem
    exact ⟨_, { ht with
      directories := Sorted.forall_insert old ht.directories
      files := Sorted.forall_insert hf ht.files }⟩
  | file topic mem own kept fits =>
    exact ⟨_, { ht with files := Sorted.forall_insert (kept.id ▸ ht.files _ mem) ht.files }⟩
  | newClass id own fits =>
    obtain ⟨_, ht, hc⟩ := ht.giveNext hs hn .classes
    exact ⟨_, { ht with classes := Sorted.forall_insert (id ▸ hc) ht.classes }⟩
  | classNode mem own kept fits =>
    exact ⟨_, { ht with
      classes := Sorted.forall_insert (kept.id ▸ ht.classes _ mem) ht.classes }⟩
  | newFunction topic id own =>
    obtain ⟨_, ht, hf⟩ := ht.giveNext hs hn .functions
    exact ⟨_, { ht with functions := Sorted.forall_insert (id ▸ hf) ht.functions }⟩
  | newTracedApplication fresh own own' =>
    obtain ⟨_, ht, hd, ha⟩ := ht.giveTwo hs hn .directories .applications
    exact ⟨_, { ht with
      directories := Sorted.forall_insert hd ht.directories
      applications := Sorted.forall_insert ha ht.applications }⟩
  | newApplication id token fresh fits =>
    obtain ⟨_, ht, ha⟩ := ht.giveNext hs hn .applications
    exact ⟨_, { ht with applications := Sorted.forall_insert (id ▸ ha) ht.applications }⟩
  | application mem token kept fits =>
    exact ⟨_, { ht with
      applications := Sorted.forall_insert (kept.id ▸ ht.applications _ mem) ht.applications }⟩
  | newTrace id token fresh fits =>
    obtain ⟨_, ht, hx⟩ := ht.giveNext hs hn .traces
    exact ⟨_, { ht with traces := Sorted.forall_insert (id ▸ hx) ht.traces }⟩
  | trace mem token kept fits =>
    exact ⟨_, { ht with
      traces := Sorted.forall_insert (kept.id ▸ ht.traces _ mem) ht.traces }⟩
  | newSpan id token fresh fits =>
    obtain ⟨_, ht, hp⟩ := ht.giveNext hs hn .spans
    exact ⟨_, { ht with spans := Sorted.forall_insert (id ▸ hp) ht.spans }⟩
  | span mem token kept fits =>
    exact ⟨_, { ht with spans := Sorted.forall_insert (kept.id ▸ ht.spans _ mem) ht.spans }⟩

theorem Steps.tabled (h : Steps owner t k j s s') (hs : s.Sound owner n) (hn : n + j < 2 ^ 64)
    (ht : s.Tabled table) : ∃ table', s'.Tabled table' := by
  induction h with
  | refl => exact ⟨table, ht⟩
  | tail first last ih =>
    obtain ⟨_, hmid⟩ := ih hs (by omega) ht
    obtain ⟨hsmid, -⟩ := first.sound_and_grows hs (by omega)
    exact last.tabled hsmid.numbered (by omega) hmid

namespace Store

theorem Tabled.of_idsIn (h : s.Tabled table) {k : Table} {id : NodeId} (hid : id ∈ s.idsIn k) :
    table id = k := by
  cases k <;> obtain ⟨x, hx, rfl⟩ := List.mem_map.1 hid
  case repositories => exact h.repositories x hx
  case branches => exact h.branches x hx
  case commits => exact h.commits x hx
  case tags => exact h.tags x hx
  case directories => exact h.directories x hx
  case files => exact h.files x hx
  case classes => exact h.classes x hx
  case functions => exact h.functions x hx
  case applications => exact h.applications x hx
  case traces => exact h.traces x hx
  case spans => exact h.spans x hx

/-- No id is used twice in one table. -/
theorem nodup_idsIn (s : Store) (k : Table) : (s.idsIn k).Nodup := by
  have hsorted : ∀ {α : Type} {key : α → NodeId} (t : Sorted key), (t.toList.map key).Nodup := by
    intro α key t
    rw [List.Nodup, List.pairwise_map]
    exact t.ascending.imp Sorted.key_ne_of_lt
  cases k <;> exact hsorted _

/-- No id is used twice. -/
theorem Tabled.nodup (h : s.Tabled table) : s.nodeIds.Nodup := by
  refine List.nodup_flatMap.2 ⟨fun k _ => s.nodup_idsIn k, ?_⟩
  have hall : Table.all.Pairwise (· ≠ ·) := by decide
  refine hall.imp fun {a b} hne => ?_
  intro id ha hb
  exact hne ((h.of_idsIn ha).symm.trans (h.of_idsIn hb))

/-- The ids of all nodes have been handed out. -/
theorem Within.of_nodeIds (h : s.Within n) {id : NodeId} (hid : id ∈ s.nodeIds) : id.Issued n := by
  obtain ⟨k, -, hid⟩ := List.mem_flatMap.1 hid
  cases k <;> obtain ⟨x, hx, rfl⟩ := List.mem_map.1 hid
  case repositories => exact h.repositories x hx
  case branches => exact h.branches x hx
  case commits => exact h.commits x hx
  case tags => exact h.tags x hx
  case directories => exact h.directories x hx
  case files => exact h.files x hx
  case classes => exact h.classes x hx
  case functions => exact h.functions x hx
  case applications => exact h.applications x hx
  case traces => exact h.traces x hx
  case spans => exact h.spans x hx

end Store

/-! ## Facts with a file that has no path -/

namespace Edit

variable {α β γ : Type}

/-- Two edits change the store in the same way; their answers may differ. -/
def SameEffect (e : Edit α) (e' : Edit β) (s : Store) : Prop :=
  (e s).store = (e' s).store ∧ (e s).issued = (e' s).issued

namespace SameEffect

variable {e : Edit α} {e' : Edit β} {e'' : Edit γ}

theorem rfl : SameEffect e e s := ⟨.refl _, .refl _⟩

theorem symm (h : SameEffect e e' s) : SameEffect e' e s := ⟨h.1.symm, h.2.symm⟩

theorem trans (h : SameEffect e e' s) (h' : SameEffect e' e'' s) : SameEffect e e'' s :=
  ⟨h.1.trans h'.1, h.2.trans h'.2⟩

theorem bind {f : α → Edit β} {g : α → Edit γ} (h : ∀ a s', SameEffect (f a) (g a) s') :
    SameEffect (e >>= f) (e >>= g) s := by
  unfold SameEffect
  rcases ho : e s with ⟨x | a, s', j⟩
  · rw [bind_of_error ho, bind_of_error ho]
    exact ⟨.refl _, .refl _⟩
  · rw [bind_of_ok ho, bind_of_ok ho]
    exact ⟨(h a s').1, congrArg (j + ·) (h a s').2⟩

/-- What only makes an answer has no effect. -/
theorem bind_answer {f : α → Edit β} (h : ∀ a s', (f a s').store = s' ∧ (f a s').issued = 0) :
    SameEffect (e >>= f) e s := by
  unfold SameEffect
  rcases ho : e s with ⟨x | a, s', j⟩
  · rw [bind_of_error ho]
    exact ⟨.refl _, .refl _⟩
  · rw [bind_of_ok ho]
    exact ⟨(h a s').1, congrArg (j + ·) (h a s').2⟩

end SameEffect

theorem attachFile_of_pathless {r : Repository} {commit : NodeId} {file : FileIdentifier}
    (h : splitPath file.path = []) :
    attachFile r commit file s = { result := .error (.emptyFilePath file.hash), store := s } := by
  unfold attachFile
  simp only [h, List.isEmpty_nil, if_true]
  rfl

/-- Files are put into a commit up to the first one that has no path. -/
theorem sameEffect_attachFiles {r : Repository} {commit : NodeId} (files : List FileIdentifier) :
    ∀ {s : Store}, SameEffect (attachFiles r commit files)
      (attachFiles r commit (files.takeWhile fun file => splitPath file.path ≠ [])) s := by
  induction files with
  | nil => exact .rfl
  | cons file rest ih =>
    intro s
    by_cases hpath : splitPath file.path = []
    · rw [List.takeWhile_cons_of_neg (by simpa using hpath)]
      unfold SameEffect attachFiles
      rw [bind_of_error (attachFile_of_pathless hpath)]
      exact ⟨rfl, rfl⟩
    · rw [List.takeWhile_cons_of_pos (by simpa using hpath)]
      exact .bind fun _ _ => ih

end Edit

theorem Edit.ingestCommit_of_noHash {f : CommitFact} (hhash : f.commitHash = "") :
    (ingestCommit f s).store = s := by
  unfold ingestCommit
  rw [if_pos (String.isEmpty_iff.2 hhash)]
  rfl

/-- The fact cut off before its first file that has no path. -/
def CommitFact.cutOff (f : CommitFact) : CommitFact :=
  { f with
    addedFiles := f.files.takeWhile fun file => splitPath file.path ≠ []
    modifiedFiles := []
    unchangedFiles := [] }

theorem CommitFact.files_cutOff (f : CommitFact) :
    f.cutOff.files = f.files.takeWhile fun file => splitPath file.path ≠ [] := by
  simp only [files, cutOff, List.append_nil]

/-- A fact of an announced repository is acceptable if it is cut off there. -/
theorem CommitFact.acceptable_cutOff {f : CommitFact} {r : Repository} (hhash : f.commitHash ≠ "")
    (hr : s.findRepository f.landscapeToken (displayName f.repositoryName) = some r) :
    f.cutOff.Acceptable s where
  hash := hhash
  repository := ⟨r, hr⟩
  paths := fun file hfile => by
    rw [f.files_cutOff] at hfile
    simpa using List.mem_takeWhile_imp hfile

/-- A fact leaves behind what it would if it were cut off before its first file without path. -/
theorem Edit.sameEffect_ingestCommit (f : CommitFact) :
    SameEffect (ingestCommit f) (ingestCommit f.cutOff) s := by
  unfold ingestCommit
  by_cases hhash : f.commitHash.isEmpty = true
  · rw [if_pos hhash, if_pos (show f.cutOff.commitHash.isEmpty = true from hhash)]
    exact .rfl
  rw [if_neg hhash, if_neg (show ¬f.cutOff.commitHash.isEmpty = true from hhash),
    f.files_cutOff]
  refine .bind fun r _ => .bind fun branch _ => .bind fun c _ => .bind fun c' _ => ?_
  refine .bind fun _ _ => .bind fun _ _ => .bind fun _ _ => ?_
  -- the commit is read at the end, which changes nothing
  have hanswer : ∀ (e : Edit Unit) (s : Store),
      SameEffect (do e; return ((← store).commits.get? c'.id).getD c') e s :=
    fun e s => .bind_answer fun _ _ => ⟨rfl, rfl⟩
  exact (hanswer _ _).trans ((sameEffect_attachFiles f.files).trans (hanswer _ _).symm)

/-! ## The branches of commits -/

/-- If the commit is on a branch, the repository of the branch contains it. -/
def Store.Settled (s : Store) (c : Commit) : Prop :=
  ∀ id, c.branch = some id → ∃ b ∈ s.branches, b.id = id ∧
    ∃ r ∈ s.repositories, r.id = b.repository ∧ b.id ∈ r.branches ∧ c.id ∈ r.commits

theorem Store.Settled.of_grows {c : Commit} (h : s.Settled c) (g : s.Grows s') : s'.Settled c := by
  intro id hid
  obtain ⟨b, hb, rfl, r, hr, hrepository, hbranch, hmem⟩ := h id hid
  obtain ⟨_, hb', rfl⟩ := g.branches.mem hb
  obtain ⟨r', hr', hk⟩ := g.repositories.mem hr
  exact ⟨b, hb', rfl, r', hr', hk.id.trans hrepository, hk.branches _ hbranch, hk.commits _ hmem⟩

/-- A commit of which everything has been told is in the repository of its branch. -/
theorem CommitFact.Told.settled {f : CommitFact} {r : Repository} {b : Branch} {c : Commit}
    (h : f.Told s r b c) (hs : s.Sound owner n) : s.Settled c := by
  intro id hid
  obtain rfl := Option.some.inj (h.onBranch.symm.trans hid)
  obtain ⟨hb, hrepository, -⟩ := Sorted.mem_of_find?_pair h.branch
  obtain ⟨hr, -, -⟩ := Store.findRepository_spec h.repository
  obtain ⟨r', hr', hbranch⟩ := (hs.fitting.branches b hb).repository
  rw [hrepository, Sorted.get?_key hr] at hr'
  cases hr'
  exact ⟨b, hb, rfl, r, hr, hrepository.symm, hbranch, h.contained⟩

/-- The commit that a fact is about is in the repository of its branch, even if the fact is
refused. -/
theorem CommitFact.settled_ingestCommit {f : CommitFact} (h : Ready owner f.landscapeToken n s)
    (hn : n + (Edit.ingestCommit f s).issued < 2 ^ 64)
    (hsettled : ∀ c ∈ s.commits, s.Settled c) {c : Commit}
    (hc : c ∈ (Edit.ingestCommit f s).store.commits) (htoken : c.token = f.landscapeToken)
    (hhash : c.hash = f.commitHash) : (Edit.ingestCommit f s).store.Settled c := by
  have unchanged : (Edit.ingestCommit f s).store = s →
      (Edit.ingestCommit f s).store.Settled c := by
    intro he
    rw [he] at hc ⊢
    exact hsettled c hc
  by_cases hempty : f.commitHash = ""
  · exact unchanged (Edit.ingestCommit_of_noHash hempty)
  cases hr : s.findRepository f.landscapeToken (displayName f.repositoryName) with
  | none => exact unchanged (Edit.ingestCommit_of_unannounced hempty hr)
  | some r =>
    obtain ⟨hstore, hissued⟩ := Edit.sameEffect_ingestCommit (s := s) f
    rw [hstore] at hc ⊢
    rw [hissued] at hn
    -- what is left of the fact is not refused, so it is taken in
    obtain ⟨hsteps, hok, herror⟩ := Edit.runs_ingestCommit (f := f.cutOff) h hn
    have hs' := (hsteps.sound_and_grows h.sound hn).1
    cases hresult : (Edit.ingestCommit f.cutOff s).result with
    | error x =>
      rw [(CommitFact.acceptable_cutOff hempty hr).refusal] at herror
      cases herror x hresult
    | ok c' =>
      have htaken := hok c' hresult
      obtain rfl : c' = c := by
        have hfind := hs'.keyed.findCommit_eq_some_iff.2 ⟨hc, htoken, hhash⟩
        exact Option.some.inj (htaken.found.symm.trans hfind)
      obtain ⟨r', b, htold⟩ := htaken.told hs'
      exact htold.settled hs'

/-- After a call, too, each commit is in the repository of its branch. -/
theorem Ingestion.settled (i : Ingestion) (h : Ready owner i.token n s)
    (hn : n + (i.edit s).issued < 2 ^ 64) (hsettled : ∀ c ∈ s.commits, s.Settled c) :
    ∀ c ∈ (i.edit s).store.commits, (i.edit s).store.Settled c := by
  have hsteps := (i.runs h hn).1
  obtain ⟨-, g⟩ := hsteps.sound_and_grows h.sound hn
  intro c hc
  by_cases spared : i.topic.Spares i.token c
  · rcases hsteps.commit_origin h.sound hn hc spared with ⟨hc₀, -⟩ | ⟨-, hblank, -⟩
    · exact (hsettled c hc₀).of_grows g
    · intro id hid
      rw [hblank] at hid
      cases hid
  cases i with
  | commit f =>
    obtain ⟨hstore, hissued⟩ := Ingestion.effect_commit s f
    rw [hstore] at hc ⊢
    rw [hissued] at hn
    have hkey : (c.token, c.hash) = (f.landscapeToken, f.commitHash) := by
      by_contra hne
      refine spared fun hash parent he => ?_
      cases he
      exact hne
    exact f.settled_ingestCommit h hn hsettled hc (congrArg Prod.fst hkey) (congrArg Prod.snd hkey)
  | repository f => exact absurd (fun _ _ he => nomatch he) spared
  | file f => exact absurd (fun _ _ he => nomatch he) spared
  | span f => exact absurd (fun _ _ he => nomatch he) spared

namespace Store

/-! ## All calls -/

/-- Every look-up by key finds the one node with that key. -/
structure Unambiguous (s : Store) : Prop where
  repository : ∀ token name r, s.findRepository token name = some r ↔
    r ∈ s.repositories ∧ r.token = token ∧ r.name = name
  branch : ∀ repository name b, s.findBranch repository name = some b ↔
    b ∈ s.branches ∧ b.repository = repository ∧ b.name = name
  commit : ∀ token hash c, s.findCommit token hash = some c ↔
    c ∈ s.commits ∧ c.token = token ∧ c.hash = hash
  tag : ∀ name x, s.findTag name = some x ↔ x ∈ s.tags ∧ x.name = name
  application : ∀ token name a, s.findApplication token name = some a ↔
    a ∈ s.applications ∧ a.token = token ∧ a.name = name
  trace : ∀ token traceId x, s.findTrace token traceId = some x ↔
    x ∈ s.traces ∧ x.token = token ∧ x.traceId = traceId
  span : ∀ token spanId p, s.findSpan token spanId = some p ↔
    p ∈ s.spans ∧ p.token = token ∧ p.spanId = spanId

theorem Keyed.unambiguous (h : s.Keyed) : s.Unambiguous where
  repository _ _ _ := h.findRepository_eq_some_iff
  branch _ _ _ := h.branches.find?_eq_some_iff
  commit _ _ _ := h.findCommit_eq_some_iff
  tag name x := by
    refine ⟨fun hx => ?_, fun ⟨hx, hname⟩ => h.findTag_eq_some hx hname⟩
    exact ⟨List.mem_of_find?_eq_some hx, by simpa using List.find?_some hx⟩
  application _ _ _ := h.applications.find?_eq_some_iff
  trace _ _ _ := h.findTrace_eq_some_iff
  span _ _ _ := h.findSpan_eq_some_iff

/-- Ids and keys are those of one node each, after `issued` ids have been handed out. -/
structure KeysUnique (issued : Nat) (s : Store) : Prop where
  /-- No two nodes of a kind have the same key. -/
  keyed : s.Keyed
  lookups : s.Unambiguous
  /-- No two nodes have the same id, whichever tables they are in. -/
  ids : s.nodeIds.Nodup
  /-- All ids are below the count of the next id. -/
  below : ∀ id ∈ s.nodeIds, id.val.toNat < issued + 1
  /-- The counter has 64 bits, so it starts again when the last id has been handed out. -/
  counter : s.nextId = UInt64.ofNat (issued + 1)
  belowCounter : issued + 1 < 2 ^ 64 → ∀ id ∈ s.nodeIds, id.val < s.nextId
  /-- Branches and repositories know each other. -/
  branches : ∀ b ∈ s.branches, (∃ r ∈ s.repositories, b.repository = r.id) ∧
    ∀ r ∈ s.repositories, b.repository = r.id ↔ b.id ∈ r.branches
  listed : ∀ r ∈ s.repositories, ∀ id ∈ r.branches, ∃ b ∈ s.branches, b.id = id
  /-- The branch of a commit is one of a repository that contains the commit. -/
  commits : ∀ c ∈ s.commits, s.Settled c

/-- A branch names the repository that contains it. -/
theorem Sound.branch_iff (hs : s.Sound owner n) {b : Branch} (hb : b ∈ s.branches)
    {r : Repository} (hr : r ∈ s.repositories) : b.repository = r.id ↔ b.id ∈ r.branches := by
  constructor
  · intro he
    obtain ⟨r', hr', hmem⟩ := (hs.fitting.branches b hb).repository
    rw [he, Sorted.get?_key hr] at hr'
    cases hr'
    exact hmem
  · intro hmem
    obtain ⟨b', hb', hrepository⟩ := (hs.fitting.repositories r hr).branches b.id hmem
    rw [Sorted.get?_key hb] at hb'
    cases hb'
    exact hrepository

/-- Wherever ingestion has led to, no id and no key is used twice, branches and repositories know
each other, and commits are in the repositories of their branches. -/
theorem keys_unique (calls : List Ingestion) (hids : (∅ : Store).idsIssued calls < 2 ^ 64) :
    ((∅ : Store).after calls).KeysUnique ((∅ : Store).idsIssued calls) := by
  obtain ⟨owner, hs⟩ := sound_after_empty calls hids
  obtain ⟨⟨table, htable⟩, hsettled⟩ : (∃ table, ((∅ : Store).after calls).Tabled table) ∧
      ∀ c ∈ ((∅ : Store).after calls).commits, ((∅ : Store).after calls).Settled c := by
    refine call_induction (P := fun _ s => (∃ table, s.Tabled table) ∧ ∀ c ∈ s.commits, s.Settled c)
      ?_ ?_ calls hids
    · exact ⟨⟨_, tabled_empty fun _ => .spans⟩, fun c hc => absurd hc (Sorted.not_mem_empty c)⟩
    · rintro owner n calls i hready hn ⟨⟨table, ht⟩, hsettled⟩
      exact ⟨(i.runs hready hn).1.tabled hready.sound hn ht, i.settled hready hn hsettled⟩
  exact {
    keyed := hs.keyed
    lookups := hs.keyed.unambiguous
    ids := htable.nodup
    below := fun id hid => Nat.lt_succ_of_le (hs.numbered.toWithin.of_nodeIds hid)
    counter := hs.numbered.next
    belowCounter := fun hleft id hid =>
      hs.numbered.lt_next hleft (hs.numbered.toWithin.of_nodeIds hid)
    branches := fun b hb => by
      obtain ⟨r, hr, -⟩ := (hs.fitting.branches b hb).repository
      exact ⟨⟨r, Sorted.mem_of_get? hr, (Sorted.key_of_get? hr).symm⟩,
        fun r hr => hs.branch_iff hb hr⟩
    listed := fun r hr id hid => by
      obtain ⟨b, hb, -⟩ := (hs.fitting.repositories r hr).branches id hid
      exact ⟨b, Sorted.mem_of_get? hb, Sorted.key_of_get? hb⟩
    commits := hsettled }

/-- Among the calls is one that fails after it has put a commit on its branch. -/
theorem keys_unique_sample :
    (∅ : Store).idsIssued (Ingestion.sample ++ [Ingestion.samplePathless]) < 2 ^ 64 ∧
      Ingestion.samplePathless.succeeds ((∅ : Store).after Ingestion.sample) = false ∧
      (((∅ : Store).after (Ingestion.sample ++ [Ingestion.samplePathless])).findCommit "t" "c3").any
        (fun c => c.branch.isSome) = true ∧
      ((∅ : Store).after (Ingestion.sample ++ [Ingestion.samplePathless])).KeysUnique
        ((∅ : Store).idsIssued (Ingestion.sample ++ [Ingestion.samplePathless])) :=
  ⟨by decide +kernel, by decide +kernel, by decide +kernel,
    keys_unique (Ingestion.sample ++ [Ingestion.samplePathless]) (by decide +kernel)⟩

end Store

end Cityscape
