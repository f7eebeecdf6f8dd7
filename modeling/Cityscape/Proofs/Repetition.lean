import Cityscape.Proofs.Calls
import Cityscape.Proofs.Edges

/-!
# `Repetition`: telling a commit fact again changes nothing

When a commit fact has been taken in, everything that it says is in the store: the branch, the
author and the dates, the repository, the parent and the tags are read off the account of the
commit, and the revisions that its files mean are those that the commit has got, because revisions
that are found stay the ones found (`CommitFact.TakenIn.told`). A second run finds all of this, so
each of its parts leaves everything but the next id as it is (`CommitFact.Told.idle`).
-/

namespace Cityscape

/-! ## Edits that change nothing -/

/-- Wherever the count of ids is, the edit yields the value and changes nothing but the count. -/
def Edit.Idle {α : Type} (e : Edit α) (s : Store) (a : α) : Prop :=
  ∀ id, ∃ next issued, e { s with nextId := id }
    = { result := .ok a, store := { s with nextId := next }, issued }

namespace Edit.Idle

variable {α β : Type} {e : Edit α} {f : α → Edit β} {s : Store} {a : α} {b : β}

theorem pure : Idle (pure a : Edit α) s a := fun id => ⟨id, 0, rfl⟩

theorem bind (he : Idle e s a) (hf : Idle (f a) s b) : Idle (e >>= f) s b := by
  intro id
  obtain ⟨next, issued, heq⟩ := he id
  obtain ⟨next', issued', heq'⟩ := hf next
  refine ⟨next', issued + issued', ?_⟩
  rw [bind_of_ok heq, heq']

theorem store_bind {f : Store → Edit β} (h : ∀ id, Idle (f { s with nextId := id }) s b) :
    Idle (store >>= f) s b := by
  intro id
  rw [Edit.store_bind]
  exact h id id

theorem of_eq (h : ∀ id, e { s with nextId := id }
    = { result := .ok a, store := { s with nextId := id } }) : Idle e s a :=
  fun id => ⟨id, 0, h id⟩

theorem change {f : Store → Store} (h : ∀ id, f { s with nextId := id } = { s with nextId := id }) :
    Idle (change f) s () :=
  of_eq fun id => by rw [change_apply, h]

theorem step {f : Store → α × Store}
    (h : ∀ id, f { s with nextId := id } = (a, { s with nextId := id })) : Idle (step f) s a :=
  of_eq fun id => by rw [step_apply, h]

/-- An id is handed out, and the edit goes on. -/
theorem allocate_bind {f : NodeId → Edit β} (h : ∀ x, Idle (f x) s b) :
    Idle (allocate >>= f) s b := by
  intro id
  obtain ⟨next, issued, heq⟩ := h ⟨id⟩ (id + 1)
  refine ⟨next, 1 + issued, ?_⟩
  rw [bind_of_ok (allocate_apply _)]
  simp only
  rw [heq]

/-- An edge that is there is found. -/
theorem mergeEdge {relation : Relation} {x y : NodeId} (h : s.HasEdge relation x y)
    (hy : s.Has relation.target y) (hc : ¬relation.Contains) :
    Idle (mergeEdge relation x y) s false := by
  refine of_eq fun id => ?_
  -- edges and nodes do not depend on the next id
  have h' : Store.HasEdge { s with nextId := id } relation x y := by cases relation <;> exact h
  have hy' : Store.Has { s with nextId := id } relation.target y := by cases relation <;> exact hy
  exact Store.mergeEdge_of_hasEdge h' hy' (fun h => absurd h hc) fun he => absurd (.inl he) hc

theorem announcedRepository {fullName token : String} {r : Repository}
    (h : s.findRepository token (displayName fullName) = some r) :
    Idle (announcedRepository fullName token) s r :=
  of_eq fun id => announcedRepository_of_some (s := { s with nextId := id }) h

theorem branchIn {repository : NodeId} {name : String} {b : Branch}
    (h : s.findBranch repository name = some b) : Idle (branchIn repository name) s b := by
  unfold Edit.branchIn
  refine store_bind fun id => ?_
  rw [show Store.findBranch { s with nextId := id } _ _ = some b from h]
  exact pure

theorem commitNamed {hash token : String} {c : Commit} (h : s.findCommit token hash = some c) :
    Idle (commitNamed hash token) s c := by
  unfold Edit.commitNamed
  refine store_bind fun id => ?_
  rw [show Store.findCommit { s with nextId := id } _ _ = some c from h]
  exact pure

/-- An id is handed out, and the tag is found. -/
theorem tagNamed {name : String} {x : Tag} (h : s.findTag name = some x) :
    Idle (tagNamed name) s x :=
  allocate_bind fun _ => step fun _ => Store.mergeTag_of_some h

end Edit.Idle

/-! ## What has been told -/

/-- Everything that a fact says is in the store. -/
structure CommitFact.Told (f : CommitFact) (s : Store) (r : Repository) (b : Branch)
    (c : Commit) : Prop where
  hash : f.commitHash ≠ ""
  repository : s.findRepository f.landscapeToken (displayName f.repositoryName) = some r
  branch : s.findBranch r.id (branchMeant f.branchName) = some b
  commit : s.findCommit f.landscapeToken f.commitHash = some c
  onBranch : c.branch = some b.id
  author : f.author.or c.author = c.author
  authorDate : f.authorDate.or c.authorDate = c.authorDate
  commitDate : f.commitDate.or c.commitDate = c.commitDate
  contained : c.id ∈ r.commits
  parent : ∀ x, f.parentNamed = some x →
    ∃ p, s.findCommit f.landscapeToken x = some p ∧ p.id ∈ c.parents
  tags : ∀ name ∈ f.tags, ∃ t, s.findTag name = some t ∧ t.id ∈ c.tags
  paths : ∀ file ∈ f.files, splitPath file.path ≠ []
  files : ∀ file ∈ f.files, ∃ g, s.findRevision r.id file.hash (splitPath file.path) = some g ∧
    g.id ∈ c.fileRevisions

variable {owner : NodeId → String} {n : Nat} {s s' : Store} {f : CommitFact} {r : Repository}
  {b : Branch} {c : Commit}

theorem Store.Keyed.findBranch_eq_some (h : s.Keyed) {name : String} (hb : b ∈ s.branches)
    (hr : b.repository = r.id) (hname : b.name = name) : s.findBranch r.id name = some b :=
  h.branches.find?_eq_some_iff.2 ⟨hb, hr, hname⟩

theorem Store.Keyed.findTag_eq_some (h : s.Keyed) {x : Tag} {name : String} (hx : x ∈ s.tags)
    (hname : x.name = name) : s.findTag name = some x := by
  subst hname
  exact Sorted.find?_of_unique hx (by simp) fun y hy hkey => h.tags y hy x hx (by simpa using hkey)

/-- A branch whose names are known is one of the repository with that name. -/
theorem Store.Keyed.branch_of_branchKey (h : s.Keyed) (hr : r ∈ s.repositories)
    {branch : Option NodeId} {key : BranchKey} (hkey : s.branchKey branch = some key)
    (htoken : r.token = key.token) (hname : r.name = key.repository) :
    ∃ b ∈ s.branches, branch = some b.id ∧ b.repository = r.id ∧ b.name = key.name := by
  obtain ⟨id, rfl, hkey⟩ := Option.bind_eq_some_iff.1 hkey
  obtain ⟨b, hb, hkey⟩ := Option.bind_eq_some_iff.1 hkey
  obtain ⟨q, hq, hkey⟩ := Option.bind_eq_some_iff.1 hkey
  cases hkey
  obtain rfl : r = q := h.repositories r hr q (Sorted.mem_of_get? hq) (Prod.ext htoken hname)
  exact ⟨b, Sorted.mem_of_get? hb, by rw [Sorted.key_of_get? hb], (Sorted.key_of_get? hq).symm, rfl⟩

/-- A fact that has been taken in has been told. -/
theorem CommitFact.TakenIn.told (h : f.TakenIn s s' c) (hs' : s'.Sound owner n) :
    ∃ r b, f.Told s' r b c := by
  obtain ⟨hc, htoken, hhash⟩ := Sorted.mem_of_find?_pair h.found
  -- the account of the commit has the fact in it
  obtain ⟨a, ha⟩ : ∃ a : CommitAccount, s'.accountOf c = a.withFact f := by
    have haccount := h.account
    unfold Store.account at haccount
    rw [h.found] at haccount
    exact ⟨_, Option.some.inj haccount⟩
  have hholder : f.repositoryKey ∈ s'.holders c.id := by
    have hrepositories : s'.holders c.id = _ := congrArg CommitAccount.repositories ha
    rw [hrepositories]
    exact Finset.mem_insert_self _ _
  obtain ⟨r, hr, hcontained, hkey⟩ := Store.mem_holders.1 hholder
  obtain ⟨hrtoken, hrname⟩ := Prod.mk.inj hkey
  have hbranch : s'.branchKey c.branch = some f.branchKey := congrArg CommitAccount.branch ha
  obtain ⟨b, hb, hon, hbr, hbname⟩ := hs'.keyed.branch_of_branchKey hr hbranch hrtoken hrname
  have hfind := hs'.keyed.findRepository_eq_some_iff.2 ⟨hr, hrtoken, hrname⟩
  -- a value that is set stays when it is set again
  have hset : ∀ {α : Type} {x y z : Option α}, z = x.or y → x.or z = z := by
    rintro α x y z rfl
    cases x <;> rfl
  refine ⟨r, b, {
    hash := h.acceptable.hash
    repository := hfind
    branch := hs'.keyed.findBranch_eq_some hb hbr (hbname.trans f.branchKey_name)
    commit := h.found
    onBranch := hon
    author := hset (congrArg CommitAccount.author ha)
    authorDate := hset (congrArg CommitAccount.authorDate ha)
    commitDate := hset (congrArg CommitAccount.commitDate ha)
    contained := hcontained
    parent := fun x hx => ?_
    tags := fun name hname => ?_
    paths := h.acceptable.paths
    files := fun file hfile => ?_ }⟩
  · have hmem : x ∈ s'.commits.namesIn Commit.hash c.parents := by
      have hparents : s'.commits.namesIn Commit.hash c.parents = _ :=
        congrArg CommitAccount.parents ha
      rw [hparents]
      exact Finset.mem_union_right _ (by simp [hx])
    obtain ⟨i, hi, p, hp, hphash⟩ := Sorted.mem_namesIn.1 hmem
    obtain ⟨q, hq, hqtoken⟩ := (hs'.fitting.commits c hc).parents i hi
    obtain rfl := Option.some.inj (hp.symm.trans hq)
    obtain rfl := Sorted.key_of_get? hp
    exact ⟨p, hs'.keyed.findCommit_eq_some_iff.2
      ⟨Sorted.mem_of_get? hp, hqtoken.trans htoken, hphash⟩, hi⟩
  · have hmem : name ∈ s'.tags.namesIn Tag.name c.tags := by
      have htags : s'.tags.namesIn Tag.name c.tags = _ := congrArg CommitAccount.tags ha
      rw [htags]
      exact Finset.mem_union_right _ (List.mem_toFinset.2 hname)
    obtain ⟨i, hi, x, hx, hxname⟩ := Sorted.mem_namesIn.1 hmem
    obtain rfl := Sorted.key_of_get? hx
    exact ⟨x, hs'.keyed.findTag_eq_some (Sorted.mem_of_get? hx) hxname, hi⟩
  · obtain ⟨g, c', hg, hc', hid, hmem⟩ := h.files r hfind file hfile
    obtain rfl : c' = c := Sorted.eq_of_key_eq hc' hc hid
    exact ⟨g, hg, hmem⟩

/-! ## The second run -/

namespace CommitFact.Told

open Edit

theorem mem (h : f.Told s r b c) : c ∈ s.commits := (Sorted.mem_of_find?_pair h.commit).1

theorem idle_assignBranch (h : f.Told s r b c) :
    Idle (assignBranch c b.id f.author f.authorDate f.commitDate) s c := by
  have hsame : { c with
      branch := some b.id
      author := f.author.or c.author
      authorDate := f.authorDate.or c.authorDate
      commitDate := f.commitDate.or c.commitDate } = c := by
    rw [h.author, h.authorDate, h.commitDate, ← h.onBranch]
  have hsave : ∀ id, Store.saveCommit { s with nextId := id } c = { s with nextId := id } := by
    intro id
    unfold Store.saveCommit
    simp only [Sorted.get?_key h.mem, SortedSet.union_eq_left fun _ h => h,
      Sorted.insert_eq_self h.mem]
  refine .of_eq fun id => ?_
  unfold assignBranch
  rw [hsame, bind_of_ok (change_apply _ _), hsave]
  rfl

theorem idle_linkParent (h : f.Told s r b c) :
    Idle (linkParent c.id f.landscapeToken f.parentCommitHash) s () := by
  unfold linkParent
  rw [← f.parentNamed_eq]
  cases hnamed : f.parentNamed with
  | none => exact .pure
  | some x =>
    obtain ⟨p, hp, hmem⟩ := h.parent x hnamed
    have hedge : s.HasEdge .commitParent c.id p.id := Sorted.mem_edgesAt h.mem hmem
    have hhas : s.Has .commit p.id := Sorted.isSome_get? (Sorted.mem_of_find?_pair hp).1
    exact .bind (.commitNamed hp) (.bind (.mergeEdge hedge hhas (by decide)) .pure)

theorem idle_tagCommitAll (h : f.Told s r b c) {names : List String} :
    (∀ x ∈ names, x ∈ f.tags) → Idle (tagCommitAll c.id names) s () := by
  induction names with
  | nil => exact fun _ => .pure
  | cons name rest ih =>
    intro hnames
    obtain ⟨hname, hrest⟩ := List.forall_mem_cons.1 hnames
    obtain ⟨x, hx, hmem⟩ := h.tags name hname
    have hedge : s.HasEdge .commitTag c.id x.id := Sorted.mem_edgesAt h.mem hmem
    have hhas : s.Has .tag x.id := Sorted.isSome_get? (List.mem_of_find?_eq_some hx)
    have htag : Idle (tagCommit c.id name) s x :=
      .bind (.tagNamed hx) (.bind (.mergeEdge hedge hhas (by decide)) .pure)
    exact .bind htag (ih hrest)

theorem idle_attachFiles (h : f.Told s r b c) {files : List FileIdentifier} :
    (∀ x ∈ files, x ∈ f.files) → Idle (attachFiles r c.id files) s () := by
  induction files with
  | nil => exact fun _ => .pure
  | cons file rest ih =>
    intro hfiles
    obtain ⟨hfile, hrest⟩ := List.forall_mem_cons.1 hfiles
    obtain ⟨g, hg, hmem⟩ := h.files file hfile
    have hedge : s.HasEdge .commitFile c.id g.id := Sorted.mem_edgesAt h.mem hmem
    have hhas : s.Has .fileRevision g.id :=
      Sorted.isSome_get? (Store.findRevision_eq_some_iff.1 hg).1.mem
    have hput : Idle (do let _ ← mergeEdge .commitFile c.id g.id) s () :=
      .bind (.mergeEdge hedge hhas (by decide)) .pure
    have hattach : Idle (attachFile r c.id file) s () := by
      unfold attachFile
      have hpath : (splitPath file.path).isEmpty = false := by simpa using h.paths file hfile
      simp only [hpath, Bool.false_eq_true, if_false]
      refine .store_bind fun id => ?_
      rw [show Store.findRevision { s with nextId := id } _ _ _ = some g from hg]
      exact .bind .pure hput
    exact .bind hattach (ih hrest)

/-- Taking in a fact that has been told yields its commit and changes nothing. -/
theorem idle (h : f.Told s r b c) : Idle (ingestCommit f) s c := by
  unfold ingestCommit
  rw [if_neg (mt String.isEmpty_iff.1 h.hash)]
  obtain ⟨hr, -, -⟩ := Store.findRepository_spec h.repository
  have hedge : s.HasEdge .repositoryCommit r.id c.id := Sorted.mem_edgesAt hr h.contained
  have hhas : s.Has .commit c.id := Sorted.isSome_get? h.mem
  refine .bind (.announcedRepository h.repository) (.bind (.branchIn h.branch) ?_)
  refine .bind (.commitNamed h.commit) (.bind h.idle_assignBranch ?_)
  refine .bind (.mergeEdge hedge hhas (by decide)) (.bind h.idle_linkParent ?_)
  refine .bind (h.idle_tagCommitAll fun _ hx => hx) (.bind (h.idle_attachFiles fun _ hx => hx) ?_)
  refine .store_bind fun id => ?_
  rw [show (s.commits.get? c.id).getD c = c by rw [Sorted.get?_key h.mem]; rfl]
  exact .pure

end CommitFact.Told

/-- One path under two hashes, one file twice, and the commit as its own parent. -/
def CommitFact.sampleTwisted : CommitFact :=
  { landscapeToken := "t", repositoryName := "shop", commitHash := "c1"
    parentCommitHash := some "c1", tags := ["v1", "v1"]
    addedFiles := [⟨"h1", "src/a.rs"⟩, ⟨"h2", "src/a.rs"⟩, ⟨"h1", "src/a.rs"⟩] }

namespace Store

/-- A commit fact that is taken in may be told again at once: the answer is the same, and nothing
but the next id changes. As everywhere, the ids must not have run out. -/
theorem commit_again (calls : List Ingestion) (f : CommitFact) (c : Commit)
    (hids : (∅ : Store).idsIssued (calls ++ [.commit f]) < 2 ^ 64)
    (hok : (Edit.ingestCommit f ((∅ : Store).after calls)).result = .ok c) :
    ∃ next issued, Edit.ingestCommit f (Edit.ingestCommit f ((∅ : Store).after calls)).store =
      { result := .ok c
        store := { (Edit.ingestCommit f ((∅ : Store).after calls)).store with nextId := next }
        issued } := by
  have hcount : (∅ : Store).idsIssued (calls ++ [.commit f]) = (∅ : Store).idsIssued calls
      + ((Ingestion.commit f).edit ((∅ : Store).after calls)).issued :=
    idsIssued_append ∅ calls [.commit f]
  have hedit : ((Ingestion.commit f).edit ((∅ : Store).after calls)).issued
      = (Edit.ingestCommit f ((∅ : Store).after calls)).issued :=
    congrArg Outcome.issued (Edit.bind_of_ok (congrArg (Outcome.mk · _ _) hok))
  rw [hcount] at hids
  obtain ⟨owner, hs⟩ := sound_after_empty calls (by omega)
  obtain ⟨owner', -, hready, -⟩ := hs.call (.commit f) hids
  rw [hedit] at hids
  obtain ⟨hsteps, hpost, -⟩ := Edit.runs_ingestCommit hready hids
  obtain ⟨hs', -⟩ := hsteps.sound_and_grows hready.sound hids
  obtain ⟨r, b, told⟩ := (hpost c hok).told hs'
  exact told.idle _

theorem commit_again_sample :
    ∃ c next issued, (∅ : Store).idsIssued (Ingestion.sample ++ [.commit .sampleTwisted]) < 2 ^ 64 ∧
      (Edit.ingestCommit .sampleTwisted ((∅ : Store).after Ingestion.sample)).result = .ok c ∧
      Edit.ingestCommit .sampleTwisted
          (Edit.ingestCommit .sampleTwisted ((∅ : Store).after Ingestion.sample)).store =
        { result := .ok c
          store := { (Edit.ingestCommit .sampleTwisted
            ((∅ : Store).after Ingestion.sample)).store with nextId := next }
          issued } := by
  have hids : (∅ : Store).idsIssued (Ingestion.sample ++ [.commit .sampleTwisted]) < 2 ^ 64 := by
    decide +kernel
  have hok : (Edit.ingestCommit .sampleTwisted
      ((∅ : Store).after Ingestion.sample)).result.isOk = true := by decide +kernel
  rcases hc : (Edit.ingestCommit .sampleTwisted ((∅ : Store).after Ingestion.sample)).result
    with x | c
  · rw [hc] at hok
    cases hok
  · obtain ⟨next, issued, heq⟩ := commit_again Ingestion.sample .sampleTwisted c hids hc
    exact ⟨c, next, issued, hids, rfl, heq⟩

end Store

end Cityscape
