import Cityscape.Proofs.Growth
import Cityscape.Proofs.Revisions

/-!
# `Commits`: what taking in a commit comes to

Each function on the way adds its part of the fact to the account of the commit: the branch and
the dates, the repository, the parent, the tags, and the files. A file that is found again or
added has the content hash and the path that the fact gives. So a call that succeeds turns the
account of the commit into the account with one more fact.
-/

namespace Cityscape

namespace Store

variable {s : Store}

/-- The account of a commit that changes, in terms of the store before. -/
theorem accountAt_insert {c c' : Commit} (hc : c ∈ s.commits) (kept : c.Kept c') :
    accountAt { s with commits := s.commits.insert c' } c.id = some (s.accountOf c') := by
  have hparents : (s.commits.insert c').namesIn Commit.hash c'.parents
      = s.commits.namesIn Commit.hash c'.parents := by
    ext h
    rw [Sorted.mem_namesIn, Sorted.mem_namesIn]
    -- the commit that changes has the same hash before and after
    have hget : ∀ i, ((s.commits.insert c').get? i).map Commit.hash
        = (s.commits.get? i).map Commit.hash := by
      intro i
      rw [Sorted.get?_insert]
      by_cases hi : i = c'.id
      · rw [if_pos hi, hi, kept.id, Sorted.get?_key hc, Option.map_some, Option.map_some,
          kept.hash]
      · rw [if_neg hi]
    have hiff : ∀ i, (∃ x, (s.commits.insert c').get? i = some x ∧ x.hash = h)
        ↔ ∃ x, s.commits.get? i = some x ∧ x.hash = h := by
      intro i
      simpa [Option.map_eq_some_iff] using congrArg (· = some h) (hget i)
    simp only [hiff]
  have hself : (s.commits.insert c').get? c.id = some c' := by
    rw [← kept.id, Sorted.get?_insert_self]
  unfold accountAt
  rw [hself, Option.map_some]
  unfold accountOf
  rw [hparents]
  rfl

/-- The id is that of the commit of a landscape with the given hash. -/
def HasCommit (s : Store) (id : NodeId) (token hash : String) : Prop :=
  ∃ c ∈ s.commits, c.id = id ∧ c.token = token ∧ c.hash = hash

theorem HasCommit.of_grows {s' : Store} {id : NodeId} {token hash : String}
    (h : s.HasCommit id token hash) (g : s.Grows s') : s'.HasCommit id token hash := by
  obtain ⟨c, hc, rfl, rfl, rfl⟩ := h
  obtain ⟨c', hc', hk⟩ := g.commits.mem hc
  exact ⟨c', hc', hk.id, hk.token, hk.hash⟩

/-- A repository that has been read earlier is still there. -/
def HasRepository (s : Store) (r : Repository) : Prop := ∃ r' ∈ s.repositories, r.Kept r'

theorem HasRepository.of_grows {s' : Store} {r : Repository} (h : s.HasRepository r)
    (g : s.Grows s') : s'.HasRepository r := by
  obtain ⟨r', hr', hk⟩ := h
  obtain ⟨r'', hr'', hk'⟩ := g.repositories.mem hr'
  exact ⟨r'', hr'', hk.trans hk'⟩

/-- A repository that has been read earlier contains the commit with the given id. -/
def HasMember (s : Store) (r : Repository) (id : NodeId) : Prop :=
  ∃ r' ∈ s.repositories, r.Kept r' ∧ id ∈ r'.commits

theorem HasMember.hasRepository {r : Repository} {id : NodeId} (h : s.HasMember r id) :
    s.HasRepository r := by
  obtain ⟨r', hr', hk, -⟩ := h
  exact ⟨r', hr', hk⟩

theorem HasMember.of_grows {s' : Store} {r : Repository} {id : NodeId} (h : s.HasMember r id)
    (g : s.Grows s') : s'.HasMember r id := by
  obtain ⟨r', hr', hk, hid⟩ := h
  obtain ⟨r'', hr'', hk'⟩ := g.repositories.mem hr'
  exact ⟨r'', hr'', hk.trans hk', hk'.commits id hid⟩

theorem findRepository_spec {token name : String} {r : Repository}
    (h : s.findRepository token name = some r) :
    r ∈ s.repositories ∧ r.token = token ∧ r.name = name :=
  Sorted.mem_of_find?_pair h

theorem branchKey_eq {b : Branch} {r : Repository} (hb : b ∈ s.branches)
    (hr : r ∈ s.repositories) (he : r.id = b.repository) :
    s.branchKey (some b.id) = some { token := r.token, repository := r.name, name := b.name } := by
  simp [branchKey, Sorted.get?_key hb, ← he, Sorted.get?_key hr]

end Store

namespace Edit

variable {owner : NodeId → String} {t : String} {k : Topic} {n : Nat} {s : Store}

/-! ## The repository and its branch -/

theorem announcedRepository_of_some {fullName token : String} {r : Repository}
    (h : s.findRepository token (displayName fullName) = some r) :
    announcedRepository fullName token s = { result := .ok r, store := s } := by
  unfold announcedRepository
  rw [store_bind, h]
  rfl

theorem announcedRepository_of_none {fullName token : String}
    (h : s.findRepository token (displayName fullName) = none) :
    announcedRepository fullName token s
      = { result := .error (.unregistered (displayName fullName) token), store := s } := by
  unfold announcedRepository
  rw [store_bind, h]
  rfl

theorem runs_announcedRepository {fullName : String} :
    Runs owner t k (announcedRepository fullName t) n s
      (fun r s' => s' = s ∧ s.findRepository t (displayName fullName) = some r)
      fun x => s.findRepository t (displayName fullName) = none ∧
        x = .unregistered (displayName fullName) t := by
  unfold announcedRepository
  exact Runs.store_bind (Runs.need (fun r hr => ⟨rfl, hr⟩) fun hnone => ⟨hnone, rfl⟩)

theorem runs_branchIn (h : Ready owner t n s)
    (topic : k = .repository ∨ ∃ hash parent, k = .commit hash parent) {r : Repository}
    (hr : r ∈ s.repositories) (htoken : r.token = t) {name : String} :
    Runs owner t k (branchIn r.id name) n s
      (fun b s' => b ∈ s'.branches ∧ b.repository = r.id ∧ b.name = name ∧ owner b.id = t ∧
        s.SameCommits s' ∧ s'.applications = s.applications ∧ s'.directories = s.directories)
      fun _ => False := by
  unfold branchIn
  refine Runs.store_bind ?_
  cases hfind : s.findBranch r.id name with
  | some b =>
    obtain ⟨hb, hrep, hname⟩ := Sorted.mem_of_find?_pair hfind
    have hown := (h.sound.fitting.branches b hb).own
    rw [hrep, (h.sound.fitting.repositories r hr).own, htoken] at hown
    exact Runs.pure ⟨hb, hrep, hname, hown, .rfl, rfl, rfl⟩
  | none =>
    refine Runs.of_allocate fun hn => ?_
    have fresh : ∀ b ∈ s.branches, (b.repository, b.name) ≠ (r.id, name) :=
      Sorted.find?_pair_eq_none_iff.1 hfind
    -- saving the branch and putting it into the repository make one step
    let b : Branch := { id := ⟨s.nextId⟩, name, repository := r.id }
    let s₁ : Store := { s with nextId := s.nextId + 1, branches := s.branches.insert b }
    have hmerge : Store.mergeBranch { s with nextId := s.nextId + 1 } b = (b, s₁) :=
      Store.mergeBranch_of_none hfind
    obtain ⟨isNew, hedge⟩ := mergeEdge_repositoryBranch (s := s₁) (x := b)
      (Sorted.get?_key hr) (Sorted.get?_insert_self _ b)
    have heq : (do
        let id ← allocate
        let b ← step fun s => s.mergeBranch { id, name, repository := r.id }
        let _ ← mergeEdge .repositoryBranch r.id b.id
        return b : Edit Branch) s
        = { result := .ok b, store := s.withBranch r name, issued := 1 } := by
      rw [bind_of_ok (allocate_apply s)]
      simp only
      rw [bind_of_ok (step_apply _ _), hmerge, bind_of_ok hedge]
      rfl
    refine Runs.of_step h heq
      (fun hn => .newBranch topic hr htoken fresh (h.own_next hn)) fun h' g => ?_
    refine ⟨Sorted.mem_insert_self _ _, rfl, rfl, h.own_next hn, fun id => ⟨rfl, ?_⟩, rfl, rfl⟩
    intro r' hr' hid
    rcases Sorted.mem_insert.1 hr' with rfl | ⟨hr', -⟩
    · exact ⟨r, hr, rfl, hid⟩
    · exact ⟨r', hr', rfl, hid⟩

/-! ## The commit, its branch and its repository -/

/-- The commit with a hash that the fact names is there afterwards, and what was known of it is
known. -/
theorem runs_commitNamed (h : Ready owner t n s) {hash hash' : String} {parent : Option String}
    (named : hash' = hash ∨ parent = some hash') :
    Runs owner t (.commit hash parent) (commitNamed hash' t) n s
      (fun c s' => c ∈ s'.commits ∧ c.token = t ∧ c.hash = hash' ∧
        s'.accountAt c.id = some ((s.account t hash').getD {}) ∧
        ∀ x ∈ s.commits, s.SameCommit x.id s')
      fun _ => False := by
  unfold commitNamed
  refine Runs.store_bind ?_
  cases hfind : s.findCommit t hash' with
  | some c =>
    obtain ⟨hc, rfl, rfl⟩ := h.sound.keyed.findCommit_eq_some_iff.1 hfind
    refine Runs.pure ⟨hc, rfl, rfl, ?_, fun _ _ => .rfl⟩
    rw [h.sound.keyed.account_eq hc]
    unfold Store.accountAt
    rw [Sorted.get?_key hc]
    rfl
  | none =>
    refine Runs.of_allocate fun hn => ?_
    let c : Commit := { id := ⟨s.nextId⟩, token := t, hash := hash' }
    have hmerge : Store.mergeCommit { s with nextId := s.nextId + 1 } c
        = (c, s.withCommit t hash') := Store.mergeCommit_of_none hfind
    have heq : (do
        let id ← allocate
        step fun s => s.mergeCommit { id, token := t, hash := hash' } : Edit Commit) s
        = { result := .ok c, store := s.withCommit t hash', issued := 1 } := by
      rw [bind_of_ok (allocate_apply s)]
      simp only
      rw [step_apply, hmerge]
      rfl
    have hstep : Step owner t (.commit hash parent) 1 s (s.withCommit t hash') :=
      .newCommit named (Store.findCommit_eq_none_iff.1 hfind) (h.own_next hn)
    refine Runs.of_step h heq (fun _ => hstep) fun h' g => ?_
    have hmem : c ∈ (s.withCommit t hash').commits := Sorted.mem_insert_self _ _
    -- no repository contains a commit whose id has just been handed out
    refine ⟨hmem, rfl, rfl, ?_, fun x hx => ?_⟩
    · have hfree : (s.withCommit t hash').holders c.id = ∅ := by
        rw [Finset.eq_empty_iff_forall_notMem]
        intro key hkey
        obtain ⟨r, hr, hid, -⟩ := Store.mem_holders.1 hkey
        obtain ⟨x, hx, -⟩ := (h.sound.fitting.repositories r hr).commits c.id hid
        rw [h.sound.numbered.get?_next hn h.sound.numbered.commits] at hx
        cases hx
      unfold Store.accountAt Store.account
      rw [Sorted.get?_key hmem, hfind, Option.map_some]
      unfold Store.accountOf
      rw [hfree]
      rfl
    · have hne : x.id ≠ ⟨s.nextId⟩ :=
        h.sound.numbered.ne_next hn (h.sound.numbered.commits x hx)
      refine ⟨?_, fun r hr hid => ⟨r, hr, rfl, hid⟩⟩
      show (s.commits.insert c).get? x.id = s.commits.get? x.id
      rw [Sorted.get?_insert, if_neg hne]

/-- An edit that changes the commit of the call changes its account accordingly. -/
theorem runs_of_commit {α : Type} {e : Edit α} {a : α} {parent : Option String} {c c' : Commit}
    {E : Fault → Prop} (change : CommitAccount → CommitAccount) (h : Ready owner t n s)
    (hc : c ∈ s.commits) (htoken : c.token = t)
    (he : e s = { result := .ok a, store := { s with commits := s.commits.insert c' } })
    (kept : c.Kept c') (fits : c'.Fits owner s) (hfiles : c'.fileRevisions = c.fileRevisions)
    (hchange : s.accountOf c' = change (s.accountOf c)) :
    Runs owner t (.commit c.hash parent) e n s
      (fun b s' => b = a ∧ s'.accountAt c.id = (s.accountAt c.id).map change) E := by
  refine Runs.of_step h he (fun _ => .commit hc htoken kept fits (.inl hfiles)) fun _ _ => ⟨rfl, ?_⟩
  rw [Store.accountAt_insert hc kept, hchange]
  unfold Store.accountAt
  rw [Sorted.get?_key hc]
  rfl

theorem runs_assignBranch (h : Ready owner t n s) {parent : Option String} {c : Commit}
    (hc : c ∈ s.commits) (htoken : c.token = t) {b : Branch} (hb : b ∈ s.branches)
    (hown : owner b.id = t) {author : Option String} {authorDate commitDate : Option Instant} :
    Runs owner t (.commit c.hash parent) (assignBranch c b.id author authorDate commitDate) n s
      (fun c' s' => c'.id = c.id ∧ s'.accountAt c.id = (s.accountAt c.id).map fun a =>
        { a with
          branch := s.branchKey (some b.id)
          author := author.or a.author
          authorDate := authorDate.or a.authorDate
          commitDate := commitDate.or a.commitDate })
      fun _ => False := by
  let c' : Commit := { c with
    branch := some b.id
    author := author.or c.author
    authorDate := authorDate.or c.authorDate
    commitDate := commitDate.or c.commitDate }
  have hsave : s.saveCommit c' = { s with commits := s.commits.insert c' } := by
    unfold Store.saveCommit
    rw [show s.commits.get? c'.id = some c from Sorted.get?_key hc]
    -- the commit has just been read, so its stored edges are its own
    simp only [c', SortedSet.union_eq_left fun _ h => h]
  have heq : assignBranch c b.id author authorDate commitDate s
      = { result := .ok c', store := { s with commits := s.commits.insert c' } } := by
    unfold assignBranch
    rw [bind_of_ok (change_apply _ _), hsave]
    rfl
  have fits := h.sound.fitting.commits c hc
  refine Runs.imp h (runs_of_commit (fun a => { a with
      branch := s.branchKey (some b.id)
      author := author.or a.author
      authorDate := authorDate.or a.authorDate
      commitDate := commitDate.or a.commitDate }) h hc htoken heq { Commit.Kept.rfl with }
    { fits with
      branch := fun x hx => by
        cases hx
        exact ⟨b, Sorted.get?_key hb, hown.trans htoken.symm⟩ } rfl rfl) ?_
  rintro d n' s' - - ⟨rfl, haccount⟩
  exact ⟨rfl, haccount⟩

/-- The repository comes to contain the commit. -/
theorem runs_contain (h : Ready owner t n s) {hash : String} {parent : Option String}
    {id : NodeId} (hcommit : s.HasCommit id t hash) {r : Repository} (hrepo : s.HasRepository r)
    (hrtoken : r.token = t) :
    Runs owner t (.commit hash parent) (mergeEdge .repositoryCommit r.id id) n s
      (fun _ s' => s'.HasMember r id ∧ s'.accountAt id = (s.accountAt id).map fun a =>
        { a with repositories := insert (t, r.name) a.repositories })
      fun _ => False := by
  obtain ⟨c, hc, rfl, htoken, rfl⟩ := hcommit
  obtain ⟨q, hr, hk⟩ := hrepo
  -- the repository may have been read earlier; the stored one has the same id and name
  rw [← hk.id, ← hk.name]
  replace hrtoken := hk.token.trans hrtoken
  obtain ⟨isNew, heq⟩ := mergeEdge_repositoryCommit (Sorted.get?_key hr) (Sorted.get?_key hc)
  refine Runs.of_step h heq (fun _ => .contain hr hrtoken hc htoken) fun h' g => ?_
  have hmember : q.Kept { q with commits := q.commits.insert c.id } :=
    { Repository.Kept.rfl with commits := fun _ hx => SortedSet.mem_insert.2 (.inr hx) }
  refine ⟨⟨_, Sorted.mem_insert_self _ _, hk.trans hmember, SortedSet.mem_insert.2 (.inl rfl)⟩, ?_⟩
  clear hmember hk r
  rename' q => r
  have hholders : Store.holders
      { s with repositories := s.repositories.insert { r with commits := r.commits.insert c.id } }
      c.id = insert (t, r.name) (s.holders c.id) := by
    ext key
    rw [Store.mem_holders, Finset.mem_insert, Store.mem_holders]
    constructor
    · rintro ⟨x, hx, hid, rfl⟩
      rcases Sorted.mem_insert.1 hx with rfl | ⟨hx, -⟩
      · exact .inl (Prod.ext hrtoken rfl)
      · exact .inr ⟨x, hx, hid, rfl⟩
    · rintro (rfl | ⟨x, hx, hid, rfl⟩)
      · exact ⟨_, Sorted.mem_insert_self _ _, SortedSet.mem_insert.2 (.inl rfl),
          Prod.ext hrtoken rfl⟩
      · obtain ⟨x', hx', hk⟩ := g.repositories _ _ (Sorted.get?_key hx)
        exact ⟨x', Sorted.mem_of_get? hx', hk.commits _ hid, Prod.ext hk.token hk.name⟩
  have hbranch := h.sound.branchKey_of_grows g hc
  unfold Store.accountAt
  rw [show Sorted.get? _ c.id = some c from Sorted.get?_key hc]
  simp only [Option.map_some]
  unfold Store.accountOf
  rw [hholders, hbranch]
  rfl

/-! ## Parent and tags -/

theorem runs_linkParent (h : Ready owner t n s) {hash : String} {id : NodeId}
    (hcommit : s.HasCommit id t hash) (f : CommitFact) :
    Runs owner t (.commit hash f.parentNamed) (linkParent id t f.parentCommitHash) n s
      (fun _ s' => s'.accountAt id = (s.accountAt id).map fun a =>
        { a with parents := a.parents ∪ f.parentNamed.toFinset })
      fun _ => False := by
  obtain ⟨c, hc, rfl, htoken, rfl⟩ := hcommit
  unfold linkParent
  rw [← f.parentNamed_eq]
  generalize f.parentNamed = parent
  cases parent with
  | none =>
    refine Runs.pure ?_
    simp
  | some name =>
    refine Runs.bind h (runs_commitNamed h (.inr rfl)) ?_
    rintro p n₁ s₁ h₁ g₁ ⟨hp, hptoken, hphash, -, hsame⟩
    -- the parent may be new, which leaves the commit of the call as it is
    have same := hsame c hc
    have hc₁ := same.mem hc
    obtain ⟨isNew, heq⟩ := mergeEdge_commitParent (Sorted.get?_key hc₁) (Sorted.get?_key hp)
    have fits := h₁.sound.fitting.commits c hc₁
    have hchange : s₁.accountOf { c with parents := c.parents.insert p.id }
        = { s₁.accountOf c with parents := (s₁.accountOf c).parents ∪ {p.hash} } := by
      unfold Store.accountOf
      rw [Sorted.namesIn_insert (Sorted.get?_key hp)]
    refine Runs.bind h₁ (runs_of_commit (fun a => { a with parents := a.parents ∪ {p.hash} }) h₁
      hc₁ htoken heq
      { Commit.Kept.rfl with parents := fun _ hx => SortedSet.mem_insert.2 (.inr hx) }
      { fits with
        parents := SortedSet.forall_mem_insert
          ⟨p, Sorted.get?_key hp, hptoken.trans htoken.symm⟩ fits.parents } rfl hchange) ?_
    rintro _ n₂ s₂ h₂ g₂ ⟨-, haccount⟩
    refine Runs.pure ?_
    rw [haccount, h.sound.accountAt_of_same h₁.sound g₁ same, hphash]
    rfl

theorem runs_tagNamed (h : Ready owner t n s) {hash : String} {parent : Option String}
    {name : String} :
    Runs owner t (.commit hash parent) (tagNamed name) n s
      (fun x s' => x ∈ s'.tags ∧ x.name = name ∧ s.SameCommits s') fun _ => False := by
  unfold tagNamed
  refine Runs.of_allocate fun hn => ?_
  cases hfind : s.findTag name with
  | some x =>
    have hkey := List.find?_some hfind
    have heq := allocate_step_apply (fun id s => s.mergeTag { id, name }) s
    rw [show Store.mergeTag _ _ = (x, _) from Store.mergeTag_of_some hfind] at heq
    refine Runs.of_step h heq (fun _ => .skip) fun _ _ => ?_
    exact ⟨List.mem_of_find?_eq_some hfind, by simpa using hkey, fun _ => .of_eq rfl rfl⟩
  | none =>
    have heq := allocate_step_apply (fun id s => s.mergeTag { id, name }) s
    rw [Store.mergeTag_of_none hfind] at heq
    refine Runs.of_step h heq (fun _ => .newTag fun x hx he => ?_) fun _ _ => ?_
    · have := List.find?_eq_none.1 hfind x hx
      simp [he] at this
    · exact ⟨Sorted.mem_insert_self _ _, rfl, fun _ => .of_eq rfl rfl⟩

theorem runs_tagCommit (h : Ready owner t n s) {hash : String} {parent : Option String}
    {id : NodeId} (hcommit : s.HasCommit id t hash) {name : String} :
    Runs owner t (.commit hash parent) (tagCommit id name) n s
      (fun _ s' => s'.accountAt id = (s.accountAt id).map fun a =>
        { a with tags := a.tags ∪ {name} })
      fun _ => False := by
  obtain ⟨c, hc, rfl, htoken, rfl⟩ := hcommit
  unfold tagCommit
  refine Runs.bind h (runs_tagNamed h) ?_
  rintro x n₁ s₁ h₁ g₁ ⟨hx, hname, hsame⟩
  have hc₁ := (hsame c.id).mem hc
  obtain ⟨isNew, heq⟩ := mergeEdge_commitTag (Sorted.get?_key hc₁) (Sorted.get?_key hx)
  have fits := h₁.sound.fitting.commits c hc₁
  have hchange : s₁.accountOf { c with tags := c.tags.insert x.id }
      = { s₁.accountOf c with tags := (s₁.accountOf c).tags ∪ {x.name} } := by
    unfold Store.accountOf
    rw [Sorted.namesIn_insert (Sorted.get?_key hx)]
  refine Runs.bind h₁ (runs_of_commit (fun a => { a with tags := a.tags ∪ {x.name} }) h₁ hc₁
    htoken heq
    { Commit.Kept.rfl with tags := fun _ hx => SortedSet.mem_insert.2 (.inr hx) }
    { fits with
      tags := SortedSet.forall_mem_insert ⟨x, Sorted.get?_key hx⟩ fits.tags } rfl hchange) ?_
  rintro _ n₂ s₂ h₂ g₂ ⟨-, haccount⟩
  refine Runs.pure ?_
  rw [haccount, h.sound.accountAt_of_same h₁.sound g₁ (hsame c.id), hname]

theorem runs_tagCommitAll {parent : Option String} {hash : String} {id : NodeId}
    {names : List String} :
    ∀ {n : Nat} {s : Store}, Ready owner t n s → s.HasCommit id t hash →
      Runs owner t (.commit hash parent) (tagCommitAll id names) n s
        (fun _ s' => s'.accountAt id = (s.accountAt id).map fun a =>
          { a with tags := a.tags ∪ names.toFinset })
        fun _ => False := by
  induction names with
  | nil =>
    intro n s h hcommit
    refine Runs.pure ?_
    simp
  | cons name rest ih =>
    intro n s h hcommit
    refine Runs.bind h (runs_tagCommit h hcommit) ?_
    intro _ n₁ s₁ h₁ g₁ haccount
    refine Runs.imp h₁ (ih h₁ (hcommit.of_grows g₁)) ?_
    intro _ n₂ s₂ _ _ haccount₂
    rw [haccount₂, haccount, Option.map_map]
    congr 1
    funext a
    simp

/-! ## Files -/

/-- A new file gets its content hash. -/
theorem runs_saveHash (h : Ready owner t n s) {commit : String} {parent : Option String}
    {f : FileRevision} (hf : f ∈ s.files) (hfown : owner f.id = t) (hnone : f.hash = none)
    {hash : String} :
    Runs owner t (.commit commit parent)
      (do
        change fun s => s.saveFile { f with hash := some hash }
        return { f with hash := some hash }) n s
      (fun f' s' => f' ∈ s'.files ∧ owner f'.id = t ∧
        s'.fileKey f' = (some hash, s.relativePath f) ∧
        s'.topAbove f'.parent = s.topAbove f.parent ∧ s.SameCommits s')
      fun _ => False := by
  let f' : FileRevision := { f with hash := some hash }
  have hsave : s.saveFile f' = { s with files := s.files.insert f' } := by
    unfold Store.saveFile
    rw [show s.files.get? f'.id = some f from Sorted.get?_key hf]
    -- the file has just been read, so saving it takes none of its links away
    have himports : f.importNames.union f.importNames = f.importNames :=
      SortedSet.union_eq_left fun _ h => h
    have hclasses : f.classes.union f.classes = f.classes := SortedSet.union_eq_left fun _ h => h
    have hfunctions : f.functions.union f.functions = f.functions :=
      SortedSet.union_eq_left fun _ h => h
    simp only [f', himports, hclasses, hfunctions, Option.or_self]
  have kept : f.Kept f' := { FileRevision.Kept.rfl with hash := by simp [hnone] }
  have heq : (do
      change fun s => s.saveFile f'
      return f' : Edit FileRevision) s
      = { result := .ok f', store := { s with files := s.files.insert f' } } := by
    rw [bind_of_ok (change_apply _ _), hsave]
    rfl
  have fits := h.sound.fitting.files f hf
  have htopic : Topic.commit commit parent ≠ .repository := by rintro ⟨⟩
  have hspan : Topic.commit commit parent ≠ .span := by rintro ⟨⟩
  refine Runs.of_step h heq (fun _ => .file htopic hf hfown kept { fits with } (fun _ => rfl)
    fun hk => absurd hk hspan) fun h' g => ?_
  have hpath := h.sound.relativePath_of_grows h'.sound g hf kept
  refine ⟨Sorted.mem_insert_self _ _, hfown, ?_, h.sound.fileTop_of_grows h'.sound g hf kept,
    fun _ => .of_eq rfl rfl⟩
  unfold Store.fileKey
  rw [hpath]

/-- The revision that is added hangs below the root of the repository, and has the content hash
and the path that were asked for. -/
theorem runs_addRevision (h : Ready owner t n s) {parent : Option String} {c : Commit}
    (hc : c ∈ s.commits) {r : Repository} (hrepo : s.HasRepository r)
    (hrtoken : r.token = t) {hash : String} {segments : List String} (hne : segments ≠ []) :
    Runs owner t (.commit c.hash parent) (addRevision r c.id hash segments) n s
      (fun f s' => f ∈ s'.files ∧ owner f.id = t ∧ s'.fileKey f = (some hash, segments) ∧
        s'.topAbove f.parent = some r.rootDirectory ∧ s.SameCommits s')
      fun _ => False := by
  obtain ⟨r', hr', hk⟩ := hrepo
  have fits := h.sound.fitting.repositories r' hr'
  obtain ⟨root, hroot, htop⟩ := fits.root
  have hrootmem := Sorted.mem_of_get? hroot
  have hrootown : owner root.id = t := by
    rw [Sorted.key_of_get? hroot, fits.rootOwn, hk.token, hrtoken]
  have hup := h.sound.trees.namesAbove_top hrootmem htop
  have hself : s.topAbove (some root.id) = some r'.rootDirectory := by
    rw [h.sound.trees.topAbove_top hrootmem htop, Sorted.key_of_get? hroot]
  obtain ⟨found, hfound, hspec⟩ :=
    Store.resolve_spec hroot hne (Store.allowedIn_commit (Sorted.get?_key hc))
  unfold addRevision
  refine Runs.store_bind ?_
  rw [← hk.rootDirectory, hfound]
  -- either way a file grows below a directory, and its path is the one that was asked for
  have hsave : ∀ f n₁ s₁, Ready owner t n₁ s₁ → s.Grows s₁ →
      (f ∈ s₁.files ∧ owner f.id = t ∧ f.hash = none ∧ s₁.relativePath f = segments ∧
        s₁.topAbove f.parent = some r'.rootDirectory ∧ s.AddsFile f s₁) →
      Runs owner t (.commit c.hash parent) (do
        change fun s => s.saveFile { f with hash := some hash }
        return { f with hash := some hash }) n₁ s₁
        (fun f s' => f ∈ s'.files ∧ owner f.id = t ∧ s'.fileKey f = (some hash, segments) ∧
          s'.topAbove f.parent = some r'.rootDirectory ∧ s.SameCommits s')
        fun _ => False := by
    rintro f n₁ s₁ h₁ - ⟨hf, hfown, hnone, hpath, hftop, hadds⟩
    refine Runs.imp h₁ (runs_saveHash h₁ hf hfown hnone) ?_
    rintro f' n₂ s₂ - - ⟨hf', hfown', hkey, hftop', hsame'⟩
    exact ⟨hf', hfown', hpath ▸ hkey, hftop'.trans hftop,
      hadds.beside.sameCommits.trans hsame'⟩
  cases hspec with
  | @directory before rest e path leads blocked =>
    -- the path breaks off: what is left of it grows below the directory
    have he := Store.mem_of_leads hrootmem leads
    have hown := (h.sound.owner_of_leads hrootmem leads).trans hrootown
    have hgrow := runs_growPath_of_blocked (k := .commit c.hash parent) h (.inr ⟨_, _, rfl⟩) he
      hown blocked
    rw [h.sound.trees.namesAbove_of_leads hrootmem leads, hup, List.nil_append, ← path,
      h.sound.trees.topAbove_of_leads hrootmem leads, hself] at hgrow
    exact Runs.bind h hgrow hsave
  | @file before name e f path leads mem =>
    -- a revision stands there already: the new one grows beside it
    have he := Store.mem_of_leads hrootmem leads
    have hown := (h.sound.owner_of_leads hrootmem leads).trans hrootown
    obtain ⟨-, hparent, -⟩ := h.sound.of_filesNamed he mem
    have hlast : segments.drop (segments.length - 1) = [name] := by
      rw [path, List.length_append, List.length_singleton, Nat.add_sub_cancel, List.drop_left]
    have hgrow := runs_growPath (k := .commit c.hash parent) (List.cons_ne_nil name [])
      (.inr ⟨_, _, rfl⟩) h he hown (fun x rest hx hrest =>
        absurd (List.cons_eq_cons.1 hx).2.symm hrest)
    rw [h.sound.trees.namesAbove_of_leads hrootmem leads, hup, List.nil_append, ← path,
      h.sound.trees.topAbove_of_leads hrootmem leads, hself] at hgrow
    simp only [hparent, Option.getD_some, hlast]
    exact Runs.bind h hgrow hsave

/-- A revision that is found has the content hash and the path that were asked for. -/
theorem findRevision_spec (h : Ready owner t n s) {r : Repository}
    (hrepo : s.HasRepository r) (hrtoken : r.token = t) {hash : String}
    {segments : List String} {f : FileRevision}
    (hf : s.findRevision r.id hash segments = some f) :
    f ∈ s.files ∧ owner f.id = t ∧ s.fileKey f = (some hash, segments) := by
  obtain ⟨r', hr', hk⟩ := hrepo
  unfold Store.findRevision at hf
  have hpath : s.relativePath f = segments := by simpa using List.find?_some hf
  have hmem := List.mem_of_find?_eq_some hf
  rw [← hk.id] at hmem
  obtain ⟨hmem, hhash, hown⟩ := h.sound.of_filesByHash hr' hmem
  refine ⟨hmem, hown.trans (hk.token.trans hrtoken), ?_⟩
  unfold Store.fileKey
  rw [hhash, hpath]

/-- A file that may come into a commit does so by one step. -/
theorem runs_putRevision (h : Ready owner t n s) {parent : Option String} {c : Commit}
    (hc : c ∈ s.commits) (htoken : c.token = t) {r : Repository} {f : FileRevision}
    (hmay : s.MayAttach r c f) (hown : owner f.id = t) {E : Fault → Prop} :
    Runs owner t (.commit c.hash parent) (mergeEdge .commitFile c.id f.id) n s
      (fun _ s' => s' = s.withRevision c f.id) E := by
  obtain ⟨isNew, heq⟩ := mergeEdge_commitFile (Sorted.get?_key hc) (Sorted.get?_key hmay.file)
  have fits := h.sound.fitting.commits c hc
  have hkept : c.Kept { c with fileRevisions := c.fileRevisions.insert f.id } :=
    { Commit.Kept.rfl with fileRevisions := fun _ hx => SortedSet.mem_insert.2 (.inr hx) }
  have hfits : Commit.Fits owner s { c with fileRevisions := c.fileRevisions.insert f.id } :=
    { fits with
      files := SortedSet.forall_mem_insert
        ⟨f, Sorted.get?_key hmay.file, hmay.hash, hown.trans htoken.symm⟩ fits.files }
  exact Runs.of_step h heq (fun _ => .commit hc htoken hkept hfits (.inr ⟨r, f, hmay, rfl⟩))
    fun _ _ => rfl

/-- A file comes into a commit by its revision, which is found or added before. -/
theorem runs_attachFile_put (h : Ready owner t n s) {parent : Option String} {c : Commit}
    (hc : c ∈ s.commits) (htoken : c.token = t) {r : Repository} (hmember : s.HasMember r c.id)
    (hrtoken : r.token = t) {file : FileIdentifier} :
    Runs owner t (.commit c.hash parent) (attachFile r c.id file) n s
      (fun _ s' => splitPath file.path ≠ [] ∧ ∃ f m s₁, Ready owner t m s₁ ∧ s.Grows s₁ ∧
        Store.FoundOrAdded owner t r file s s₁ f ∧ s' = s₁.withRevision c f.id)
      fun x => splitPath file.path = [] ∧ x = .emptyFilePath file.hash := by
  have hrepo := hmember.hasRepository
  unfold attachFile
  by_cases hempty : splitPath file.path = []
  · simp only [hempty, List.isEmpty_nil, if_true]
    exact Runs.fail ⟨trivial, rfl⟩
  have hne : (splitPath file.path).isEmpty = false := by simpa using hempty
  simp only [hne, Bool.false_eq_true, if_false]
  refine Runs.store_bind ?_
  have hput : ∀ f n₁ s₁, Ready owner t n₁ s₁ → s.Grows s₁ →
      Store.FoundOrAdded owner t r file s s₁ f →
      Runs owner t (.commit c.hash parent) (do
        let _ ← mergeEdge .commitFile c.id f.id) n₁ s₁
        (fun _ s' => splitPath file.path ≠ [] ∧ ∃ f m s₁, Ready owner t m s₁ ∧ s.Grows s₁ ∧
          Store.FoundOrAdded owner t r file s s₁ f ∧ s' = s₁.withRevision c f.id)
        fun x => splitPath file.path = [] ∧ x = .emptyFilePath file.hash := by
    intro f n₁ s₁ h₁ g₁ hf
    have hc₁ := (hf.same c.id).mem hc
    -- the repository that has been read is still there and contains the commit
    obtain ⟨r₀, hr₀, hk₀, hid₀⟩ := hmember
    obtain ⟨r₁, hr₁, hk₁⟩ := g₁.repositories.mem hr₀
    have hmay : s₁.MayAttach r₁ c f := (hf.of_kept hk₀).mayAttach h.sound h₁.sound g₁ hr₀ hr₁ hk₁
      (hk₁.commits _ hid₀)
    refine Runs.bind h₁ (runs_putRevision h₁ hc₁ htoken hmay hf.own) ?_
    rintro _ n₂ s₂ - - rfl
    exact Runs.pure ⟨hempty, f, n₁, s₁, h₁, g₁, hf, rfl⟩
  cases hfind : s.findRevision r.id file.hash (splitPath file.path) with
  | some f =>
    obtain ⟨hf, hown, hkey⟩ := findRevision_spec h hrepo hrtoken hfind
    exact Runs.bind h (P := fun f s₁ => Store.FoundOrAdded owner t r file s s₁ f)
      (Runs.pure ⟨hf, hown, hkey, .rfl, .inl hfind⟩) hput
  | none =>
    refine Runs.bind h (runs_addRevision h hc hrepo hrtoken hempty).never ?_
    rintro f n₁ s₁ h₁ g₁ ⟨hf, hown, hkey, htop, hsame⟩
    exact hput f n₁ s₁ h₁ g₁ ⟨hf, hown, hkey, hsame, .inr ⟨hfind, htop⟩⟩

theorem runs_attachFile (h : Ready owner t n s) {hash : String} {parent : Option String}
    {id : NodeId} (hcommit : s.HasCommit id t hash) {r : Repository} (hmember : s.HasMember r id)
    (hrtoken : r.token = t) {file : FileIdentifier} :
    Runs owner t (.commit hash parent) (attachFile r id file) n s
      (fun _ s' => splitPath file.path ≠ [] ∧
        s'.accountAt id = (s.accountAt id).map (fun a =>
          { a with files := a.files ∪ {(some file.hash, splitPath file.path)} }) ∧
        s.KeepsRevisions r.id s' ∧ s'.HoldsRevision r.id id file)
      fun x => splitPath file.path = [] ∧ x = .emptyFilePath file.hash := by
  obtain ⟨c, hc, rfl, htoken, rfl⟩ := hcommit
  refine Runs.imp h (runs_attachFile_put h hc htoken hmember hrtoken) ?_
  rintro _ n₂ s₂ h₂ g₂ ⟨hempty, f, n₁, s₁, h₁, g₁, hf, rfl⟩
  obtain ⟨r₀, hr₀, hk₀, hid₀⟩ := hmember
  obtain ⟨r₁, hr₁, hk₁⟩ := g₁.repositories.mem hr₀
  rw [← hk₀.id]
  refine ⟨hempty, ?_, h.sound.keepsRevisions_withRevision h₂.sound g₂ hc hr₀ hr₁ hk₁.id
    (hk₁.commits _ hid₀) (hf.of_kept hk₀)⟩
  have hc₁ := (hf.same c.id).mem hc
  have hchange : s₁.accountOf { c with fileRevisions := c.fileRevisions.insert f.id }
      = { s₁.accountOf c with
          files := (s₁.accountOf c).files ∪ {(some file.hash, splitPath file.path)} } := by
    unfold Store.accountOf
    rw [Sorted.namesIn_insert (Sorted.get?_key hf.mem), hf.key]
  have hkept : c.Kept { c with fileRevisions := c.fileRevisions.insert f.id } :=
    { Commit.Kept.rfl with fileRevisions := fun _ hx => SortedSet.mem_insert.2 (.inr hx) }
  unfold Store.withRevision
  rw [Store.accountAt_insert hc₁ hkept, hchange, ← h.sound.accountAt_of_same h₁.sound g₁
    (hf.same c.id)]
  unfold Store.accountAt
  rw [Sorted.get?_key hc₁]
  rfl

theorem runs_attachFiles {parent : Option String} {hash : String} {id : NodeId} {r : Repository}
    (hrtoken : r.token = t) {files : List FileIdentifier} :
    ∀ {n : Nat} {s : Store}, Ready owner t n s → s.HasCommit id t hash → s.HasMember r id →
      Runs owner t (.commit hash parent) (attachFiles r id files) n s
        (fun _ s' => (∀ file ∈ files, splitPath file.path ≠ []) ∧
          s'.accountAt id = (s.accountAt id).map (fun a => { a with files := a.files
            ∪ (files.map fun i => (some i.hash, splitPath i.path)).toFinset }) ∧
          s.KeepsRevisions r.id s' ∧ ∀ file ∈ files, s'.HoldsRevision r.id id file)
        fun x => ∃ file, files.find? (fun i => splitPath i.path = []) = some file ∧
          x = .emptyFilePath file.hash := by
  induction files with
  | nil =>
    intro n s h hcommit hmember
    refine Runs.pure ⟨nofun, ?_, .rfl, nofun⟩
    simp
  | cons file rest ih =>
    intro n s h hcommit hmember
    refine Runs.bind h (Runs.mono (runs_attachFile h hcommit hmember hrtoken) (fun _ _ hP => hP)
      fun x hx => ⟨file, List.find?_cons_of_pos (decide_eq_true hx.1), hx.2⟩) ?_
    rintro _ n₁ s₁ h₁ g₁ ⟨hfile, haccount, hkeeps, hholds⟩
    have hnext := ih h₁ (hcommit.of_grows g₁) (hmember.of_grows g₁)
    refine Runs.mono (Runs.imp h₁ hnext fun _ _ _ _ g hP => And.intro g hP) ?_ ?_
    · rintro _ s₂ ⟨g₂, hrest, haccount₂, hkeeps₂, hholds₂⟩
      refine ⟨List.forall_mem_cons.2 ⟨hfile, hrest⟩, ?_, hkeeps.trans hkeeps₂,
        List.forall_mem_cons.2 ⟨hholds.of_grows g₂ hkeeps₂, hholds₂⟩⟩
      rw [haccount₂, haccount, Option.map_map]
      congr 1
      funext a
      simp
    · rintro x ⟨y, hy, hx⟩
      exact ⟨y, (List.find?_cons_of_neg (by simpa using hfile)).trans hy, hx⟩

end Edit

/-! ## The whole fact -/

/-- The conditions under which a fact is taken in. -/
structure CommitFact.Acceptable (f : CommitFact) (s : Store) : Prop where
  hash : f.commitHash ≠ ""
  repository : ∃ r, s.findRepository f.landscapeToken (displayName f.repositoryName) = some r
  paths : ∀ file ∈ f.files, splitPath file.path ≠ []

/-- Why a commit fact is refused, if it is: it has no hash, its repository has not been announced,
or one of its files, of which the first one is named, has no path. -/
def CommitFact.refusal (f : CommitFact) (s : Store) : Option Fault :=
  if f.commitHash = "" then some .emptyCommitHash
  else
    match s.findRepository f.landscapeToken (displayName f.repositoryName) with
    | none => some (.unregistered (displayName f.repositoryName) f.landscapeToken)
    | some _ =>
      (f.files.find? fun file => splitPath file.path = []).map fun file => .emptyFilePath file.hash

/-- What is acceptable is not refused. -/
theorem CommitFact.Acceptable.refusal {f : CommitFact} {s : Store} (h : f.Acceptable s) :
    f.refusal s = none := by
  obtain ⟨r, hr⟩ := h.repository
  have hpaths : (f.files.find? fun file => splitPath file.path = []) = none := by
    simpa using h.paths
  unfold CommitFact.refusal
  rw [if_neg h.hash, hr, hpaths]
  rfl

/-- A fact has been taken in, and this is the commit that it is about. -/
structure CommitFact.TakenIn (f : CommitFact) (s s' : Store) (c : Commit) : Prop where
  acceptable : f.Acceptable s
  /-- The fact is added to the account of its commit. -/
  account : s'.account f.landscapeToken f.commitHash
    = some (((s.account f.landscapeToken f.commitHash).getD {}).withFact f)
  found : s'.findCommit f.landscapeToken f.commitHash = some c
  /-- The commit has the revisions that the files of the fact mean. -/
  files : ∀ r, s'.findRepository f.landscapeToken (displayName f.repositoryName) = some r →
    ∀ file ∈ f.files, s'.HoldsRevision r.id c.id file

namespace Edit

variable {owner : NodeId → String} {n : Nat} {s : Store} {f : CommitFact}

theorem runs_ingestCommit (h : Ready owner f.landscapeToken n s) :
    Runs owner f.landscapeToken (.commit f.commitHash f.parentNamed) (ingestCommit f) n s
      (fun c s' => f.TakenIn s s' c) fun x => f.refusal s = some x := by
  unfold ingestCommit
  by_cases hhash : f.commitHash = ""
  · rw [if_pos (String.isEmpty_iff.2 hhash)]
    exact Runs.fail (if_pos hhash)
  rw [if_neg (mt String.isEmpty_iff.1 hhash)]
  have hrefusal : f.refusal s = _ := if_neg hhash
  refine Runs.bind h (Runs.mono runs_announcedRepository (fun _ _ hP => hP) fun x hx => by
    rw [hrefusal, hx.1, hx.2]) ?_
  rintro r n₀ s₀ h₀ - ⟨he, hfind⟩
  obtain rfl := he.symm
  obtain ⟨hr, hrtoken, hrname⟩ := Store.findRepository_spec hfind
  have hrepo : s.HasRepository r := ⟨r, hr, .rfl⟩
  refine Runs.bind h₀ (runs_branchIn h₀ (.inr ⟨_, _, rfl⟩) hr hrtoken).never ?_
  rintro b n₁ s₁ h₁ g₁ ⟨hb, hbrep, hbname, hbown, hsame, -⟩
  -- the branch comes first and tells nothing of commits
  have hbefore := h₀.sound.account_of_same h₁.sound g₁ hsame f.landscapeToken f.commitHash
  refine Runs.bind h₁ (runs_commitNamed h₁ (.inl rfl)).never ?_
  rintro c n₂ s₂ h₂ g₂ ⟨hc, hctoken, hchash, haccount₂, -⟩
  rw [hbefore] at haccount₂
  obtain ⟨_, hb₂, rfl⟩ := g₂.branches.mem hb
  have hrepo₂ := (hrepo.of_grows g₁).of_grows g₂
  have hcommit₂ : s₂.HasCommit c.id f.landscapeToken f.commitHash := ⟨c, hc, rfl, hctoken, hchash⟩
  -- ids of the branch and of its repository still lead to the names of the fact
  have hbranch : s₂.branchKey (some b.id) = some f.branchKey := by
    obtain ⟨r₂, hr₂, hk⟩ := hrepo₂
    rw [Store.branchKey_eq hb₂ hr₂ (hk.id.trans hbrep.symm), hk.token, hrtoken, hk.name, hrname,
      hbname, ← f.branchKey_name]
    rfl
  refine Runs.bind h₂ (hchash ▸ runs_assignBranch h₂ hc hctoken hb₂ hbown).never ?_
  rintro c' n₃ s₃ h₃ g₃ ⟨hid, haccount₃⟩
  rw [haccount₂, hbranch] at haccount₃
  rw [hid]
  have hcommit₃ := hcommit₂.of_grows g₃
  have hrepo₃ := hrepo₂.of_grows g₃
  -- from here on each part of the fact adds to the account
  refine Runs.bind h₃ (runs_contain h₃ hcommit₃ hrepo₃ hrtoken).never ?_
  rintro _ n₄ s₄ h₄ g₄ ⟨hmember₄, haccount₄⟩
  have hcommit₄ := hcommit₃.of_grows g₄
  refine Runs.bind h₄ (runs_linkParent h₄ hcommit₄ f).never ?_
  intro _ n₅ s₅ h₅ g₅ haccount₅
  have hcommit₅ := hcommit₄.of_grows g₅
  refine Runs.bind h₅ (runs_tagCommitAll h₅ hcommit₅).never ?_
  intro _ n₆ s₆ h₆ g₆ haccount₆
  have hcommit₆ := hcommit₅.of_grows g₆
  have hmember₆ := (hmember₄.of_grows g₅).of_grows g₆
  refine Runs.bind h₆ (Runs.mono (runs_attachFiles hrtoken h₆ hcommit₆ hmember₆)
    (fun _ _ hP => hP) fun x hx => ?_) ?_
  · -- the repository is there, so the fault is that of the files
    obtain ⟨file, hfile, rfl⟩ := hx
    have hfile' : (f.files.find? fun file => splitPath file.path = []) = some file := hfile
    rw [hrefusal, hfind, hfile']
    rfl
  rintro _ n₇ s₇ h₇ g₇ ⟨hpaths, haccount₇, -, hholds⟩
  obtain ⟨c₇, hc₇, hid₇, htoken₇, hhash₇⟩ := hcommit₆.of_grows g₇
  have hget : (s₇.commits.get? c.id).getD c' = c₇ := by
    rw [← hid₇, Sorted.get?_key hc₇]
    rfl
  refine Runs.store_bind (Runs.pure ?_)
  rw [hget]
  refine ⟨⟨hhash, ⟨r, hfind⟩, hpaths⟩, ?_,
    h₇.sound.keyed.findCommit_eq_some_iff.2 ⟨hc₇, htoken₇, hhash₇⟩, ?_⟩
  · rw [← htoken₇, ← hhash₇, h₇.sound.keyed.account_eq hc₇, hid₇, haccount₇, haccount₆, haccount₅,
      haccount₄, haccount₃, hrname]
    rw [htoken₇, hhash₇]
    rfl
  · intro r₇ hr₇
    -- the repository that is found again is the one that the files have been put under
    obtain ⟨q, hq, hk, -⟩ := hmember₆.of_grows g₇
    have hfind₇ := h₇.sound.keyed.findRepository_eq_some_iff.2
      ⟨hq, hk.token.trans hrtoken, hk.name.trans hrname⟩
    obtain rfl := Option.some.inj (hr₇.symm.trans hfind₇)
    rw [hk.id, hid₇]
    exact hholds

end Edit

end Cityscape
