import Cityscape.Proofs.History
import Cityscape.Proofs.Views

/-!
# `Delivery`: commits may be told in any order, and more than once

Commit facts that a store accepts are accepted whatever else is told of commits, and each of them
adds its part to the account of its commit. Adding a fact twice is adding it once, and facts about
different commits do not meddle with each other. So the accounts depend only on which facts are
told. The order of the parents of a commit does too: those that were there before keep their ids,
and one fact names one parent at most (`Store.delivery_order`).
-/

namespace Cityscape

/-! ## Acceptance -/

namespace Edit

variable {α β : Type} {s : Store}

theorem exists_ok_of_bind {e : Edit α} {f : α → Edit β} {b : β}
    (h : ((e >>= f) s).result = .ok b) :
    ∃ a, (e s).result = .ok a ∧ (f a (e s).store).result = .ok b := by
  rcases ho : e s with ⟨result, s', j⟩
  cases result with
  | error x =>
    rw [bind_of_error ho] at h
    cases h
  | ok a =>
    rw [bind_of_ok ho] at h
    exact ⟨a, rfl, h⟩

/-- Files are put into a commit only if none of their paths is empty. -/
theorem paths_of_attachFiles {r : Repository} {id : NodeId} {files : List FileIdentifier} :
    ∀ {s : Store} {u : Unit}, (attachFiles r id files s).result = .ok u →
      ∀ file ∈ files, splitPath file.path ≠ [] := by
  induction files with
  | nil =>
    intro s u _ file hfile
    exact absurd hfile List.not_mem_nil
  | cons first rest ih =>
    intro s u h file hfile
    obtain ⟨v, hfirst, hrest⟩ := exists_ok_of_bind h
    rcases List.mem_cons.1 hfile with rfl | hfile
    · intro hempty
      unfold attachFile at hfirst
      simp only [hempty, List.isEmpty_nil, if_true] at hfirst
      cases hfirst
    · exact ih hrest file hfile

end Edit

/-- What is taken in is acceptable. -/
theorem CommitFact.acceptable_of_succeeds {f : CommitFact} {s : Store}
    (h : (Ingestion.commit f).succeeds s = true) : f.Acceptable s := by
  unfold Ingestion.succeeds at h
  cases hresult : ((Ingestion.commit f).edit s).result with
  | error x =>
    rw [hresult] at h
    cases h
  | ok u =>
    obtain ⟨c, hc, -⟩ := Edit.exists_ok_of_bind hresult
    unfold Edit.ingestCommit at hc
    by_cases hhash : f.commitHash = ""
    · rw [if_pos (String.isEmpty_iff.2 hhash)] at hc
      cases hc
    rw [if_neg (mt String.isEmpty_iff.1 hhash)] at hc
    -- every part of the call has succeeded; the first and the last one tell something
    obtain ⟨r, hr, hc⟩ := Edit.exists_ok_of_bind hc
    obtain ⟨b, -, hc⟩ := Edit.exists_ok_of_bind hc
    obtain ⟨c₁, -, hc⟩ := Edit.exists_ok_of_bind hc
    obtain ⟨c₂, -, hc⟩ := Edit.exists_ok_of_bind hc
    obtain ⟨isNew, -, hc⟩ := Edit.exists_ok_of_bind hc
    obtain ⟨-, -, hc⟩ := Edit.exists_ok_of_bind hc
    obtain ⟨-, -, hc⟩ := Edit.exists_ok_of_bind hc
    obtain ⟨u, hfiles, -⟩ := Edit.exists_ok_of_bind hc
    refine ⟨hhash, ?_, Edit.paths_of_attachFiles hfiles⟩
    cases hfind : s.findRepository f.landscapeToken (displayName f.repositoryName) with
    | some r => exact ⟨r, rfl⟩
    | none =>
      unfold Edit.announcedRepository at hr
      rw [Edit.store_bind, hfind] at hr
      cases hr

/-- What is acceptable stays so. -/
theorem CommitFact.Acceptable.of_grows {f : CommitFact} {s s' : Store} (h : f.Acceptable s)
    (g : s.Grows s') (hs' : s'.Keyed) : f.Acceptable s' where
  hash := h.hash
  repository := by
    obtain ⟨r, hr⟩ := h.repository
    obtain ⟨hmem, htoken, hname⟩ := Store.findRepository_spec hr
    obtain ⟨r', hr', hk⟩ := g.repositories.mem hmem
    exact ⟨r', hs'.findRepository_eq_some_iff.2 ⟨hr', hk.token.trans htoken, hk.name.trans hname⟩⟩
  paths := h.paths

/-- Calls that tell commit facts. -/
def Ingestion.commits (facts : List CommitFact) : List Ingestion := facts.map Ingestion.commit

/-- A repository with an application in it. -/
def Ingestion.sampleRepository : Ingestion :=
  .repository
    { landscapeToken := "t", repositoryName := "org/shop", branchName := ""
      applicationPaths := Sorted.ofList [("web", "src")] }

/-- A commit on a branch of its own, and its parent. -/
def CommitFact.sample : List CommitFact :=
  [{ landscapeToken := "t", repositoryName := "shop", branchName := "dev", commitHash := "c2"
     parentCommitHash := some "c1", addedFiles := [⟨"h1", "src/a.rs"⟩] },
    { landscapeToken := "t", repositoryName := "shop", commitHash := "c1"
      addedFiles := [⟨"h0", "src/a.rs"⟩] }]

namespace Store

variable {owner : NodeId → String} {t : String} {n m j : Nat} {s s' s'' : Store}

/-- What is acceptable is taken in. -/
theorem succeeds_of_acceptable {f : CommitFact} (h : Ready owner f.landscapeToken n s)
    (hn : n + ((Ingestion.commit f).edit s).issued < 2 ^ 64) (hf : f.Acceptable s) :
    (Ingestion.commit f).succeeds s = true := by
  have hruns : Runs owner f.landscapeToken (.commit f.commitHash f.parentNamed)
      (Ingestion.commit f).edit n s (fun _ _ => True) (fun x => f.refusal s = some x) :=
    Runs.bind h ((Edit.runs_ingestCommit h).mono (fun _ _ _ => trivial) fun _ hx => hx)
      fun _ _ _ _ _ _ => Runs.pure trivial
  obtain ⟨-, -, hfault⟩ := hruns hn
  unfold Ingestion.succeeds
  cases hresult : ((Ingestion.commit f).edit s).result with
  | ok u => rfl
  | error x =>
    have hrefused := hfault x hresult
    rw [hf.refusal] at hrefused
    cases hrefused

/-- Facts that are acceptable at the beginning are taken in, one after another. -/
theorem Sound.commitsSucceed {facts : List CommitFact} :
    ∀ {owner : NodeId → String} {n : Nat} {s : Store}, s.Sound owner n →
      n + s.idsIssued (Ingestion.commits facts) < 2 ^ 64 → (∀ f ∈ facts, f.Acceptable s) →
      s.commitsSucceed (Ingestion.commits facts) = true := by
  induction facts with
  | nil =>
    intro owner n s _ _ _
    rfl
  | cons f rest ih =>
    intro owner n s hs hn hf
    have hn' : n + (((Ingestion.commit f).edit s).issued
        + ((Ingestion.commit f).edit s).store.idsIssued (Ingestion.commits rest)) < 2 ^ 64 := hn
    obtain ⟨owner', -, hready, hsteps⟩ := hs.call (.commit f) (by omega)
    obtain ⟨hs', g⟩ := hsteps.sound_and_grows hready.sound (by omega)
    have hfirst := succeeds_of_acceptable hready (by omega) (hf f List.mem_cons_self)
    have hrest := ih hs' (by omega) fun x hx =>
      (hf x (List.mem_cons_of_mem f hx)).of_grows g hs'.keyed
    show (((Ingestion.commit f).commitFact?.isNone || (Ingestion.commit f).succeeds s) &&
      Store.commitsSucceed _ (Ingestion.commits rest)) = true
    rw [hfirst, hrest, Bool.or_true, Bool.and_true]

/-! ## What commit facts leave alone -/

/-- No repository and no application comes in or moves, and commits that come in are younger than
all that were there. -/
structure OnlyCommits (n : Nat) (s s' : Store) : Prop where
  grows : s.Grows s'
  applications : s'.applications = s.applications
  repositories : ∀ r' ∈ s'.repositories, ∃ r ∈ s.repositories, r.Kept r'
  commits : ∀ c' ∈ s'.commits, (∃ c ∈ s.commits, c.Kept c') ∨ n < c'.id.val.toNat

namespace OnlyCommits

theorem rfl : s.OnlyCommits n s where
  grows := .rfl
  applications := .refl _
  repositories r hr := ⟨r, hr, .rfl⟩
  commits c hc := .inl ⟨c, hc, .rfl⟩

theorem trans (h : s.OnlyCommits n s') (h' : s'.OnlyCommits m s'') (hm : n ≤ m) :
    s.OnlyCommits n s'' where
  grows := h.grows.trans h'.grows
  applications := h'.applications.trans h.applications
  repositories r'' hr'' := by
    obtain ⟨r', hr', hk'⟩ := h'.repositories r'' hr''
    obtain ⟨r, hr, hk⟩ := h.repositories r' hr'
    exact ⟨r, hr, hk.trans hk'⟩
  commits c'' hc'' := by
    rcases h'.commits c'' hc'' with ⟨c', hc', hk'⟩ | hlt
    · rcases h.commits c' hc' with ⟨c, hc, hk⟩ | hlt
      · exact .inl ⟨c, hc, hk.trans hk'⟩
      · exact .inr (hk'.id ▸ hlt)
    · exact .inr (by omega)

/-- The repository with an id has the same token and name. -/
theorem repositoryKey_eq (h : s.OnlyCommits n s') (id : NodeId) :
    (s'.repositories.get? id).map (fun r => (r.token, r.name))
      = (s.repositories.get? id).map fun r => (r.token, r.name) := by
  cases hr : s.repositories.get? id with
  | some r =>
    obtain ⟨r', hr', hk⟩ := h.grows.repositories _ _ hr
    rw [hr', Option.map_some, Option.map_some, hk.token, hk.name]
  | none =>
    cases hr' : s'.repositories.get? id with
    | none => rfl
    | some r' =>
      obtain ⟨r, hmem, hk⟩ := h.repositories r' (Sorted.mem_of_get? hr')
      rw [← Sorted.key_of_get? hr', hk.id, Sorted.get?_key hmem] at hr
      cases hr

/-- A commit was there before, or it is younger than all that were and nothing was known of it. -/
theorem old_or_new (h : s.OnlyCommits n s') (hs : s.Keyed) (hs' : s'.Keyed)
    {c : Commit} (hc : c ∈ s'.commits) :
    (∃ w ∈ s.commits, w.Kept c) ∨ s.account c.token c.hash = none ∧ n < c.id.val.toNat := by
  cases haccount : s.account c.token c.hash with
  | none =>
    rcases h.commits c hc with hold | hlt
    · exact .inl hold
    · exact .inr ⟨.refl _, hlt⟩
  | some a =>
    obtain ⟨w, hfind, -⟩ := Option.map_eq_some_iff.1 haccount
    obtain ⟨hw, hwt, hwh⟩ := hs.findCommit_eq_some_iff.1 hfind
    obtain ⟨w', hw', hk⟩ := h.grows.commits.mem hw
    have heq : w' = c := hs'.eq_of_hash hw' hc (hk.token.trans hwt) (hk.hash.trans hwh)
    exact .inl ⟨w, hw, heq ▸ hk⟩

end OnlyCommits

end Store

open Store

variable {owner : NodeId → String} {t hash : String} {parent : Option String} {n j : Nat}
  {s s' : Store}

theorem Step.onlyCommits (h : Step owner t (.commit hash parent) j s s') (hs : s.Numbered n)
    (hn : n + j < 2 ^ 64) : s.OnlyCommits n s' := by
  have hcommits : ∀ c' ∈ s'.commits, (∃ c ∈ s.commits, c.Kept c') ∨ n < c'.id.val.toNat := by
    intro c' hc'
    rcases h.commit_origin hc' with hold | ⟨-, hblank, -, rfl⟩
    · exact .inl hold
    · rw [hblank]
      show _ ∨ n < s.nextId.toNat
      rw [hs.next_toNat hn]
      exact .inr (by omega)
  have same : ∀ {r : Repository}, r ∈ s.repositories → ∃ q ∈ s.repositories, q.Kept r :=
    fun hr => ⟨_, hr, .rfl⟩
  have g := h.grows hs hn
  cases h with
  | newBranch topic mem token fresh own =>
    refine ⟨g, rfl, fun r' hr' => ?_, hcommits⟩
    rcases Sorted.mem_insert.1 hr' with rfl | ⟨hr', -⟩
    · exact ⟨_, mem, { Repository.Kept.rfl with
        branches := fun _ hb => SortedSet.mem_insert.2 (.inr hb) }⟩
    · exact same hr'
  | contain mem token memCommit tokenCommit =>
    refine ⟨g, rfl, fun r' hr' => ?_, hcommits⟩
    rcases Sorted.mem_insert.1 hr' with rfl | ⟨hr', -⟩
    · exact ⟨_, mem, { Repository.Kept.rfl with
        commits := fun _ hc => SortedSet.mem_insert.2 (.inr hc) }⟩
    · exact same hr'
  | skip => exact ⟨g, rfl, fun _ => same, hcommits⟩
  | newCommit => exact ⟨g, rfl, fun _ => same, hcommits⟩
  | commit => exact ⟨g, rfl, fun _ => same, hcommits⟩
  | newTag => exact ⟨g, rfl, fun _ => same, hcommits⟩
  | newDirectory => exact ⟨g, rfl, fun _ => same, hcommits⟩
  | newFile => exact ⟨g, rfl, fun _ => same, hcommits⟩
  | file => exact ⟨g, rfl, fun _ => same, hcommits⟩
  | newFunction => exact ⟨g, rfl, fun _ => same, hcommits⟩

theorem Steps.onlyCommits (h : Steps owner t (.commit hash parent) j s s') (hs : s.Sound owner n)
    (hn : n + j < 2 ^ 64) : s.OnlyCommits n s' := by
  induction h with
  | refl => exact .rfl
  | tail first last ih =>
    obtain ⟨hmid, -⟩ := first.sound_and_grows hs (by omega)
    exact (ih hs (by omega)).trans (last.onlyCommits hmid.numbered (by omega))
      (Nat.le_add_right _ _)

/-- Any number of commit facts. -/
theorem Store.Sound.onlyCommits {facts : List CommitFact} :
    ∀ {owner : NodeId → String} {n : Nat} {s : Store}, s.Sound owner n →
      n + s.idsIssued (Ingestion.commits facts) < 2 ^ 64 →
      s.OnlyCommits n (s.after (Ingestion.commits facts)) := by
  induction facts with
  | nil =>
    intro owner n s _ _
    exact .rfl
  | cons f rest ih =>
    intro owner n s hs hn
    have hn' : n + (((Ingestion.commit f).edit s).issued
        + ((Ingestion.commit f).edit s).store.idsIssued (Ingestion.commits rest)) < 2 ^ 64 := hn
    obtain ⟨owner', -, hready, hsteps⟩ := hs.call (.commit f) (by omega)
    obtain ⟨hs', -⟩ := hsteps.sound_and_grows hready.sound (by omega)
    exact (hsteps.onlyCommits hready.sound (by omega)).trans (ih hs' (by omega))
      (Nat.le_add_right _ _)

/-! ## Accounts do not depend on the order -/

namespace CommitAccount

/-- Adding a fact twice is adding it once. -/
theorem withFact_withFact (a : CommitAccount) (f : CommitFact) :
    (a.withFact f).withFact f = a.withFact f := by
  unfold withFact
  simp [← Option.or_assoc, Finset.union_assoc]

/-- Adding one fact any number of times is adding it once. -/
theorem withFacts_same {a : CommitAccount} {f : CommitFact} {fs : List CommitFact} (hne : fs ≠ [])
    (h : ∀ g ∈ fs, g = f) : a.withFacts fs = a.withFact f := by
  cases fs with
  | nil => exact absurd rfl hne
  | cons first rest =>
    obtain rfl := h first List.mem_cons_self
    show rest.foldl withFact (a.withFact first) = _
    have hrest : ∀ g ∈ rest, g = first := fun g hg => h g (List.mem_cons_of_mem _ hg)
    clear h hne
    induction rest with
    | nil => rfl
    | cons g rest ih =>
      obtain rfl := hrest g List.mem_cons_self
      rw [List.foldl_cons, withFact_withFact]
      exact ih fun x hx => hrest x (List.mem_cons_of_mem _ hx)

theorem mem_parents_withFacts {p : String} {fs : List CommitFact} :
    ∀ {a : CommitAccount}, p ∈ (a.withFacts fs).parents ↔
      p ∈ a.parents ∨ ∃ f ∈ fs, f.parentNamed = some p := by
  induction fs with
  | nil =>
    intro a
    simp [withFacts]
  | cons f fs ih =>
    intro a
    show p ∈ ((a.withFact f).withFacts fs).parents ↔ _
    rw [ih]
    simp [withFact, or_assoc]

end CommitAccount

namespace CommitFact

/-- The key of the commit that a fact is about. -/
def key (f : CommitFact) : String × String := (f.landscapeToken, f.commitHash)

theorem factAbout_eq_some_iff {token hash : String} {f g : CommitFact} :
    (Ingestion.commit f).factAbout token hash = some g ↔ f = g ∧ f.key = (token, hash) := by
  unfold Ingestion.factAbout Ingestion.commitFact? key
  rw [Option.filter_eq_some_iff, Option.some.injEq, Prod.mk.injEq, decide_eq_true_eq]
  constructor
  · rintro ⟨rfl, hkey⟩
    exact ⟨rfl, hkey⟩
  · rintro ⟨rfl, hkey⟩
    exact ⟨rfl, hkey⟩

theorem mem_factsAbout {facts : List CommitFact} {token hash : String} {f : CommitFact} :
    f ∈ (Ingestion.commits facts).filterMap (Ingestion.factAbout token hash) ↔
      f ∈ facts ∧ f.key = (token, hash) := by
  unfold Ingestion.commits
  rw [List.filterMap_map, List.mem_filterMap]
  constructor
  · rintro ⟨g, hg, hf⟩
    obtain ⟨rfl, hkey⟩ := factAbout_eq_some_iff.1 hf
    exact ⟨hg, hkey⟩
  · rintro ⟨hf, hkey⟩
    exact ⟨f, hf, factAbout_eq_some_iff.2 ⟨rfl, hkey⟩⟩

end CommitFact

/-- The same facts, of which no two are about one commit, leave the same accounts. -/
theorem Accounts.told_congr (a : Accounts) {l l' : List CommitFact} (hmem : ∀ f, f ∈ l ↔ f ∈ l')
    (hone : ∀ f ∈ l, ∀ g ∈ l, f.key = g.key → f = g) :
    told a (Ingestion.commits l) = told a (Ingestion.commits l') := by
  funext token hash
  have hnames : (Ingestion.commits l).any (Ingestion.names token hash)
      = (Ingestion.commits l').any (Ingestion.names token hash) := by
    rw [Bool.eq_iff_iff, List.any_eq_true, List.any_eq_true]
    simp only [Ingestion.commits, List.mem_map, exists_exists_and_eq_and, hmem]
  have hfacts : ∀ b : CommitAccount,
      b.withFacts ((Ingestion.commits l).filterMap (Ingestion.factAbout token hash))
        = b.withFacts ((Ingestion.commits l').filterMap (Ingestion.factAbout token hash)) := by
    intro b
    have hsame : ∀ f, f ∈ (Ingestion.commits l).filterMap (Ingestion.factAbout token hash) ↔
        f ∈ (Ingestion.commits l').filterMap (Ingestion.factAbout token hash) := by
      intro f
      rw [CommitFact.mem_factsAbout, CommitFact.mem_factsAbout, hmem]
    cases hl : (Ingestion.commits l).filterMap (Ingestion.factAbout token hash) with
    | nil =>
      have hnil : (Ingestion.commits l').filterMap (Ingestion.factAbout token hash) = [] := by
        rw [List.eq_nil_iff_forall_not_mem]
        intro f hf
        have hf' := (hsame f).2 hf
        rw [hl] at hf'
        exact List.not_mem_nil hf'
      rw [hnil]
    | cons f rest =>
      -- all facts about the commit are this one
      have hf : f ∈ (Ingestion.commits l).filterMap (Ingestion.factAbout token hash) := by
        rw [hl]
        exact List.mem_cons_self
      have hall : ∀ g ∈ (Ingestion.commits l).filterMap (Ingestion.factAbout token hash),
          g = f := by
        intro g hg
        obtain ⟨hg, hgkey⟩ := CommitFact.mem_factsAbout.1 hg
        obtain ⟨hf, hfkey⟩ := CommitFact.mem_factsAbout.1 hf
        exact hone g hg f hf (hgkey.trans hfkey.symm)
      rw [← hl, CommitAccount.withFacts_same (List.ne_nil_of_mem hf) hall,
        CommitAccount.withFacts_same (List.ne_nil_of_mem ((hsame f).1 hf))
          fun g hg => hall g ((hsame g).2 hg)]
  unfold told
  rw [hnames, hfacts]

namespace Store

/-! ## The parents of a commit stand in the same order -/

section Parents

variable {token p q : String}

/-- The first commit is there, and older than the second one unless that is missing. -/
def Older (s : Store) (token p q : String) : Prop :=
  ∃ c ∈ s.commits, c.token = token ∧ c.hash = p ∧
    ∀ d ∈ s.commits, d.token = token → d.hash = q → c.id.val < d.id.val

theorem Older.asymm (h : s.Older token p q) (h' : s.Older token q p) : False := by
  obtain ⟨c, hc, hct, hch, hlt⟩ := h
  obtain ⟨d, hd, hdt, hdh, hlt'⟩ := h'
  exact UInt64.lt_asymm (hlt d hd hdt hdh) (hlt' c hc hct hch)

/-- At most one parent of a commit was not there before. -/
def OneNewParent (s s' : Store) (c : Commit) : Prop :=
  ∀ p ∈ (s'.accountOf c).parents, ∀ q ∈ (s'.accountOf c).parents,
    s.account c.token p = none → s.account c.token q = none → p = q

/-- Of two parents of a commit the older one was there before. -/
theorem Sound.older_parent_kept (hs : s.Sound owner n) {m : Nat} {owner' : NodeId → String}
    (hs' : s'.Sound owner' m) (h : s.OnlyCommits n s') {c x y : Commit}
    (hone : OneNewParent s s' c) (hx : x ∈ s'.commits) (hy : y ∈ s'.commits)
    (hxt : x.token = c.token) (hyt : y.token = c.token)
    (hxp : x.hash ∈ (s'.accountOf c).parents) (hyp : y.hash ∈ (s'.accountOf c).parents)
    (hlt : x.id.val < y.id.val) : ∃ w ∈ s.commits, w.Kept x := by
  rcases h.old_or_new hs.keyed hs'.keyed hx with hold | ⟨hxnone, hxn⟩
  · exact hold
  rw [hxt] at hxnone
  -- if the older one were new, the younger one would be new too
  have hyn : n < y.id.val.toNat := Nat.lt_trans hxn (UInt64.lt_iff_toNat_lt.1 hlt)
  have hynone : s.account c.token y.hash = none := by
    rcases h.old_or_new hs.keyed hs'.keyed hy with ⟨w, hw, hk⟩ | ⟨hynone, -⟩
    · have hissued : w.id.val.toNat ≤ n := hs.numbered.commits w hw
      rw [← hk.id] at hissued
      omega
    · rwa [← hyt]
  have hxy : x = y :=
    hs'.keyed.eq_of_hash hx hy (hxt.trans hyt.symm) (hone _ hxp _ hyp hxnone hynone)
  rw [hxy] at hlt
  exact absurd hlt (UInt64.lt_irrefl _)

/-- Parents that were there before stand in the old order, and in front of a new one. -/
theorem Sound.pairwise_parentHashes (hs : s.Sound owner n) {m : Nat} {owner' : NodeId → String}
    (hs' : s'.Sound owner' m) (h : s.OnlyCommits n s') {c : Commit} (hc : c ∈ s'.commits)
    (hone : OneNewParent s s' c) : (s'.parentHashes c).Pairwise (s.Older c.token) := by
  have hids : c.parents.toList.Pairwise fun i j =>
      (i ∈ c.parents ∧ j ∈ c.parents) ∧ compare i j = .lt :=
    c.parents.ascending.imp_of_mem fun hi hj hij => ⟨⟨hi, hj⟩, hij⟩
  unfold parentHashes
  rw [List.pairwise_map]
  refine List.Pairwise.filterMap _ ?_ hids
  rintro i j ⟨⟨hi, hj⟩, hij⟩ x hx y hy
  obtain rfl := Sorted.key_of_get? hx
  obtain rfl := Sorted.key_of_get? hy
  have hxmem := Sorted.mem_of_get? hx
  have hymem := Sorted.mem_of_get? hy
  have hlt : x.id.val < y.id.val := NodeId.compare_eq_lt.1 hij
  obtain ⟨hxt, hxp⟩ := (hs'.mem_parents_iff hc hxmem).1 hi
  obtain ⟨hyt, hyp⟩ := (hs'.mem_parents_iff hc hymem).1 hj
  obtain ⟨w, hw, hk⟩ := hs.older_parent_kept hs' h hone hxmem hymem hxt hyt hxp hyp hlt
  refine ⟨w, hw, hk.token.symm.trans hxt, hk.hash.symm, fun d hd hdt hdh => ?_⟩
  -- what had the hash of the younger one before is that commit still
  obtain ⟨d', hd', hkd⟩ := h.grows.commits.mem hd
  have heq : d' = y :=
    hs'.keyed.eq_of_hash hd' hymem ((hkd.token.trans hdt).trans hyt.symm) (hkd.hash.trans hdh)
  rw [← hk.id, ← hkd.id, heq]
  exact hlt

theorem mem_parentHashes {c : Commit} :
    p ∈ s.parentHashes c ↔ p ∈ (s.accountOf c).parents := List.mem_toFinset.symm

/-- Two stores that have come from one list the parents of a commit in the same order. -/
theorem Sound.parentHashes_eq {s₁ s₂ : Store} {n₁ n₂ : Nat} {owner₁ owner₂ : NodeId → String}
    (hs : s.Sound owner n) (hs₁ : s₁.Sound owner₁ n₁) (hs₂ : s₂.Sound owner₂ n₂)
    (h₁ : s.OnlyCommits n s₁) (h₂ : s.OnlyCommits n s₂) {c₁ c₂ : Commit} (hc₁ : c₁ ∈ s₁.commits)
    (hc₂ : c₂ ∈ s₂.commits) (htoken : c₂.token = c₁.token)
    (haccount : s₂.accountOf c₂ = s₁.accountOf c₁) (hone : OneNewParent s s₁ c₁) :
    s₂.parentHashes c₂ = s₁.parentHashes c₁ := by
  have hone₂ : OneNewParent s s₂ c₂ := by
    unfold OneNewParent at hone ⊢
    rwa [haccount, htoken]
  have hpair₁ := hs.pairwise_parentHashes hs₁ h₁ hc₁ hone
  have hpair₂ := hs.pairwise_parentHashes hs₂ h₂ hc₂ hone₂
  rw [htoken] at hpair₂
  have nodup : ∀ {l : List String}, l.Pairwise (s.Older c₁.token) → l.Nodup := by
    intro l hl
    refine hl.imp fun {p q} hpq he => ?_
    rw [he] at hpq
    exact hpq.asymm hpq
  apply List.Perm.eq_of_pairwise (fun _ _ _ _ hpq hqp => absurd hqp hpq.asymm) hpair₂ hpair₁
  apply (List.perm_ext_iff_of_nodup (nodup hpair₂) (nodup hpair₁)).2
  intro p
  rw [mem_parentHashes, mem_parentHashes, haccount]

end Parents

/-- A fact adds one parent at most, and all other parents were there before. -/
theorem Sound.oneNewParent (hs : s.Sound owner n) {facts : List CommitFact}
    (hone : ∀ f ∈ facts, ∀ g ∈ facts, f.key = g.key → f = g) {m : Nat} {owner' : NodeId → String}
    (hs' : s'.Sound owner' m)
    (haccount : s'.account = Accounts.told s.account (Ingestion.commits facts)) {c : Commit}
    (hc : c ∈ s'.commits) : OneNewParent s s' c := by
  have hget := Accounts.getD_told s.account (Ingestion.commits facts) c.token c.hash
  rw [← haccount, hs'.keyed.account_eq_accountOf hc, Option.getD_some] at hget
  have hnew : ∀ p ∈ (s'.accountOf c).parents, s.account c.token p = none →
      ∃ f ∈ facts, f.key = (c.token, c.hash) ∧ f.parentNamed = some p := by
    intro p hp hnone
    rw [hget, CommitAccount.mem_parents_withFacts] at hp
    rcases hp with hp | ⟨f, hf, hparent⟩
    · exfalso
      cases hold : s.account c.token c.hash with
      | none =>
        rw [hold, Option.getD_none] at hp
        exact Finset.notMem_empty p hp
      | some a =>
        rw [hold, Option.getD_some] at hp
        obtain ⟨b, hb⟩ := hs.account_of_parent hold hp
        rw [hnone] at hb
        cases hb
    · obtain ⟨hf, hkey⟩ := CommitFact.mem_factsAbout.1 hf
      exact ⟨f, hf, hkey, hparent⟩
  intro p hp q hq hpnone hqnone
  obtain ⟨f, hf, hfkey, hfp⟩ := hnew p hp hpnone
  obtain ⟨g, hg, hgkey, hgq⟩ := hnew q hq hqnone
  rw [hone f hf g hg (hfkey.trans hgkey.symm), hgq] at hfp
  exact (Option.some.inj hfp).symm

/-! ## Any order, any number of times -/

/-- Told the same facts in two ways, a store comes to the same history. -/
theorem Sound.sameHistory (hs : s.Sound owner n) {l₁ l₂ : List CommitFact}
    (hmem : ∀ f, f ∈ l₁ ↔ f ∈ l₂) (hone : ∀ f ∈ l₁, ∀ g ∈ l₁, f.key = g.key → f = g)
    (haccept : ∀ f ∈ l₁, f.Acceptable s)
    (hn₁ : n + s.idsIssued (Ingestion.commits l₁) < 2 ^ 64)
    (hn₂ : n + s.idsIssued (Ingestion.commits l₂) < 2 ^ 64) :
    (s.after (Ingestion.commits l₁)).SameHistory (s.after (Ingestion.commits l₂)) := by
  obtain ⟨⟨owner₁, -, hs₁⟩, -⟩ := hs.after hn₁
  obtain ⟨⟨owner₂, -, hs₂⟩, -⟩ := hs.after hn₂
  have only₁ := hs.onlyCommits hn₁
  have only₂ := hs.onlyCommits hn₂
  have haccount₁ : (s.after (Ingestion.commits l₁)).account
      = Accounts.told s.account (Ingestion.commits l₁) := by
    rw [hs.account_after hn₁ (hs.commitsSucceed hn₁ haccept), Accounts.foldl_recordIn]
  have haccount₂ : (s.after (Ingestion.commits l₂)).account
      = Accounts.told s.account (Ingestion.commits l₂) := by
    have haccept₂ : ∀ f ∈ l₂, f.Acceptable s := fun f hf => haccept f ((hmem f).2 hf)
    rw [hs.account_after hn₂ (hs.commitsSucceed hn₂ haccept₂), Accounts.foldl_recordIn]
  -- both runs leave the accounts that the facts give, in which the order is lost
  have haccounts : (s.after (Ingestion.commits l₂)).account
      = (s.after (Ingestion.commits l₁)).account := by
    rw [haccount₁, haccount₂, Accounts.told_congr s.account hmem hone]
  constructor
  case accounts => exact haccounts
  case applications => rw [only₂.applications, only₁.applications]
  case repositories =>
    intro id
    rw [only₂.repositoryKey_eq, only₁.repositoryKey_eq]
  case parents =>
    intro c hc c' hc' htoken hhash
    have haccountOf : (s.after (Ingestion.commits l₂)).accountOf c'
        = (s.after (Ingestion.commits l₁)).accountOf c := by
      have hold := hs₁.keyed.account_eq_accountOf hc
      have hnew := hs₂.keyed.account_eq_accountOf hc'
      rw [haccounts, htoken, hhash, hold] at hnew
      exact (Option.some.inj hnew).symm
    exact hs.parentHashes_eq hs₁ hs₂ only₁ only₂ hc hc' htoken haccountOf
      (hs.oneNewParent hone hs₁ haccount₁ hc)

/-- In whatever order commit facts that are accepted are told, and however often each of them, the
views are the same in the end. No two of the facts may be about one commit; what earlier calls
have told of a commit does not matter. -/
theorem delivery_order (calls : List Ingestion) (facts : Set CommitFact)
    (haccept : ∀ f ∈ facts, (Ingestion.commit f).succeeds ((∅ : Store).after calls) = true)
    (hone : ∀ f ∈ facts, ∀ g ∈ facts, f.key = g.key → f = g) (l₁ l₂ : List CommitFact)
    (h₁ : ∀ f, f ∈ l₁ ↔ f ∈ facts) (h₂ : ∀ f, f ∈ l₂ ↔ f ∈ facts)
    (hids₁ : (∅ : Store).idsIssued (calls ++ Ingestion.commits l₁) < 2 ^ 64)
    (hids₂ : (∅ : Store).idsIssued (calls ++ Ingestion.commits l₂) < 2 ^ 64) :
    ((∅ : Store).after (calls ++ Ingestion.commits l₁)).SameViews
      ((∅ : Store).after (calls ++ Ingestion.commits l₂)) := by
  rw [idsIssued_append] at hids₁ hids₂
  obtain ⟨owner, hs⟩ := sound_after_empty calls (by omega)
  obtain ⟨⟨owner₁, -, hs₁⟩, -⟩ := hs.after hids₁
  obtain ⟨⟨owner₂, -, hs₂⟩, -⟩ := hs.after hids₂
  rw [after_append, after_append]
  have hsame := hs.sameHistory (fun f => (h₁ f).trans (h₂ f).symm)
    (fun f hf g hg => hone f ((h₁ f).1 hf) g ((h₁ g).1 hg))
    (fun f hf => CommitFact.acceptable_of_succeeds (haccept f ((h₁ f).1 hf))) hids₁ hids₂
  exact hsame.sameViews hs₁ hs₂

theorem delivery_order_sample :
    (∀ f ∈ CommitFact.sample,
        (Ingestion.commit f).succeeds ((∅ : Store).after [Ingestion.sampleRepository]) = true) ∧
      (∀ f ∈ CommitFact.sample, ∀ g ∈ CommitFact.sample, f.key = g.key → f = g) ∧
      ((∅ : Store).after
          ([Ingestion.sampleRepository] ++ Ingestion.commits CommitFact.sample)).SameViews
        ((∅ : Store).after ([Ingestion.sampleRepository] ++ Ingestion.commits
          (CommitFact.sample.reverse ++ CommitFact.sample))) := by
  have haccept : ∀ f ∈ CommitFact.sample,
      (Ingestion.commit f).succeeds ((∅ : Store).after [Ingestion.sampleRepository]) = true := by
    decide +kernel
  have hone : ∀ f ∈ CommitFact.sample, ∀ g ∈ CommitFact.sample, f.key = g.key → f = g := by
    decide +kernel
  refine ⟨haccept, hone, ?_⟩
  exact delivery_order [Ingestion.sampleRepository] {f | f ∈ CommitFact.sample} haccept hone
    CommitFact.sample (CommitFact.sample.reverse ++ CommitFact.sample) (fun f => Iff.rfl)
    (fun f => by simp) (by decide +kernel) (by decide +kernel)

end Store

end Cityscape
