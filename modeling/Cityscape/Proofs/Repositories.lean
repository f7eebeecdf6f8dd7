import Cityscape.Proofs.Commits

/-!
# `Repositories`: announcing a repository keeps to the steps

A repository fact may add a repository, a branch, directories and applications, and move
applications of its own landscape. It fails only if the repository has no name
(`RepositoryFact.refusal`). Otherwise each application that it names lives at its path in the
repository afterwards, and no other application has moved (`RepositoryFact.TakenIn`).
-/

namespace Cityscape

/-- Why a repository fact is refused, if it is. -/
def RepositoryFact.refusal (f : RepositoryFact) : Option Fault :=
  if displayName f.repositoryName = "" then some .emptyRepositoryName else none

namespace Store

variable {owner : NodeId → String} {n m : Nat} {s s' : Store}

/-- The application lives in the repository, in the directory at a path below its root. -/
structure LivesAt (s : Store) (r : Repository) (path : List String) (a : Application) : Prop where
  repository : a.repository = some r.id
  root : ∃ d ∈ s.directories, d.id = a.rootDirectory ∧
    s.topAbove (some d.id) = some r.rootDirectory ∧ s.namesAbove (some d.id) = path

theorem LivesAt.of_grows {r r' : Repository} {path : List String} {a : Application}
    (h : s.LivesAt r path a) (hs : s.Sound owner n) (hs' : s'.Sound owner m) (g : s.Grows s')
    (hk : r.Kept r') : s'.LivesAt r' path a := by
  obtain ⟨d, hd, hroot, htop, hpath⟩ := h.root
  obtain ⟨d', hd', hkd⟩ := g.directories _ _ (Sorted.get?_key hd)
  refine ⟨h.repository.trans (congrArg some hk.id.symm), d', Sorted.mem_of_get? hd',
    hkd.id.trans hroot, ?_, ?_⟩
  · rw [hkd.id, hs.trees.topAbove_of_grows hs'.trees g.directories hd, htop, hk.rootDirectory]
  · rw [hkd.id, hs.trees.namesAbove_of_grows hs'.trees g.directories hd, hpath]

/-- Under a name an application is found that lives at a path in the repository. -/
def Registered (s : Store) (token name : String) (r : Repository) (path : List String) : Prop :=
  ∃ a, s.findApplication token name = some a ∧ s.LivesAt r path a

/-- It lives there for as long as it is found under the name. -/
theorem Registered.of_grows {token name : String} {r r' : Repository} {path : List String}
    (h : s.Registered token name r path) (hs : s.Sound owner n) (hs' : s'.Sound owner m)
    (g : s.Grows s') (hk : r.Kept r')
    (hsame : s'.findApplication token name = s.findApplication token name) :
    s'.Registered token name r' path := by
  obtain ⟨a, ha, hlives⟩ := h
  exact ⟨a, hsame.trans ha, hlives.of_grows hs hs' g hk⟩

/-- The application is found under a name, in a directory and a repository, and under all other
names there is what has been there before. -/
structure Moves (s s' : Store) (token name : String) (root : Directory) (r : Repository)
    (a : Application) : Prop where
  root : a.rootDirectory = root.id
  repository : a.repository = some r.id
  found : ∀ u app, s'.findApplication u app
    = if (token, name) = (u, app) then some a else s.findApplication u app

end Store

/-- What a repository fact leaves behind: its applications live at their paths in the repository,
and all others are as they were. -/
structure RepositoryFact.TakenIn (f : RepositoryFact) (s s' : Store) : Prop where
  accepted : f.refusal = none
  registered : ∃ r, s'.findRepository f.landscapeToken (displayName f.repositoryName) = some r ∧
    ∀ p ∈ f.applicationPaths, s'.Registered f.landscapeToken p.1 r (splitPath p.2)
  others : ∀ token name,
    (token = f.landscapeToken → name ∉ f.applicationPaths.toList.map Prod.fst) →
      s'.findApplication token name = s.findApplication token name

/-- What a repository fact comes to apart from its applications: the repository and the branch are
there, directories have come in on the way to the applications only, below a root that is new if the
repository is, and the reply tells of the store that is left behind. -/
structure RepositoryFact.Announced (f : RepositoryFact) (s s' : Store) (r : Repository)
    (reply : RepositoryReply) : Prop where
  repository : s'.findRepository f.landscapeToken (displayName f.repositoryName) = some r
  branch : ∃ b, s'.findBranch r.id (branchMeant f.branchName) = some b
  newAt : s.NewAt (some r.rootDirectory) (fun names =>
    (names = [] ∧ s.findRepository f.landscapeToken (displayName f.repositoryName) = none) ∨
      names ≠ [] ∧ ∃ p ∈ f.applicationPaths, names <+: splitPath p.2) s'
  reply : reply =
    { branchName := branchMeant f.branchName
      commitId := ((s'.latestComplete (displayName f.repositoryName) f.landscapeToken
        (branchMeant f.branchName)).map Commit.hash).getD "" }

namespace Edit

variable {owner : NodeId → String} {t : String} {k : Topic} {n : Nat} {s : Store}

/-- Handing out an id that nothing gets. -/
theorem runs_allocate (h : Ready owner t n s) :
    Runs owner t k allocate n s
      (fun id s' => id = ⟨s.nextId⟩ ∧ s' = { s with nextId := s.nextId + 1 }) fun _ => False :=
  Runs.of_step h (allocate_apply s) (fun _ => .skip) fun _ _ => ⟨rfl, rfl⟩

theorem runs_repositoryNamed (h : Ready owner t n s) {name : String} :
    Runs owner t .repository (repositoryNamed name t) n s
      (fun r s' => r ∈ s'.repositories ∧ r.token = t ∧ r.name = name ∧
        s'.applications = s.applications ∧ s.NewAt (some r.rootDirectory)
          (fun names => names = [] ∧ s.findRepository t name = none) s') fun _ => False := by
  unfold repositoryNamed
  refine Runs.store_bind ?_
  cases hfind : s.findRepository t name with
  | some r =>
    obtain ⟨hr, htoken, hname⟩ := Store.findRepository_spec hfind
    exact Runs.pure ⟨hr, htoken, hname, rfl, .of_eq rfl⟩
  | none =>
    refine Runs.of_allocate fun hn => ?_
    -- the root is stored only if the repository is new, and then both make one step
    let root : Directory := { id := ⟨s.nextId⟩, name }
    let r : Repository := { id := ⟨s.nextId + 1⟩, token := t, name, rootDirectory := root.id }
    have hmerge : Store.mergeRepository { s with nextId := s.nextId + 1 + 1 } r
        = (r, { s with
            nextId := s.nextId + 1 + 1
            repositories := s.repositories.insert r }) := Store.mergeRepository_of_none hfind
    have hsave : Store.saveDirectory { s with
          nextId := s.nextId + 1 + 1
          repositories := s.repositories.insert r } root = s.withRepository t name := by
      unfold Store.saveDirectory
      rw [show Sorted.get? _ root.id = none
        from h.sound.numbered.get?_next hn h.sound.numbered.directories]
      rfl
    have heq : (do
        let root : Directory := { id := ← allocate, name }
        let id ← allocate
        let r ← step fun s => s.mergeRepository { id, token := t, name, rootDirectory := root.id }
        if r.rootDirectory = root.id then change fun s => s.saveDirectory root
        return r : Edit Repository) s
        = { result := .ok r, store := s.withRepository t name, issued := 2 } := by
      rw [bind_of_ok (allocate_apply s)]
      simp only
      rw [bind_of_ok (allocate_apply _)]
      simp only
      rw [bind_of_ok (step_apply _ _), hmerge]
      simp only [r, root, if_true]
      rw [bind_of_ok (change_apply _ _), show Store.saveDirectory _ _ = _ from hsave]
      rfl
    refine Runs.of_step h heq (fun hn => .newRepository (Sorted.find?_pair_eq_none_iff.1 hfind)
      (h.own_next (by omega)) (h.own_next_next hn)) fun h' _ => ?_
    refine ⟨Sorted.mem_insert_self _ _, rfl, rfl, rfl, fun d hd hnew => ?_⟩
    rcases Sorted.mem_insert.1 hd with rfl | ⟨hd, -⟩
    · have htrees := h'.sound.trees
      exact ⟨htrees.topAbove_top (Sorted.mem_insert_self _ _) rfl,
        htrees.namesAbove_top (Sorted.mem_insert_self _ _) rfl, rfl⟩
    · rw [Sorted.get?_key hd] at hnew
      cases hnew

/-- An application that is known already is put into a directory and a repository. -/
theorem runs_moveApplication (h : Ready owner t n s) {a : Application}
    (hfind : s.findApplication t a.name = some a) {root : Directory} (hroot : root ∈ s.directories)
    (hown : owner root.id = t) {r : Repository} (hrepo : s.HasRepository r)
    (hrtoken : r.token = t) :
    Runs owner t .repository (change fun s => s.saveApplication
        { a with rootDirectory := root.id, repository := some r.id }) n s
      (fun _ s' => s.Moves s' t a.name root r
        { a with rootDirectory := root.id, repository := some r.id } ∧
          s'.directories = s.directories) fun _ => False := by
  obtain ⟨r', hr', hk⟩ := hrepo
  obtain ⟨ha, htoken, -⟩ := Sorted.mem_of_find?_pair hfind
  let moved : Application := { a with rootDirectory := root.id, repository := some r.id }
  have fits : a.Fits owner s := h.sound.fitting.applications a ha
  refine Runs.of_step h (change_apply _ _) (fun _ => ?_)
    fun _ _ => ⟨⟨rfl, rfl, fun token app => ?_⟩, rfl⟩
  · exact .application ha htoken { Application.Kept.rfl with } { fits with
      root := ⟨root, Sorted.get?_key hroot, hown.trans htoken.symm⟩
      repository := fun x hx => by
        cases hx
        exact ⟨r', hk.id ▸ Sorted.get?_key hr', (hk.token.trans hrtoken).trans htoken.symm⟩ }
  · rw [← htoken]
    exact h.sound.keyed.applications.find?_replace (y := moved) ha rfl rfl token app

/-- An application that is not known yet comes in where it should be. -/
theorem runs_newApplication (h : Ready owner t n s) {name : String}
    (hfind : s.findApplication t name = none) {root : Directory} (hroot : root ∈ s.directories)
    (hown : owner root.id = t) {r : Repository} (hrepo : s.HasRepository r)
    (hrtoken : r.token = t) :
    Runs owner t .repository (registerApplication t name root.id r.id) n s
      (fun a s' => s.Moves s' t name root r a ∧ s'.directories = s.directories)
      fun _ => False := by
  obtain ⟨r', hr', hk⟩ := hrepo
  refine Runs.of_allocate fun hn => ?_
  let a : Application :=
    { id := ⟨s.nextId⟩, token := t, name, rootDirectory := root.id, repository := some r.id }
  let s₁ : Store :=
    { s with nextId := s.nextId + 1, applications := s.applications.insert a }
  have hmerge : Store.mergeApplication { s with nextId := s.nextId + 1 } a = (a, s₁) :=
    Store.mergeApplication_of_none hfind
  have heq : (do
      let id ← allocate
      let a ← step fun s => s.mergeApplication
        { id, token := t, name, rootDirectory := root.id, repository := some r.id }
      if a.rootDirectory = root.id ∧ a.repository = some r.id then return a
      else
        let a := { a with rootDirectory := root.id, repository := some r.id }
        change fun s => s.saveApplication a
        return a : Edit Application) s
      = { result := .ok a, store := s₁, issued := 1 } := by
    rw [bind_of_ok (allocate_apply s)]
    simp only
    rw [bind_of_ok (step_apply _ _), hmerge]
    simp only [a, and_self, if_true]
    rfl
  exact Runs.of_step h heq (fun hn => .newApplication rfl rfl
    (Sorted.find?_pair_eq_none_iff.1 hfind)
    { own := h.own_next hn
      root := ⟨root, Sorted.get?_key hroot, hown⟩
      repository := fun x hx => by
        cases hx
        exact ⟨r', hk.id ▸ Sorted.get?_key hr', hk.token.trans hrtoken⟩ })
    fun _ g => ⟨⟨rfl, rfl, h.sound.keyed.findApplication_insert g rfl hfind⟩, rfl⟩

theorem runs_registerApplication (h : Ready owner t n s) {name : String} {root : Directory}
    (hroot : root ∈ s.directories) (hown : owner root.id = t) {r : Repository}
    (hrepo : s.HasRepository r) (hrtoken : r.token = t) :
    Runs owner t .repository (registerApplication t name root.id r.id) n s
      (fun a s' => s.Moves s' t name root r a ∧ s'.directories = s.directories)
      fun _ => False := by
  unfold registerApplication
  cases hfind : s.findApplication t name with
  | some a =>
    obtain ⟨ha, htoken, rfl⟩ := Sorted.mem_of_find?_pair hfind
    refine Runs.bind h (runs_allocate h) ?_
    rintro id n₁ s₁ h₁ - ⟨-, rfl⟩
    have hmerge : (step fun s => s.mergeApplication
          { id, token := t, name := a.name, rootDirectory := root.id, repository := some r.id })
          { s with nextId := s.nextId + 1 }
        = { result := .ok a, store := { s with nextId := s.nextId + 1 } } := by
      rw [step_apply, Store.mergeApplication_of_some hfind]
    -- the id that was handed out is not needed
    refine Runs.bind h₁ (Runs.of_eq
      (P := fun b s' => b = a ∧ s' = { s with nextId := s.nextId + 1 })
      hmerge (fun _ => .refl) fun _ => ⟨rfl, rfl⟩) ?_
    rintro b n₂ s₂ h₂ - ⟨rfl, rfl⟩
    -- the application moves unless it is where it should be
    by_cases hthere : b.rootDirectory = root.id ∧ b.repository = some r.id
    · rw [if_pos hthere]
      refine Runs.pure ⟨⟨hthere.1, hthere.2, fun token app => ?_⟩, rfl⟩
      split
      · rename_i hkey
        obtain ⟨rfl, rfl⟩ := Prod.ext_iff.1 hkey
        exact hfind
      · rfl
    · rw [if_neg hthere]
      refine Runs.bind h₂ (runs_moveApplication h₂ hfind hroot hown hrepo hrtoken) ?_
      rintro _ n₃ s₃ h₃ - ⟨hmoves, hdirectories⟩
      exact Runs.pure ⟨⟨hmoves.root, hmoves.repository, hmoves.found⟩, hdirectories⟩
  | none => exact runs_newApplication h hfind hroot hown hrepo hrtoken

theorem runs_registerApplications {r : Repository} (hrtoken : r.token = t)
    {applications : List (String × String)} (hnames : (applications.map Prod.fst).Nodup) :
    ∀ {n : Nat} {s : Store}, Ready owner t n s → s.HasRepository r →
      Runs owner t .repository (registerApplications t r applications) n s
        (fun _ s' => (∀ p ∈ applications, s'.Registered t p.1 r (splitPath p.2)) ∧
          (∀ token name, (token = t → name ∉ applications.map Prod.fst) →
            s'.findApplication token name = s.findApplication token name) ∧
          s.NewAt (some r.rootDirectory)
            (fun names => names ≠ [] ∧ ∃ p ∈ applications, names <+: splitPath p.2) s')
        fun _ => False := by
  induction applications with
  | nil =>
    intro n s h hrepo
    exact Runs.pure ⟨fun p hp => absurd hp List.not_mem_nil, fun _ _ _ => rfl, .of_eq rfl⟩
  | cons first rest ih =>
    intro n s h hrepo
    obtain ⟨name, path⟩ := first
    obtain ⟨hname, hrest⟩ := List.nodup_cons.1 hnames
    obtain ⟨r', hr', hk⟩ := hrepo
    have fits := h.sound.fitting.repositories r' hr'
    obtain ⟨root, hroot, hparent⟩ := fits.root
    have hmem := Sorted.mem_of_get? hroot
    have hown : owner root.id = t := by
      rw [Sorted.key_of_get? hroot, fits.rootOwn, hk.token, hrtoken]
    have hid : root.id = r.rootDirectory := (Sorted.key_of_get? hroot).trans hk.rootDirectory
    have hrepo : s.HasRepository r := ⟨r', hr', hk⟩
    have hensure : Runs owner t .repository (ensureDirectories root.id (splitPath path)) n s _ _ :=
      runs_ensureDirectories h (by simp) hmem hown
    rw [h.sound.trees.namesAbove_top hmem hparent, h.sound.trees.topAbove_top hmem hparent,
      hid] at hensure
    refine Runs.bind h hensure ?_
    rintro d n₁ s₁ h₁ g₁ ⟨hd, hdown, hpath, htop, hsame, hnew₁⟩
    have hrepo₁ := hrepo.of_grows g₁
    refine Runs.bind h₁ (runs_registerApplication h₁ hd hdown hrepo₁ hrtoken) ?_
    rintro a n₂ s₂ h₂ g₂ ⟨⟨haroot, harepo, hfound⟩, hdirectories⟩
    have hlives : s₁.LivesAt r (splitPath path) a := ⟨harepo, d, hd, haroot.symm, htop, hpath⟩
    have hthis : s₂.Registered t name r (splitPath path) :=
      ⟨a, by rw [hfound, if_pos rfl], hlives.of_grows h₁.sound h₂.sound g₂ .rfl⟩
    refine Runs.imp h₂ (ih hrest h₂ (hrepo₁.of_grows g₂)) ?_
    rintro _ n₃ s₃ h₃ g₃ ⟨hregistered, hothers, hnew₃⟩
    refine ⟨?_, ?_, ?_⟩
    · intro p hp
      rcases List.mem_cons.1 hp with rfl | hp
      · -- none of the others has its name, so it stays where it is
        exact hthis.of_grows h₂.sound h₃.sound g₃ .rfl (hothers t name fun _ => hname)
      · exact hregistered p hp
    · intro token app happ
      have hne : ¬(t, name) = (token, app) := by
        intro he
        obtain ⟨rfl, rfl⟩ := Prod.ext_iff.1 he
        exact happ rfl List.mem_cons_self
      rw [hothers token app fun ht hmem => happ ht (List.mem_cons_of_mem _ hmem), hfound,
        if_neg hne]
      exact congrArg (fun t : Sorted Application.id =>
        t.toList.find? fun a => a.token = token ∧ a.name = app)
        (hsame.congr Store.applications)
    · have hfirst : s.NewAt (some r.rootDirectory)
          (fun names => names ≠ [] ∧ ∃ p ∈ (name, path) :: rest, names <+: splitPath p.2) s₂ := by
        refine .trans (hnew₁.mono ?_) (.of_eq hdirectories) h₁.sound.trees h₂.sound.trees
          g₂.directories
        rintro names ⟨more, hmore, hstart, rfl⟩
        exact ⟨hmore, _, List.mem_cons_self, hstart⟩
      refine hfirst.trans (hnew₃.mono ?_) h₂.sound.trees h₃.sound.trees g₃.directories
      exact fun names ⟨hne, p, hp, hstart⟩ => ⟨hne, p, List.mem_cons_of_mem _ hp, hstart⟩

theorem ingestRepository_of_noName {f : RepositoryFact}
    (hname : displayName f.repositoryName = "") : (ingestRepository f s).store = s := by
  unfold ingestRepository
  rw [if_pos (String.isEmpty_iff.2 hname)]
  rfl

theorem runs_ingestRepository_announced {f : RepositoryFact}
    (h : Ready owner f.landscapeToken n s) :
    Runs owner f.landscapeToken .repository (ingestRepository f) n s
      (fun reply s' => f.TakenIn s s' ∧ ∃ r, f.Announced s s' r reply)
      fun x => f.refusal = some x := by
  unfold ingestRepository
  by_cases hname : displayName f.repositoryName = ""
  · have hrefused : f.refusal = some .emptyRepositoryName := if_pos hname
    simp only [hname]
    exact Runs.fail hrefused
  · have hrefused : f.refusal = none := if_neg hname
    have hne : (displayName f.repositoryName).isEmpty = false := by
      simpa [String.isEmpty_iff] using hname
    simp only [hne, Bool.false_eq_true, if_false]
    refine Runs.bind h (runs_repositoryNamed h).never ?_
    rintro r n₁ s₁ h₁ g₁ ⟨hr, hrtoken, hrname, happ₁, hnew₁⟩
    have hrepo : s₁.HasRepository r := ⟨r, hr, .rfl⟩
    refine Runs.bind h₁ (runs_branchIn h₁ (.inl rfl) hr hrtoken).never ?_
    rintro b n₂ s₂ h₂ g₂ ⟨hb, hbrep, hbname, -, -, happ₂, hdirectories⟩
    have hnames : (f.applicationPaths.toList.map Prod.fst).Nodup := by
      rw [List.Nodup, List.pairwise_map]
      exact f.applicationPaths.ascending.imp Sorted.key_ne_of_lt
    refine Runs.bind h₂ (runs_registerApplications hrtoken hnames h₂ (hrepo.of_grows g₂)).never ?_
    rintro _ n₃ s₃ h₃ g₃ ⟨hregistered, hothers, hnew₃⟩
    refine Runs.store_bind (Runs.pure ?_)
    obtain ⟨r', hr', hk⟩ := (hrepo.of_grows g₂).of_grows g₃
    have hfind : s₃.findRepository f.landscapeToken (displayName f.repositoryName) = some r' :=
      h₃.sound.keyed.findRepository_eq_some_iff.2
        ⟨hr', hk.token.trans hrtoken, hk.name.trans hrname⟩
    refine ⟨⟨hrefused, ⟨r', hfind, fun p hp => ?_⟩, fun token name hno => ?_⟩,
      r', hfind, ?_, ?_, rfl⟩
    · obtain ⟨a, ha, hlives⟩ := hregistered p hp
      exact ⟨a, ha, hlives.of_grows h₃.sound h₃.sound .rfl hk⟩
    · rw [hothers token name hno]
      unfold Store.findApplication
      rw [happ₂, happ₁]
    · obtain ⟨_, hb₃, rfl⟩ := g₃.branches.mem hb
      exact ⟨b, h₃.sound.keyed.branches.find?_eq_some_iff.2
        ⟨hb₃, hbrep.trans hk.id.symm, hbname⟩⟩
    · rw [hk.rootDirectory]
      have hfirst := hnew₁.trans (.of_eq hdirectories) h₁.sound.trees h₂.sound.trees g₂.directories
      exact (hfirst.mono fun _ => .inl).trans (hnew₃.mono fun _ => .inr) h₂.sound.trees
        h₃.sound.trees g₃.directories

theorem runs_ingestRepository {f : RepositoryFact} (h : Ready owner f.landscapeToken n s) :
    Runs owner f.landscapeToken .repository (ingestRepository f) n s
      (fun _ s' => f.TakenIn s s') fun x => f.refusal = some x :=
  (runs_ingestRepository_announced h).mono (fun _ _ => And.left) fun _ => id

end Edit

/-- A fact with a name is taken in. -/
theorem RepositoryFact.announced {owner : NodeId → String} {n : Nat} {s : Store}
    {f : RepositoryFact} (hready : Ready owner f.landscapeToken n s)
    (hn : n + (Edit.ingestRepository f s).issued < 2 ^ 64)
    (hname : displayName f.repositoryName ≠ "") :
    ∃ reply r, (Edit.ingestRepository f s).result = .ok reply ∧
      f.TakenIn s (Edit.ingestRepository f s).store ∧
      f.Announced s (Edit.ingestRepository f s).store r reply := by
  obtain ⟨-, hok, herror⟩ := Edit.runs_ingestRepository_announced hready hn
  cases hresult : (Edit.ingestRepository f s).result with
  | ok reply =>
    obtain ⟨hin, r, h⟩ := hok reply hresult
    exact ⟨reply, r, rfl, hin, h⟩
  | error x =>
    have haccepted : f.refusal = none := if_neg hname
    cases haccepted.symm.trans (herror x hresult)

end Cityscape
