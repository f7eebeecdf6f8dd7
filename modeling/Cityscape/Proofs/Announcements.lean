import Cityscape.Proofs.Repetition
import Cityscape.Proofs.Trees

/-!
# `Announcements`: what a repository fact changes

A repository fact adds the directories that are missing on the way to its applications, puts each
of the applications into the directory at the end of its path, and touches nothing else: what is
not of its topic is out of reach (`Steps.sameContents`), and where directories may come in is told
with the run (`Store.NewAt`). Told again, it finds everything in place (`Edit.Idle`).

Main statement: after any calls, a repository fact with a name changes what it should and no more,
and may be told again (`Store.applications_placed`).
-/

namespace Cityscape

/-! ## Out of reach -/

/-- Commits and tags, files and what is declared in them, traces and spans are as they were. -/
structure Store.SameContents (s s' : Store) : Prop where
  commits : s'.commits = s.commits
  tags : s'.tags = s.tags
  files : s'.files = s.files
  classes : s'.classes = s.classes
  functions : s'.functions = s.functions
  traces : s'.traces = s.traces
  spans : s'.spans = s.spans

theorem Store.SameContents.trans {s s' s'' : Store} (h : s.SameContents s')
    (h' : s'.SameContents s'') : s.SameContents s'' where
  commits := h'.commits.trans h.commits
  tags := h'.tags.trans h.tags
  files := h'.files.trans h.files
  classes := h'.classes.trans h.classes
  functions := h'.functions.trans h.functions
  traces := h'.traces.trans h.traces
  spans := h'.spans.trans h.spans

section Steps

variable {owner : NodeId → String} {t : String} {j : Nat} {s s' : Store}

/-- A step about a repository adds repositories, branches, directories and applications only. -/
theorem Step.sameContents (h : Step owner t .repository j s s') : s.SameContents s' := by
  cases h with
  | skip | newRepository | newBranch | newDirectory | newApplication | application =>
    exact ⟨rfl, rfl, rfl, rfl, rfl, rfl, rfl⟩
  | newFile topic => rcases topic with h | ⟨_, _, h⟩ <;> cases h
  | file topic => exact absurd rfl topic
  | newFunction topic => rcases topic with h | h <;> cases h

theorem Steps.sameContents (h : Steps owner t .repository j s s') : s.SameContents s' := by
  induction h with
  | refl => exact ⟨rfl, rfl, rfl, rfl, rfl, rfl, rfl⟩
  | tail _ last ih => exact ih.trans last.sameContents

end Steps

/-! ## Places in a repository -/

namespace Store

variable {owner : NodeId → String} {n : Nat} {s s' : Store} {token name : String} {r : Repository}
  {path : List String}

/-- The names above a directory lead to it from its top. -/
theorem Trees.directoryBelow_of_topAbove (ht : s.Trees) {top d : Directory} {root : NodeId}
    (hroot : s.directories.get? root = some top) (hd : d ∈ s.directories)
    (h : s.topAbove (some d.id) = some root) :
    s.DirectoryBelow root (s.namesAbove (some d.id)) d := by
  have htop : s.topAbove (some d.id) = some top.id := by rw [h, Sorted.key_of_get? hroot]
  exact ⟨top, hroot, ht.leads_of_topAbove (Sorted.mem_of_get? hroot) d hd htop⟩

section New

variable {root : NodeId} {top d : Directory} {names : List String} {allowed : List String → Prop}

/-- A directory that has come in below the root is at an allowed path. -/
theorem NewAt.below (h : s.NewAt (some root) allowed s') (ht : s'.Trees)
    (hroot : s'.directories.get? root = some top) (hd : d ∈ s'.directories)
    (hnew : s.directories.get? d.id = none) :
    ∃ names, s'.DirectoryBelow root names d ∧ allowed names := by
  obtain ⟨hat, hallowed⟩ := h d hd hnew
  exact ⟨_, ht.directoryBelow_of_topAbove hroot hd hat, hallowed⟩

/-- At the path of a directory that has come in there was none before, for it would be there
still. -/
theorem Trees.not_directoryBelow_of_new (ht : s'.Trees)
    (g : s.directories.Grows Directory.Kept s'.directories) (hd : s'.DirectoryBelow root names d)
    (hnew : s.directories.get? d.id = none) (e : Directory) : ¬s.DirectoryBelow root names e := by
  intro he
  obtain ⟨e', he', hk⟩ := he.of_grows g
  obtain rfl := ht.directoryBelow_unique hd he'
  rw [hk.id, Sorted.get?_key he.mem] at hnew
  cases hnew

/-- At a path where there is a directory now there was one before, or the path is allowed. -/
theorem NewAt.old_or_allowed (h : s.NewAt (some root) allowed s') (ht : s.Trees) (ht' : s'.Trees)
    (g : s.directories.Grows Directory.Kept s'.directories)
    (hroot : s'.directories.get? root = some top) (hd : s'.DirectoryBelow root names d) :
    (∃ e, s.DirectoryBelow root names e) ∨ allowed names := by
  cases hold : s.directories.get? d.id with
  | some e => exact .inl ⟨e, ht.directoryBelow_of_grows ht' g hd hold⟩
  | none =>
    obtain ⟨names', hbelow, hallowed⟩ := h.below ht' hroot hd.mem hold
    obtain rfl := ht'.namesBelow_unique hd hbelow
    exact .inr hallowed

end New

/-- Where files stay as they are, a directory gets nothing but new directories. -/
theorem Trees.kept_of_same_files {d d' : Directory} (ht : s.Trees) (ht' : s'.Trees)
    (g : s.directories.Grows Directory.Kept s'.directories) (hfiles : s'.files = s.files)
    (hd : d ∈ s.directories) (hd' : d' ∈ s'.directories) (hk : d.Kept d') :
    d' = { d with subdirectories := d'.subdirectories } ∧
      ∀ x ∈ d'.subdirectories, x ∈ d.subdirectories ∨ s.directories.get? x = none := by
  have hsame : d'.fileRevisions = d.fileRevisions := by
    refine SortedSet.ext_mem fun x => ⟨fun hx => ?_, hk.fileRevisions x⟩
    obtain ⟨f, hf⟩ := Option.isSome_iff_exists.1 ((ht'.listed d' hd').2 x hx)
    obtain rfl := Sorted.key_of_get? hf
    have hparent := (ht'.files f (Sorted.mem_of_get? hf) d'.id).2 ⟨d', Sorted.get?_key hd', hx⟩
    rw [hk.id] at hparent
    obtain ⟨e, he, hmem⟩ := (ht.files f (hfiles ▸ Sorted.mem_of_get? hf) d.id).1 hparent
    rw [Sorted.get?_key hd] at he
    exact Option.some.inj he ▸ hmem
  refine ⟨?_, fun x hx => ?_⟩
  · obtain ⟨hid, hname, hparent, -, -⟩ := hk
    cases d; cases d'
    simp only at hid hname hparent hsame
    rw [hid, hname, hparent, hsame]
  · cases hold : s.directories.get? x with
    | none => exact .inr rfl
    | some c =>
      -- the parent of the child is what it was
      obtain rfl := Sorted.key_of_get? hold
      obtain ⟨c', hc', hkc⟩ := g _ _ hold
      have hparent := (ht'.directories c' (Sorted.mem_of_get? hc') d'.id).2
        ⟨d', Sorted.get?_key hd', hkc.id ▸ hx⟩
      rw [hkc.parent, hk.id] at hparent
      obtain ⟨e, he, hmem⟩ := (ht.directories c (Sorted.mem_of_get? hold) d.id).1 hparent
      rw [Sorted.get?_key hd] at he
      exact .inl (Option.some.inj he ▸ hmem)

/-- Under a name an application is found that belongs to the repository, and its directory is the
one at a path below the root, of which there is no other. -/
def PlacedAt (s : Store) (token name : String) (r : Repository) (path : List String) : Prop :=
  ∃ a d, s.findApplication token name = some a ∧ a.repository = some r.id ∧
    a.rootDirectory = d.id ∧ ∀ e, s.DirectoryBelow r.rootDirectory path e ↔ e = d

theorem Registered.placedAt (h : s.Registered token name r path) (ht : s.Trees) {top : Directory}
    (hroot : s.directories.get? r.rootDirectory = some top) : s.PlacedAt token name r path := by
  obtain ⟨a, ha, hlives⟩ := h
  obtain ⟨d, hd, hid, htop, rfl⟩ := hlives.root
  have hbelow := ht.directoryBelow_of_topAbove hroot hd htop
  refine ⟨a, d, ha, hlives.repository, hid.symm, fun e => ⟨fun he => ?_, fun he => he ▸ hbelow⟩⟩
  exact ht.directoryBelow_unique he hbelow

/-- Applications share their directory if and only if they are placed at one path. -/
theorem PlacedAt.rootDirectory_eq_iff {name' : String} {path' : List String} {a b : Application}
    (h : s.PlacedAt token name r path) (h' : s.PlacedAt token name' r path') (ht : s.Trees)
    (ha : s.findApplication token name = some a) (hb : s.findApplication token name' = some b) :
    a.rootDirectory = b.rootDirectory ↔ path = path' := by
  obtain ⟨a', d, ha', -, hd, hbelow⟩ := h
  obtain ⟨b', e, hb', -, he, hbelow'⟩ := h'
  obtain rfl := Option.some.inj (ha.symm.trans ha')
  obtain rfl := Option.some.inj (hb.symm.trans hb')
  have hat := (hbelow d).2 rfl
  have hat' := (hbelow' e).2 rfl
  rw [hd, he]
  constructor
  · intro hid
    obtain rfl := Sorted.eq_of_key_eq hat.mem hat'.mem hid
    exact ht.namesBelow_unique hat hat'
  · intro hpath
    rw [hpath] at hat
    rw [(hbelow' d).1 hat]

theorem Keyed.mem_applications_iff (h : s.Keyed) {a : Application} :
    a ∈ s.applications ↔ s.findApplication a.token a.name = some a :=
  ⟨fun ha => h.applications.find?_eq_some_iff.2 ⟨ha, rfl, rfl⟩,
    fun ha => (h.applications.find?_eq_some_iff.1 ha).1⟩

end Store

/-! ## Everything is in place -/

namespace Edit.Idle

variable {s : Store} {token name : String} {r : Repository} {root : NodeId} {d e : Directory}
  {segments : List String} {a : Application}

theorem repositoryNamed (h : s.findRepository token name = some r) :
    Idle (repositoryNamed name token) s r := by
  unfold Edit.repositoryNamed
  refine store_bind fun id => ?_
  rw [show Store.findRepository { s with nextId := id } _ _ = some r from h]
  exact pure

/-- A path of directories that is there is followed, since no two siblings have one name. -/
theorem growDirectories (ht : s.Trees) (hd : d ∈ s.directories) (h : s.Leads d segments e) :
    Idle (growDirectories d segments) s e := by
  induction segments generalizing d with
  | nil =>
    rw [Store.Leads] at h
    exact h ▸ pure
  | cons name rest ih =>
    obtain ⟨c, hc, hrest⟩ := h
    have hfirst : (s.childrenNamed d name).head? = some c := by
      cases hchildren : s.childrenNamed d name with
      | nil => rw [hchildren] at hc; exact absurd hc List.not_mem_nil
      | cons c' others =>
        have hc' : c' ∈ s.childrenNamed d name := hchildren ▸ List.mem_cons_self
        rw [ht.eq_of_childrenNamed hd hc' hc]
        rfl
    unfold Edit.growDirectories
    refine store_bind fun id => ?_
    rw [show (Store.childrenNamed { s with nextId := id } d name).head? = some c from hfirst]
    exact ih (Store.mem_of_childrenNamed hc) hrest

theorem ensureDirectories (ht : s.Trees) (h : s.DirectoryBelow root segments e) :
    Idle (ensureDirectories root segments) s e := by
  obtain ⟨d, hd, hleads⟩ := h
  unfold Edit.ensureDirectories
  refine store_bind fun id => ?_
  rw [show Sorted.get? (Store.directories { s with nextId := id }) root = some d from hd]
  exact bind pure (growDirectories ht (Sorted.mem_of_get? hd) hleads)

/-- An id is handed out, and the application is found where it should be. -/
theorem registerApplication (h : s.findApplication token name = some a)
    (hroot : a.rootDirectory = root) (hrepository : a.repository = some r.id) :
    Idle (registerApplication token name root r.id) s a := by
  refine allocate_bind fun x => ?_
  refine bind (step fun id => Store.mergeApplication_of_some (s := { s with nextId := id }) h) ?_
  rw [if_pos ⟨hroot, hrepository⟩]
  exact pure

theorem registerApplications (ht : s.Trees) {applications : List (String × String)} :
    (∀ p ∈ applications, s.PlacedAt token p.1 r (splitPath p.2)) →
      Idle (registerApplications token r applications) s () := by
  induction applications with
  | nil => exact fun _ => pure
  | cons p rest ih =>
    intro h
    obtain ⟨⟨a, d, ha, hrepository, hroot, hbelow⟩, hrest⟩ := List.forall_mem_cons.1 h
    exact bind (ensureDirectories ht ((hbelow d).2 rfl))
      (bind (registerApplication ha hroot hrepository) (ih hrest))

end Edit.Idle

/-! ## What a fact changes -/

/-- What taking in a repository fact changes, if `r` is its repository. -/
structure RepositoryFact.Changes (f : RepositoryFact) (s s' : Store) (r : Repository) : Prop
    extends s.SameContents s' where
  repository : s'.findRepository f.landscapeToken (displayName f.repositoryName) = some r
  /-- Every listed application lives at its path in the repository. -/
  placed : ∀ p ∈ f.applicationPaths, s'.PlacedAt f.landscapeToken p.1 r (splitPath p.2)
  /-- One that was known before has kept its id. -/
  keepsId : ∀ p ∈ f.applicationPaths, ∀ a, s.findApplication f.landscapeToken p.1 = some a →
    ∃ a', s'.findApplication f.landscapeToken p.1 = some a' ∧ a'.id = a.id
  /-- All other applications are as they were. -/
  others : ∀ a : Application,
    (a.token = f.landscapeToken → a.name ∉ f.applicationPaths.toList.map Prod.fst) →
      (a ∈ s'.applications ↔ a ∈ s.applications)
  /-- Applications share their directory if and only if their paths have the same segments. -/
  shared : ∀ p ∈ f.applicationPaths, ∀ q ∈ f.applicationPaths, ∀ a b,
    s'.findApplication f.landscapeToken p.1 = some a →
      s'.findApplication f.landscapeToken q.1 = some b →
      (a.rootDirectory = b.rootDirectory ↔ splitPath p.2 = splitPath q.2)
  /-- A directory stays as it is, except that it may get new directories. -/
  directoriesKept : ∀ d ∈ s.directories, ∃ subdirectories : SortedSet NodeId,
    { d with subdirectories } ∈ s'.directories ∧ (∀ x ∈ d.subdirectories, x ∈ subdirectories) ∧
      ∀ x ∈ subdirectories, x ∈ d.subdirectories ∨ s.directories.get? x = none
  /-- A new directory was missing on the way to an application, or is the root of a repository that
  is new itself. -/
  directoriesNew : ∀ d ∈ s'.directories, s.directories.get? d.id = none → ∃ names,
    s'.DirectoryBelow r.rootDirectory names d ∧
      (∀ e, ¬s.DirectoryBelow r.rootDirectory names e) ∧
      ((names = [] ∧ s.findRepository f.landscapeToken (displayName f.repositoryName) = none) ∨
        names ≠ [] ∧ ∃ p ∈ f.applicationPaths, names <+: splitPath p.2)
  /-- Now there is one directory at each path where there was one, and on the way to the
  applications. -/
  directoriesAt : ∀ names, (∃! d, s'.DirectoryBelow r.rootDirectory names d) ↔
    (∃ d, s.DirectoryBelow r.rootDirectory names d) ∨ names = [] ∨
      ∃ p ∈ f.applicationPaths, names <+: splitPath p.2

namespace RepositoryFact

variable {owner : NodeId → String} {n m : Nat} {s s' : Store} {f : RepositoryFact} {r : Repository}
  {reply : RepositoryReply}

/-- What a fact changes can be read off what it leaves behind. -/
theorem Announced.changes (h : f.Announced s s' r reply) (hin : f.TakenIn s s')
    (hs : s.Sound owner n) (hs' : s'.Sound owner m) (g : s.Grows s') (hsame : s.SameContents s') :
    f.Changes s s' r := by
  have ht := hs'.trees
  have hfiles := hsame.files
  obtain ⟨hr, -, -⟩ := Store.findRepository_spec h.repository
  obtain ⟨top, htop, -⟩ := (hs'.fitting.repositories r hr).root
  have hplaced : ∀ p ∈ f.applicationPaths,
      s'.PlacedAt f.landscapeToken p.1 r (splitPath p.2) := by
    intro p hp
    obtain ⟨r', hr', hregistered⟩ := hin.registered
    obtain rfl := Option.some.inj (h.repository.symm.trans hr')
    exact (hregistered p hp).placedAt ht htop
  constructor
  case toSameContents => exact hsame
  case repository => exact h.repository
  case placed => exact hplaced
  case keepsId =>
    intro p _ a ha
    obtain ⟨hmem, htoken, hname⟩ := hs.keyed.applications.find?_eq_some_iff.1 ha
    obtain ⟨a', ha', hk⟩ := g.applications.mem hmem
    exact ⟨a', hs'.keyed.applications.find?_eq_some_iff.2
      ⟨ha', hk.token.trans htoken, hk.name.trans hname⟩, hk.id⟩
  case others =>
    intro a hother
    rw [hs'.keyed.mem_applications_iff, hs.keyed.mem_applications_iff,
      hin.others a.token a.name hother]
  case shared =>
    intro p hp q hq a b ha hb
    exact (hplaced p hp).rootDirectory_eq_iff (hplaced q hq) ht ha hb
  case directoriesKept =>
    intro d hd
    obtain ⟨d', hd', hk⟩ := g.directories.mem hd
    obtain ⟨hsame, hold⟩ := hs.trees.kept_of_same_files ht g.directories hfiles hd hd' hk
    exact ⟨d'.subdirectories, hsame ▸ hd', hk.subdirectories, hold⟩
  case directoriesNew =>
    intro d hd hnew
    obtain ⟨names, hbelow, hallowed⟩ := h.newAt.below ht htop hd hnew
    exact ⟨names, hbelow, ht.not_directoryBelow_of_new g.directories hbelow hnew, hallowed⟩
  case directoriesAt =>
    intro names
    constructor
    · rintro ⟨d, hd, -⟩
      exact (h.newAt.old_or_allowed hs.trees ht g.directories htop hd).imp_right
        fun hallowed => hallowed.imp And.left And.right
    · intro hnames
      have hsome : ∃ d, s'.DirectoryBelow r.rootDirectory names d := by
        rcases hnames with ⟨d, hd⟩ | rfl | ⟨p, hp, hstart⟩
        · obtain ⟨d', hd', -⟩ := hd.of_grows g.directories
          exact ⟨d', hd'⟩
        · exact ⟨top, Store.directoryBelow_nil.2 htop⟩
        · obtain ⟨_, d, -, -, -, hbelow⟩ := hplaced p hp
          exact ((hbelow d).2 rfl).of_start hstart
      obtain ⟨d, hd⟩ := hsome
      exact ⟨d, hd, fun e he => ht.directoryBelow_unique he hd⟩

/-- Once everything is in place, taking in the fact yields the same reply and changes nothing. -/
theorem Announced.idle (h : f.Announced s s' r reply) (hname : displayName f.repositoryName ≠ "")
    (ht : s'.Trees) (hplaced : ∀ p ∈ f.applicationPaths,
      s'.PlacedAt f.landscapeToken p.1 r (splitPath p.2)) :
    Edit.Idle (Edit.ingestRepository f) s' reply := by
  obtain ⟨b, hb⟩ := h.branch
  unfold Edit.ingestRepository
  simp only [mt String.isEmpty_iff.1 hname, Bool.false_eq_true, if_false]
  refine .bind (.repositoryNamed h.repository) (.bind (.branchIn hb) ?_)
  refine .bind (.registerApplications ht hplaced) (.store_bind fun id => ?_)
  rw [h.reply]
  exact .pure

end RepositoryFact

/-- A fact with an application that spans have shown before, another one at the same path, and one
at the root of the repository. -/
def RepositoryFact.sampleShared : RepositoryFact :=
  { landscapeToken := "t", repositoryName := "org/shop/", branchName := "dev"
    applicationPaths := Sorted.ofList [("web", "src/web"), ("api", "/src//web/"), ("all", "")] }

namespace Store

/-- After any calls, taking in a repository fact with a name places its applications, adds the
directories that are missing for that, and changes nothing else. Told again, it gets the same reply
and changes nothing but the next id. -/
theorem applications_placed (calls : List Ingestion) (f : RepositoryFact)
    (hids : (∅ : Store).idsIssued (calls ++ [.repository f]) < 2 ^ 64)
    (hname : displayName f.repositoryName ≠ "") :
    ∃ reply r, (Edit.ingestRepository f ((∅ : Store).after calls)).result = .ok reply ∧
      f.Changes ((∅ : Store).after calls)
        (Edit.ingestRepository f ((∅ : Store).after calls)).store r ∧
      ∃ next issued,
        Edit.ingestRepository f (Edit.ingestRepository f ((∅ : Store).after calls)).store =
          { result := .ok reply
            store := { (Edit.ingestRepository f ((∅ : Store).after calls)).store with
              nextId := next }
            issued } := by
  obtain ⟨owner, n, hready, hn⟩ := ready_after_empty calls (.repository f) hids
  generalize (∅ : Store).after calls = s at hready hn
  rw [(Ingestion.effect_repository s f).2] at hn
  obtain ⟨reply, r, hok, hin, h⟩ := RepositoryFact.announced hready hn hname
  obtain ⟨hsteps, -⟩ := Edit.runs_ingestRepository hready hn
  obtain ⟨hs', g⟩ := hsteps.sound_and_grows hready.sound hn
  have hsame := hsteps.sameContents
  generalize (Edit.ingestRepository f s).store = s' at h hin hs' g hsame
  have hchanges := h.changes hin hready.sound hs' g hsame
  exact ⟨reply, r, hok, hchanges, h.idle hname hs'.trees hchanges.placed s'.nextId⟩

theorem applications_placed_sample :
    (∅ : Store).idsIssued (Ingestion.sample ++ [.repository .sampleShared]) < 2 ^ 64 ∧
      displayName RepositoryFact.sampleShared.repositoryName ≠ "" ∧
      (((∅ : Store).after Ingestion.sample).findApplication "t" "web").isSome ∧
      ∃ reply r, (Edit.ingestRepository .sampleShared
          ((∅ : Store).after Ingestion.sample)).result = .ok reply ∧
        RepositoryFact.sampleShared.Changes ((∅ : Store).after Ingestion.sample)
          (Edit.ingestRepository .sampleShared ((∅ : Store).after Ingestion.sample)).store r ∧
        ∃ next issued,
          Edit.ingestRepository .sampleShared
              (Edit.ingestRepository .sampleShared ((∅ : Store).after Ingestion.sample)).store =
            { result := .ok reply
              store := { (Edit.ingestRepository .sampleShared
                ((∅ : Store).after Ingestion.sample)).store with nextId := next }
              issued } := by
  have hids : (∅ : Store).idsIssued (Ingestion.sample ++ [.repository .sampleShared]) < 2 ^ 64 := by
    decide +kernel
  have hname : displayName RepositoryFact.sampleShared.repositoryName ≠ "" := by decide +kernel
  exact ⟨hids, hname, by decide +kernel,
    applications_placed Ingestion.sample .sampleShared hids hname⟩

end Store

end Cityscape
