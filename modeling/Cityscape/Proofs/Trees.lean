import Cityscape.Proofs.Growth
import Mathlib.Data.List.Induction

/-!
# `Trees`: what is at a path, and what comes in there

A store whose directories and files form trees need not have come from ingestion. In any such store
a directory or file that comes in below another one leaves trees again (`Store.Trees.withDirectory`,
`Store.Trees.withFile`), and what was there before stays at the paths where it was. So adding the
rest of a path adds a directory for each name on it and a file, and changes one directory only
(`Edit.growPath_appends`).
-/

namespace Cityscape

namespace Store

variable {s s' : Store} {n : Nat} {root : NodeId} {names more segments : List String}
  {name : String} {p d e : Directory} {f : FileRevision}

/-! ## What is at a path -/

/-- The directory to which names lead from the one with the given id. -/
def DirectoryBelow (s : Store) (root : NodeId) (names : List String) (e : Directory) : Prop :=
  ∃ d, s.directories.get? root = some d ∧ s.Leads d names e

/-- A file at the end of a path below the directory with the given id. -/
def FileBelow (s : Store) (root : NodeId) (segments : List String) (f : FileRevision) : Prop :=
  ∃ before e, segments = before ++ [f.name] ∧ s.DirectoryBelow root before e ∧
    f.id ∈ e.fileRevisions ∧ s.files.get? f.id = some f

theorem DirectoryBelow.mem (h : s.DirectoryBelow root names e) : e ∈ s.directories := by
  obtain ⟨d, hd, hleads⟩ := h
  exact mem_of_leads (Sorted.mem_of_get? hd) hleads

theorem directoryBelow_nil :
    s.DirectoryBelow root [] e ↔ s.directories.get? root = some e := by
  constructor
  · rintro ⟨d, hd, hleads⟩
    rw [Leads] at hleads
    rwa [hleads]
  · exact fun he => ⟨e, he, rfl⟩

theorem directoryBelow_append :
    s.DirectoryBelow root (names ++ more) e ↔
      ∃ m, s.DirectoryBelow root names m ∧ s.DirectoryBelow m.id more e := by
  constructor
  · rintro ⟨d, hd, hleads⟩
    obtain ⟨m, hm, he⟩ := leads_append.1 hleads
    have hget := Sorted.get?_key (mem_of_leads (Sorted.mem_of_get? hd) hm)
    exact ⟨m, ⟨d, hd, hm⟩, m, hget, he⟩
  · rintro ⟨m, ⟨d, hd, hm⟩, m', hm', he⟩
    rw [Sorted.get?_key (mem_of_leads (Sorted.mem_of_get? hd) hm)] at hm'
    obtain rfl := Option.some.inj hm'
    exact ⟨d, hd, leads_append.2 ⟨m, hm, he⟩⟩

/-- On the way to a directory there are directories. -/
theorem DirectoryBelow.of_start (h : s.DirectoryBelow root segments e)
    (hstart : names <+: segments) : ∃ d, s.DirectoryBelow root names d := by
  obtain ⟨more, rfl⟩ := hstart
  obtain ⟨d, hd, -⟩ := directoryBelow_append.1 h
  exact ⟨d, hd⟩

theorem directoryBelow_concat :
    s.DirectoryBelow root (names ++ [name]) e ↔
      ∃ m, s.DirectoryBelow root names m ∧ e ∈ s.childrenNamed m name := by
  rw [directoryBelow_append]
  refine exists_congr fun m => and_congr_right fun hm => ?_
  constructor
  · rintro ⟨m', hm', hleads⟩
    rw [Sorted.get?_key hm.mem] at hm'
    obtain rfl := Option.some.inj hm'
    exact leads_single.1 hleads
  · exact fun he => ⟨m, Sorted.get?_key hm.mem, leads_single.2 he⟩

theorem Trees.directoryBelow_unique (ht : s.Trees) (h : s.DirectoryBelow root names d)
    (h' : s.DirectoryBelow root names e) : d = e := by
  obtain ⟨r, hr, hleads⟩ := h
  obtain ⟨r', hr', hleads'⟩ := h'
  obtain rfl := Option.some.inj (hr.symm.trans hr')
  exact ht.leads_unique (Sorted.mem_of_get? hr) hleads hleads'

theorem leads_congr (hd : s'.directories = s.directories) :
    s'.Leads d names e ↔ s.Leads d names e := by
  induction names generalizing d with
  | nil => exact Iff.rfl
  | cons name rest ih => simp only [Leads, childrenNamed, hd, ih]

/-- What is at a path shows in the directories and files only. -/
theorem fileBelow_congr (hd : s'.directories = s.directories) (hf : s'.files = s.files) :
    s'.FileBelow root segments f ↔ s.FileBelow root segments f := by
  simp only [FileBelow, DirectoryBelow, leads_congr hd, hd, hf]

/-- Below a directory the rest of a path is what it is from there. -/
theorem FileBelow.under (hd : s.DirectoryBelow root names d) (h : s.FileBelow d.id segments f) :
    s.FileBelow root (names ++ segments) f := by
  obtain ⟨before, e, path, he, hmem, hget⟩ := h
  exact ⟨names ++ before, e, by rw [path, List.append_assoc],
    directoryBelow_append.2 ⟨d, hd, he⟩, hmem, hget⟩

/-- The directories on the way to a file are there. -/
theorem FileBelow.directoryBelow (h : s.FileBelow root segments f) (hstart : names <+: segments)
    (hproper : names ≠ segments) : ∃ e, s.DirectoryBelow root names e := by
  obtain ⟨before, e, path, he, -⟩ := h
  rw [path] at hstart hproper
  exact he.of_start ((List.prefix_concat_iff.1 hstart).resolve_left hproper)

/-- The path of a file is made of the names above a directory and those from there on. -/
theorem Trees.relativePath_of_fileBelow (ht : s.Trees) (h : s.FileBelow root segments f) :
    s.relativePath f = s.namesAbove (some root) ++ segments := by
  obtain ⟨before, e, path, ⟨d, hd, hleads⟩, hmem, hget⟩ := h
  have hdmem := Sorted.mem_of_get? hd
  have hparent := (ht.files f (Sorted.mem_of_get? hget) e.id).2
    ⟨e, Sorted.get?_key (mem_of_leads hdmem hleads), hmem⟩
  rw [relativePath_eq, hparent, ht.namesAbove_of_leads hdmem hleads, Sorted.key_of_get? hd, path,
    List.append_assoc]

theorem Trees.namesBelow_unique (ht : s.Trees) (h : s.DirectoryBelow root names e)
    (h' : s.DirectoryBelow root more e) : names = more := by
  obtain ⟨r, hr, hleads⟩ := h
  obtain ⟨r', hr', hleads'⟩ := h'
  obtain rfl := Option.some.inj (hr.symm.trans hr')
  exact ht.names_unique (Sorted.mem_of_get? hr) hleads hleads'

/-- A file is at a path, and allowed, where a search may end with it. -/
theorem fileBelow_iff {allowed : NodeId → Bool} (hd : s.directories.get? root = some d) :
    s.FileBelow root segments f ∧ allowed f.id = true ↔
      ∃ before name e, segments = before ++ [name] ∧ s.Leads d before e ∧
        f ∈ s.filesNamed allowed e name := by
  constructor
  · rintro ⟨⟨before, e, path, ⟨d', hd', hleads⟩, hmem, hget⟩, hallowed⟩
    obtain rfl := Option.some.inj (hd.symm.trans hd')
    exact ⟨before, f.name, e, path, hleads, mem_filesNamed.2 ⟨hmem, hallowed, hget, rfl⟩⟩
  · rintro ⟨before, name, e, path, hleads, hf⟩
    obtain ⟨hmem, hallowed, hget, rfl⟩ := mem_filesNamed.1 hf
    exact ⟨⟨before, e, path, ⟨d, hd, hleads⟩, hmem, hget⟩, hallowed⟩

/-! ## What is at a path in a larger store -/

theorem Leads.of_grows (g : s.directories.Grows Directory.Kept s'.directories) :
    ∀ {names : List String} {d d' : Directory}, d.Kept d' → s.Leads d names e →
      ∃ e', s'.Leads d' names e' ∧ e.Kept e'
  | [], d, d', hk, h => by
    rw [Leads] at h
    exact ⟨d', rfl, h ▸ hk⟩
  | name :: rest, d, d', hk, h => by
    obtain ⟨c, hc, hrest⟩ := h
    obtain ⟨hx, hget, hname⟩ := mem_childrenNamed.1 hc
    obtain ⟨c', hget', hkc⟩ := g _ _ hget
    obtain ⟨e', he', hke⟩ := Leads.of_grows g hkc hrest
    rw [← hkc.id] at hget'
    exact ⟨e', ⟨c', mem_childrenNamed.2
      ⟨hkc.id ▸ hk.subdirectories _ hx, hget', hkc.name.trans hname⟩, he'⟩, hke⟩

theorem DirectoryBelow.of_grows (g : s.directories.Grows Directory.Kept s'.directories)
    (h : s.DirectoryBelow root names e) : ∃ e', s'.DirectoryBelow root names e' ∧ e.Kept e' := by
  obtain ⟨d, hd, hleads⟩ := h
  obtain ⟨d', hd', hk⟩ := g _ _ hd
  obtain ⟨e', he', hke⟩ := hleads.of_grows g hk
  exact ⟨e', ⟨d', hd', he'⟩, hke⟩

/-- A directory that was there before is at no new path. -/
theorem Trees.directoryBelow_of_grows (ht : s.Trees) (ht' : s'.Trees)
    (g : s.directories.Grows Directory.Kept s'.directories) {e' : Directory}
    (h : s'.DirectoryBelow root names e') (he : s.directories.get? e'.id = some e) :
    s.DirectoryBelow root names e := by
  induction names using List.reverseRecOn generalizing e e' with
  | nil =>
    rw [directoryBelow_nil] at h ⊢
    rwa [← Sorted.key_of_get? h]
  | append_singleton names name ih =>
    rw [directoryBelow_concat] at h ⊢
    obtain ⟨m', hm', hchild⟩ := h
    obtain ⟨-, hget', hname⟩ := mem_childrenNamed.1 hchild
    -- the parent is what it was, and it was there
    obtain ⟨e₁, he₁, hk⟩ := g _ _ he
    obtain rfl := Option.some.inj (hget'.symm.trans he₁)
    have hparent := ht'.parent_of_childrenNamed hm'.mem hchild
    rw [hk.parent] at hparent
    obtain ⟨m, hm, hmem⟩ := (ht.directories e (Sorted.mem_of_get? he) _).1 hparent
    exact ⟨m, ih hm' hm, mem_childrenNamed.2
      ⟨hmem, Sorted.get?_key (Sorted.mem_of_get? he), hk.name.symm.trans hname⟩⟩

/-- So is a file. -/
theorem Trees.fileBelow_of_grows (ht : s.Trees) (ht' : s'.Trees)
    (g : s.directories.Grows Directory.Kept s'.directories) (hf : f ∈ s.files)
    (h : s'.FileBelow root segments f) : s.FileBelow root segments f := by
  obtain ⟨before, e', path, he', hmem', hget'⟩ := h
  have hparent := (ht'.files f (Sorted.mem_of_get? hget') e'.id).2
    ⟨e', Sorted.get?_key he'.mem, hmem'⟩
  obtain ⟨e, he, hmem⟩ := (ht.files f hf e'.id).1 hparent
  exact ⟨before, e, path, ht.directoryBelow_of_grows ht' g he' he, hmem, Sorted.get?_key hf⟩

/-! ## One node more -/

/-- Below any directory a file may come in; that the tokens of ids differ does not matter here. -/
theorem step_withFile (hp : p ∈ s.directories) (name : String) :
    Step (fun _ => "") "" .span 1 s (s.withFile p name) := .newFile (.inl rfl) hp rfl rfl

/-- So may a directory with a new name. -/
theorem step_withDirectory (hp : p ∈ s.directories) (hfree : s.childrenNamed p name = []) :
    Step (fun _ => "") "" .span 1 s (s.withDirectory p name) :=
  .newDirectory nofun hp rfl (childrenNamed_eq_nil.1 hfree) rfl

/-- Siblings that were there before still have different names. -/
theorem Trees.eq_of_siblings (ht : s.Trees)
    (g : s.directories.Grows Directory.Kept s'.directories) (hd : d ∈ s.directories)
    {x y : NodeId} (hx : x ∈ d.subdirectories) (hy : y ∈ d.subdirectories) {c e : Directory}
    (hc : s'.directories.get? x = some c) (he : s'.directories.get? y = some e)
    (hname : c.name = e.name) : c = e := by
  obtain ⟨c₀, hc₀, -⟩ := ht.subdirectory hd hx
  obtain ⟨e₀, he₀, -⟩ := ht.subdirectory hd hy
  obtain ⟨c', hc', hkc⟩ := g _ _ hc₀
  obtain ⟨e', he', hke⟩ := g _ _ he₀
  obtain rfl := Option.some.inj (hc.symm.trans hc')
  obtain rfl := Option.some.inj (he.symm.trans he')
  rw [hkc.name, hke.name] at hname
  obtain rfl := ht.siblings d hd x hx y hy c₀ e₀ hc₀ he₀ hname
  rw [← Sorted.key_of_get? hc, hkc.id, ← hke.id, Sorted.key_of_get? he, he] at hc
  exact (Option.some.inj hc).symm

section Directory

variable (hnew : s.directories.get? ⟨s.nextId⟩ = none) (hp : p ∈ s.directories)
include hnew hp

theorem subdirectory_withDirectory_iff {q x : NodeId} :
    (∃ e, (s.withDirectory p name).directories.get? q = some e ∧ x ∈ e.subdirectories) ↔
      (q = p.id ∧ x = ⟨s.nextId⟩) ∨
        ∃ e, s.directories.get? q = some e ∧ x ∈ e.subdirectories := by
  have hget := Sorted.get?_key hp
  rw [get?_withDirectory]
  by_cases hq : q = ⟨s.nextId⟩
  · rw [if_pos hq, hq, hnew]
    constructor
    · rintro ⟨e, he, hx⟩
      cases he
      exact absurd hx (Sorted.not_mem_empty x)
    · rintro (⟨hid, -⟩ | ⟨e, he, -⟩)
      · rw [← hid, hnew] at hget
        cases hget
      · cases he
  rw [if_neg hq]
  by_cases hqp : q = p.id
  · rw [if_pos hqp, hqp, hget]
    simp [SortedSet.mem_insert]
  · simp [hqp]

theorem file_withDirectory_iff {q x : NodeId} :
    (∃ e, (s.withDirectory p name).directories.get? q = some e ∧ x ∈ e.fileRevisions) ↔
      ∃ e, s.directories.get? q = some e ∧ x ∈ e.fileRevisions := by
  have hget := Sorted.get?_key hp
  rw [get?_withDirectory]
  by_cases hq : q = ⟨s.nextId⟩
  · rw [if_pos hq, hq, hnew]
    constructor
    · rintro ⟨e, he, hx⟩
      cases he
      exact absurd hx (Sorted.not_mem_empty x)
    · rintro ⟨e, he, -⟩
      cases he
  rw [if_neg hq]
  by_cases hqp : q = p.id
  · rw [if_pos hqp, hqp, hget]
    simp
  · rw [if_neg hqp]

end Directory

/-- What the directories list is still there when the store has grown. -/
theorem Trees.listed_of_grows {s' : Store} (ht : s.Trees) (g : s.Grows s') {d : Directory}
    (hd : d ∈ s.directories) : (∀ x ∈ d.subdirectories, (s'.directories.get? x).isSome) ∧
      ∀ x ∈ d.fileRevisions, (s'.files.get? x).isSome := by
  constructor
  · intro x hx
    obtain ⟨c, hc⟩ := Option.isSome_iff_exists.1 ((ht.listed d hd).1 x hx)
    obtain ⟨c', hc', -⟩ := g.directories _ _ hc
    exact Option.isSome_of_eq_some hc'
  · intro x hx
    obtain ⟨f, hf⟩ := Option.isSome_iff_exists.1 ((ht.listed d hd).2 x hx)
    obtain ⟨f', hf', -⟩ := g.files _ _ hf
    exact Option.isSome_of_eq_some hf'

section NewDirectory

variable (ht : s.Trees) (hs : s.Numbered n) (hn : n + 1 < 2 ^ 64) (hp : p ∈ s.directories)
  (hfree : s.childrenNamed p name = [])

include ht hs hn hp

/-- The way up from a new directory is one step longer than that from its parent. -/
theorem Trees.acyclic_withDirectory : ∀ d ∈ (s.withDirectory p name).directories,
    ¬Relation.TransGen (s.withDirectory p name).Above d d := by
  let length : NodeId → Nat := fun q => (climb s.directories.toList (some q)).length
  have hold : ∀ d ∈ s.directories, d.id ≠ ⟨s.nextId⟩ := fun d hd =>
    hs.ne_next hn (hs.directories d hd)
  have hup : ∀ d ∈ s.directories, ∀ q, d.parent = some q →
      Function.update length ⟨s.nextId⟩ (length p.id + 1) q
        < Function.update length ⟨s.nextId⟩ (length p.id + 1) d.id := by
    intro d hd q hq
    obtain ⟨e, he, -⟩ := (ht.directories d hd q).1 hq
    have hne : q ≠ ⟨s.nextId⟩ := Sorted.key_of_get? he ▸ hold e (Sorted.mem_of_get? he)
    rw [Function.update_of_ne hne, Function.update_of_ne (hold d hd)]
    exact ht.length_climb_lt hd hq
  refine acyclic_of_rank (Function.update length ⟨s.nextId⟩ (length p.id + 1))
    fun d hd q hq => ?_
  rcases Sorted.mem_insert.1 hd with rfl | ⟨hd, -⟩
  · cases hq
    rw [Function.update_of_ne (hold p hp), Function.update_self]
    exact Nat.lt_succ_self _
  rcases Sorted.mem_insert.1 hd with rfl | ⟨hd, -⟩
  · exact hup p hp q hq
  · exact hup d hd q hq

include hfree

/-- The siblings of a directory with a new name have other names. -/
theorem Trees.siblings_withDirectory : ∀ d ∈ (s.withDirectory p name).directories,
    ∀ x ∈ d.subdirectories, ∀ y ∈ d.subdirectories, ∀ c e,
      (s.withDirectory p name).directories.get? x = some c →
        (s.withDirectory p name).directories.get? y = some e → c.name = e.name → c = e := by
  have g := ((step_withDirectory hp hfree).grows hs hn).directories
  have hget : (s.withDirectory p name).directories.get? ⟨s.nextId⟩
      = some { id := ⟨s.nextId⟩, name, parent := some p.id } := Sorted.get?_insert_self _ _
  have other : ∀ x ∈ p.subdirectories, ∀ c,
      (s.withDirectory p name).directories.get? x = some c → c.name ≠ name := by
    intro x hx c hc
    obtain ⟨c₀, hc₀, -⟩ := ht.subdirectory hp hx
    obtain ⟨c', hc', hk⟩ := g _ _ hc₀
    obtain rfl := Option.some.inj (hc'.symm.trans hc)
    rw [hk.name]
    exact childrenNamed_eq_nil.1 hfree x hx c₀ hc₀
  intro d hd x hx y hy c e hc he hname
  rcases Sorted.mem_insert.1 hd with rfl | ⟨hd, -⟩
  · exact absurd hx (Sorted.not_mem_empty x)
  rcases Sorted.mem_insert.1 hd with rfl | ⟨hd, -⟩
  · rcases SortedSet.mem_insert.1 hx with rfl | hx <;>
      rcases SortedSet.mem_insert.1 hy with rfl | hy
    · exact Option.some.inj (hc.symm.trans he)
    · rw [hget] at hc
      cases hc
      exact absurd hname.symm (other y hy e he)
    · rw [hget] at he
      cases he
      exact absurd hname (other x hx c hc)
    · exact ht.eq_of_siblings g hp hx hy hc he hname
  · exact ht.eq_of_siblings g hd hx hy hc he hname

/-- Trees stay trees when a directory with a new name comes in. -/
theorem Trees.withDirectory : (s.withDirectory p name).Trees := by
  have hnew := hs.get?_next hn hs.directories
  have g := (step_withDirectory hp hfree).grows hs hn
  have hunlisted : ∀ q e, s.directories.get? q = some e → ⟨s.nextId⟩ ∉ e.subdirectories := by
    intro q e he hmem
    obtain ⟨c, hc, -⟩ := ht.subdirectory (Sorted.mem_of_get? he) hmem
    rw [hnew] at hc
    cases hc
  constructor
  case directories =>
    intro d hd q
    rw [subdirectory_withDirectory_iff hnew hp]
    rcases Sorted.mem_insert.1 hd with rfl | ⟨hd, hne⟩
    · constructor
      · intro hq
        exact .inl ⟨(Option.some.inj hq).symm, rfl⟩
      · rintro (⟨rfl, -⟩ | ⟨e, he, hmem⟩)
        · rfl
        · exact absurd hmem (hunlisted q e he)
    have hother : ¬(q = p.id ∧ d.id = ⟨s.nextId⟩) := fun h => hne h.2
    rw [or_iff_right hother]
    rcases Sorted.mem_insert.1 hd with rfl | ⟨hd, -⟩
    · exact ht.directories p hp q
    · exact ht.directories d hd q
  case files =>
    intro f hf q
    rw [file_withDirectory_iff hnew hp]
    exact ht.files f hf q
  case listed =>
    intro d hd
    rcases Sorted.mem_insert.1 hd with rfl | ⟨hd, -⟩
    · exact ⟨fun x hx => absurd hx (Sorted.not_mem_empty x),
        fun x hx => absurd hx (Sorted.not_mem_empty x)⟩
    rcases Sorted.mem_insert.1 hd with rfl | ⟨hd, -⟩
    · obtain ⟨hsub, hfiles⟩ := ht.listed_of_grows g hp
      exact ⟨SortedSet.forall_mem_insert
        (Option.isSome_of_eq_some (Sorted.get?_insert_self _ _)) hsub, hfiles⟩
    · exact ht.listed_of_grows g hd
  case acyclic => exact ht.acyclic_withDirectory hs hn hp
  case siblings => exact ht.siblings_withDirectory hs hn hp hfree

end NewDirectory

section File

variable (hp : p ∈ s.directories)
include hp

theorem subdirectory_withFile_iff {q x : NodeId} :
    (∃ e, (s.withFile p name).directories.get? q = some e ∧ x ∈ e.subdirectories) ↔
      ∃ e, s.directories.get? q = some e ∧ x ∈ e.subdirectories := by
  unfold withFile
  rw [Sorted.get?_insert]
  by_cases hq : q = p.id
  · rw [if_pos hq, hq, Sorted.get?_key hp]
    simp
  · rw [if_neg hq]

theorem file_withFile_iff {q x : NodeId} :
    (∃ e, (s.withFile p name).directories.get? q = some e ∧ x ∈ e.fileRevisions) ↔
      (q = p.id ∧ x = ⟨s.nextId⟩) ∨
        ∃ e, s.directories.get? q = some e ∧ x ∈ e.fileRevisions := by
  unfold withFile
  rw [Sorted.get?_insert]
  by_cases hq : q = p.id
  · rw [if_pos hq, hq, Sorted.get?_key hp]
    simp [SortedSet.mem_insert]
  · simp [hq]

end File

/-- Trees stay trees when a file comes in. -/
theorem Trees.withFile (ht : s.Trees) (hs : s.Numbered n) (hn : n + 1 < 2 ^ 64)
    (hp : p ∈ s.directories) : (s.withFile p name).Trees := by
  have hnew := hs.get?_next hn hs.files
  have g := (step_withFile hp name).grows hs hn
  constructor
  case directories =>
    intro d hd q
    rw [subdirectory_withFile_iff hp]
    rcases Sorted.mem_insert.1 hd with rfl | ⟨hd, -⟩
    · exact ht.directories p hp q
    · exact ht.directories d hd q
  case files =>
    intro f hf q
    rw [file_withFile_iff hp]
    rcases Sorted.mem_insert.1 hf with rfl | ⟨hf, hne⟩
    · constructor
      · intro hq
        exact .inl ⟨(Option.some.inj hq).symm, rfl⟩
      · rintro (⟨rfl, -⟩ | ⟨e, he, hmem⟩)
        · rfl
        · have hlisted := (ht.listed e (Sorted.mem_of_get? he)).2 _ hmem
          rw [hnew] at hlisted
          cases hlisted
    · rw [or_iff_right fun h => hne h.2]
      exact ht.files f hf q
  case listed =>
    intro d hd
    rcases Sorted.mem_insert.1 hd with rfl | ⟨hd, -⟩
    · obtain ⟨hsub, hfiles⟩ := ht.listed_of_grows g hp
      exact ⟨hsub, SortedSet.forall_mem_insert
        (Option.isSome_of_eq_some (Sorted.get?_insert_self _ _)) hfiles⟩
    · exact ht.listed_of_grows g hd
  case acyclic =>
    refine acyclic_of_rank (fun q => (climb s.directories.toList (some q)).length)
      fun d hd q hq => ?_
    rcases Sorted.mem_insert.1 hd with rfl | ⟨hd, -⟩
    · exact ht.length_climb_lt hp hq
    · exact ht.length_climb_lt hd hq
  case siblings =>
    intro d hd x hx y hy c e hc he hname
    rcases Sorted.mem_insert.1 hd with rfl | ⟨hd, -⟩
    · exact ht.eq_of_siblings g.directories hp hx hy hc he hname
    · exact ht.eq_of_siblings g.directories hd hx hy hc he hname

/-! ## Adding the rest of a path -/

/-- A directory has got a new child, which knows its parent. All other directories are as they
were. -/
structure Attaches (s : Store) (e : Directory) (s' : Store) : Prop where
  others : ∀ d ∈ s.directories, d.id ≠ e.id → d ∈ s'.directories
  child :
    (∃ c ∈ s'.directories, s.directories.get? c.id = none ∧ c.parent = some e.id ∧
      { e with subdirectories := e.subdirectories.insert c.id } ∈ s'.directories) ∨
    ∃ f ∈ s'.files, s.files.get? f.id = none ∧ f.parent = some e.id ∧
      { e with fileRevisions := e.fileRevisions.insert f.id } ∈ s'.directories

theorem Attaches.grows (h : s.Attaches e s') (he : e ∈ s.directories) :
    s.directories.Grows Directory.Kept s'.directories := by
  intro i d hd
  obtain rfl := Sorted.key_of_get? hd
  by_cases hid : d.id = e.id
  · obtain rfl := Sorted.eq_of_key_eq (Sorted.mem_of_get? hd) he hid
    obtain ⟨d', hmem, hk⟩ : ∃ d' ∈ s'.directories, d.Kept d' := by
      rcases h.child with ⟨c, -, -, -, hmem⟩ | ⟨f, -, -, -, hmem⟩
      · exact ⟨_, hmem, { Directory.Kept.rfl with
          subdirectories := fun _ hx => SortedSet.mem_insert.2 (.inr hx) }⟩
      · exact ⟨_, hmem, { Directory.Kept.rfl with
          fileRevisions := fun _ hx => SortedSet.mem_insert.2 (.inr hx) }⟩
    exact ⟨d', hk.id ▸ Sorted.get?_key hmem, hk⟩
  · exact ⟨d, Sorted.get?_key (h.others d (Sorted.mem_of_get? hd) hid), .rfl⟩

/-- The rest of a path has been added below a directory: the file at its end, and a directory for
each of the names before the last one. -/
structure Appends (n : Nat) (s : Store) (d : Directory) (rest : List String) (f : FileRevision)
    (s' : Store) : Prop where
  trees : s'.Trees
  numbered : s'.Numbered (n + rest.length)
  adds : s.AddsFile f s'
  blank : f = { id := f.id, name := f.name, parent := f.parent }
  attaches : s.Attaches d s'
  fileBelow : s'.FileBelow d.id rest f
  onPath : ∀ e ∈ s'.directories, s.directories.get? e.id = none →
    ∃ names, names ≠ [] ∧ names <+: rest ∧ names ≠ rest ∧ s'.DirectoryBelow d.id names e

/-- Adding a file adds a path of one name. -/
theorem appends_withFile (ht : s.Trees) (hs : s.Numbered n) (hn : n + 1 < 2 ^ 64)
    (hd : d ∈ s.directories) :
    s.Appends n d [name] { id := ⟨s.nextId⟩, name, parent := some d.id } (s.withFile d name) := by
  have hnew := hs.get?_next hn hs.files
  have hget : (s.withFile d name).directories.get? d.id
      = some { d with fileRevisions := d.fileRevisions.insert ⟨s.nextId⟩ } :=
    Sorted.get?_insert_self _ _
  have hfile : { id := ⟨s.nextId⟩, name, parent := some d.id } ∈ (s.withFile d name).files :=
    Sorted.mem_insert_self _ _
  constructor
  case trees => exact ht.withFile hs hn hd
  case numbered => exact (step_withFile hd name).numbered hs hn
  case adds => exact ⟨.refl _, .refl _, hnew, .refl _⟩
  case blank => rfl
  case attaches =>
    exact {
      others := fun e he hne => Sorted.mem_insert.2 (.inr ⟨he, hne⟩)
      child := .inr ⟨_, hfile, hnew, .refl _, Sorted.mem_of_get? hget⟩ }
  case fileBelow =>
    exact ⟨[], _, .refl _, directoryBelow_nil.2 hget, SortedSet.mem_insert.2 (.inl rfl),
      Sorted.get?_key hfile⟩
  case onPath =>
    intro e he hfree
    rcases Sorted.mem_insert.1 he with rfl | ⟨he, -⟩
    · rw [Sorted.get?_key hd] at hfree
      cases hfree
    · rw [Sorted.get?_key he] at hfree
      cases hfree

/-- Adding a directory, and the rest of a path below it, adds the path. -/
theorem Appends.cons {rest : List String} (hs : s.Numbered n) (hn : n + 1 < 2 ^ 64)
    (hd : d ∈ s.directories) (hrest : rest ≠ [])
    (h : (s.withDirectory d name).Appends (n + 1)
      { id := ⟨s.nextId⟩, name, parent := some d.id } rest f s') :
    s.Appends n d (name :: rest) f s' := by
  have hnew := hs.get?_next hn hs.directories
  have hne := hs.ne_next hn (hs.directories d hd)
  have hchild : { id := ⟨s.nextId⟩, name, parent := some d.id }
      ∈ (s.withDirectory d name).directories := Sorted.mem_insert_self _ _
  have hparent : (s.withDirectory d name).directories.get? d.id
      = some { d with subdirectories := d.subdirectories.insert ⟨s.nextId⟩ } := by
    rw [get?_withDirectory, if_neg hne, if_pos rfl]
  have hbelow : (s.withDirectory d name).DirectoryBelow d.id [name]
      { id := ⟨s.nextId⟩, name, parent := some d.id } :=
    ⟨_, hparent, leads_single.2 (mem_childrenNamed.2
      ⟨SortedSet.mem_insert.2 (.inl rfl), Sorted.get?_key hchild, rfl⟩)⟩
  obtain ⟨c, hc, hk⟩ := hbelow.of_grows (h.attaches.grows hchild)
  have hid : c.id = ⟨s.nextId⟩ := hk.id
  have down : ∀ {names : List String} {e : Directory},
      s'.DirectoryBelow ⟨s.nextId⟩ names e → s'.DirectoryBelow d.id (name :: names) e := by
    intro names e he
    rw [← hid] at he
    have hdown : s'.DirectoryBelow d.id ([name] ++ names) e :=
      directoryBelow_append.2 ⟨c, hc, he⟩
    exact hdown
  constructor
  case trees => exact h.trees
  case numbered =>
    have hcount : n + (name :: rest).length = n + 1 + rest.length := by
      rw [List.length_cons]
      omega
    rw [hcount]
    exact h.numbered
  case adds =>
    have hbeside : s.SameBesideTree (s.withDirectory d name) := .refl _
    exact ⟨hbeside.trans h.adds.beside, h.adds.files, h.adds.fresh, h.adds.functions⟩
  case blank => exact h.blank
  case attaches =>
    constructor
    case others =>
      intro e he hed
      have hene := hs.ne_next hn (hs.directories e he)
      exact h.attaches.others e
        (Sorted.mem_insert.2 (.inr ⟨Sorted.mem_insert.2 (.inr ⟨he, hed⟩), hene⟩)) hene
    case child =>
      refine .inl ⟨c, hc.mem, ?_, hk.parent, ?_⟩
      · rw [hid]
        exact hnew
      · rw [hid]
        exact h.attaches.others _ (Sorted.mem_of_get? hparent) hne
  case fileBelow =>
    obtain ⟨before, e, path, he, hmem, hget⟩ := h.fileBelow
    exact ⟨name :: before, e, by rw [path]; rfl, down he, hmem, hget⟩
  case onPath =>
    intro e he hfree
    by_cases hold : (s.withDirectory d name).directories.get? e.id = none
    · obtain ⟨names, hnonempty, hstart, hproper, hnames⟩ := h.onPath e he hold
      exact ⟨name :: names, List.cons_ne_nil _ _, (List.prefix_cons_inj name).2 hstart,
        fun heq => hproper (List.cons_eq_cons.1 heq).2, down hnames⟩
    · -- only the directory that has just been added was not there before
      have heid : e.id = ⟨s.nextId⟩ := by
        by_contra hother
        rw [get?_withDirectory, if_neg hother] at hold
        by_cases hed : e.id = d.id
        · rw [hed, Sorted.get?_key hd] at hfree
          cases hfree
        · rw [if_neg hed] at hold
          exact hold hfree
      obtain rfl : c = e := Sorted.eq_of_key_eq hc.mem he (hid.trans heid.symm)
      refine ⟨[name], List.cons_ne_nil _ _, ⟨rest, rfl⟩, fun heq => hrest ?_, hc⟩
      exact (List.cons_eq_cons.1 heq).2.symm

end Store

namespace Edit

open Store

variable {s : Store} {n : Nat} {d : Directory} {segments : List String}

/-- If the first of several segments is not there, adding them succeeds, in any trees. -/
theorem growPath_appends (hne : segments ≠ []) :
    ∀ {n : Nat} {s : Store} {d : Directory}, s.Trees → s.Numbered n →
      n + segments.length < 2 ^ 64 → d ∈ s.directories →
      (∀ name rest, segments = name :: rest → rest ≠ [] → s.childrenNamed d name = []) →
      ∃ f s', growPath d.id segments s
          = { result := .ok f, store := s', issued := segments.length } ∧
        s.Appends n d segments f s' := by
  induction segments with
  | nil => exact absurd rfl hne
  | cons name rest ih =>
    intro n s d ht hs hn hd fresh
    rw [List.length_cons] at hn
    cases rest with
    | nil =>
      exact ⟨_, _, addFile_apply name hd (hs.get?_next hn hs.files),
        appends_withFile ht hs hn hd⟩
    | cons next more =>
      have hn' : n + 1 < 2 ^ 64 := by omega
      have hfree := fresh name (next :: more) rfl (List.cons_ne_nil _ _)
      -- below the directory that comes in first there is nothing yet
      obtain ⟨f, s', hgrow, happends⟩ := ih (List.cons_ne_nil _ _)
        (ht.withDirectory hs hn' hd hfree) ((step_withDirectory hd hfree).numbered hs hn')
        (by omega) (Sorted.mem_insert_self _ _) fun name _ _ _ => childrenNamed_of_empty rfl name
      refine ⟨f, s', ?_, happends.cons hs hn' hd (List.cons_ne_nil _ _)⟩
      have hadd := addDirectory_apply name hd (hs.get?_next hn' hs.directories)
      show (addDirectory d.id name >>= fun c => growPath c.id (next :: more)) s = _
      rw [bind_of_ok hadd, hgrow, Nat.add_comm]
      rfl

end Edit
end Cityscape
