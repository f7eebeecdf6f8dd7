import Cityscape.Proofs.Climbing
import Cityscape.Proofs.Sound
import Mathlib.Logic.Relation

/-!
# `Paths`: names that lead down, and the same names on the way up

`Leads` follows names from a directory downwards. Where directories and files form trees
(`Store.Trees`), as they do in every sound store, names lead to one directory at most, and going up
from it meets the same names again: the relative path of a file is made of the names that lead from
the top to its directory, and its own name. Since directories keep their name and parent for ever,
so do files keep their relative path.
-/

namespace Cityscape

/-! ## Climbing -/

/-- A directory without what it contains: its id, its name and its parent. -/
def Directory.bare (d : Directory) : Directory :=
  { d with subdirectories := ∅, fileRevisions := ∅ }

theorem Directory.Kept.bare {d d' : Directory} (h : d.Kept d') : d'.bare = d.bare := by
  unfold Directory.bare
  rw [h.id, h.name, h.parent]

namespace Store

variable {owner : NodeId → String} {n : Nat} {s s' : Store}

/-! ## Trees -/

/-- Going up one step. -/
def Above (s : Store) (d e : Directory) : Prop :=
  ∃ p, d.parent = some p ∧ s.directories.get? p = some e

/-- Directories and files form trees in which no two siblings have the same name: what hangs below
a directory is listed there, and what is listed exists and hangs there. -/
structure Trees (s : Store) : Prop where
  directories : ∀ d ∈ s.directories, ∀ p,
    d.parent = some p ↔ ∃ e, s.directories.get? p = some e ∧ d.id ∈ e.subdirectories
  files : ∀ f ∈ s.files, ∀ p,
    f.parent = some p ↔ ∃ e, s.directories.get? p = some e ∧ f.id ∈ e.fileRevisions
  listed : ∀ d ∈ s.directories, (∀ x ∈ d.subdirectories, (s.directories.get? x).isSome) ∧
    ∀ x ∈ d.fileRevisions, (s.files.get? x).isSome
  acyclic : ∀ d ∈ s.directories, ¬Relation.TransGen s.Above d d
  siblings : ∀ d ∈ s.directories, ∀ x ∈ d.subdirectories, ∀ y ∈ d.subdirectories, ∀ c e,
    s.directories.get? x = some c → s.directories.get? y = some e → c.name = e.name → c = e

/-- Where numbers get smaller on the way up, the way up does not come back. -/
theorem acyclic_of_rank (rank : NodeId → Nat)
    (h : ∀ d ∈ s.directories, ∀ p, d.parent = some p → rank p < rank d.id) :
    ∀ d ∈ s.directories, ¬Relation.TransGen s.Above d d := by
  intro d hd hcycle
  have hlower : ∀ e, Relation.TransGen s.Above d e →
      e ∈ s.directories ∧ rank e.id < rank d.id := by
    intro e he
    induction he with
    | single habove =>
      obtain ⟨p, hp, he⟩ := habove
      exact ⟨Sorted.mem_of_get? he, Sorted.key_of_get? he ▸ h d hd p hp⟩
    | @tail b e _ habove ih =>
      obtain ⟨p, hp, he⟩ := habove
      obtain ⟨hb, hlt⟩ := ih
      exact ⟨Sorted.mem_of_get? he,
        Nat.lt_trans (Sorted.key_of_get? he ▸ h b hb p hp) hlt⟩
  exact Nat.lt_irrefl _ (hlower d hcycle).2

/-- In a sound store a directory hangs where it is listed. -/
theorem Sound.parent_iff (hs : s.Sound owner n) {d : Directory} (hd : d ∈ s.directories)
    (p : NodeId) :
    d.parent = some p ↔ ∃ e, s.directories.get? p = some e ∧ d.id ∈ e.subdirectories := by
  constructor
  · intro hp
    obtain ⟨e, he, hmem, -⟩ := (hs.fitting.directories d hd).parent p hp
    exact ⟨e, he, hmem⟩
  · rintro ⟨e, he, hmem⟩
    obtain ⟨c, hc, hp, -⟩ :=
      (hs.fitting.directories e (Sorted.mem_of_get? he)).subdirectories d.id hmem
    rw [Sorted.get?_key hd] at hc
    rw [Option.some.inj hc, hp, Sorted.key_of_get? he]

/-- In a sound store a file hangs where it is listed. -/
theorem Sound.fileParent_iff (hs : s.Sound owner n) {f : FileRevision} (hf : f ∈ s.files)
    (p : NodeId) :
    f.parent = some p ↔ ∃ e, s.directories.get? p = some e ∧ f.id ∈ e.fileRevisions := by
  constructor
  · intro hp
    obtain ⟨q, e, hq, he, hmem⟩ := (hs.fitting.files f hf).parent
    obtain rfl := Option.some.inj (hp.symm.trans hq)
    exact ⟨e, he, hmem⟩
  · rintro ⟨e, he, hmem⟩
    obtain ⟨c, hc, hp, -⟩ :=
      (hs.fitting.directories e (Sorted.mem_of_get? he)).fileRevisions f.id hmem
    rw [Sorted.get?_key hf] at hc
    rw [Option.some.inj hc, hp, Sorted.key_of_get? he]

/-- In a sound store directories and files form trees, whose parents are older than what they
contain. -/
theorem Sound.trees (hs : s.Sound owner n) : s.Trees where
  directories d hd := hs.parent_iff hd
  files f hf := hs.fileParent_iff hf
  listed d hd := by
    have fits := hs.fitting.directories d hd
    constructor
    · intro x hx
      obtain ⟨c, hc, -⟩ := fits.subdirectories x hx
      exact Option.isSome_of_eq_some hc
    · intro x hx
      obtain ⟨f, hf, -⟩ := fits.fileRevisions x hx
      exact Option.isSome_of_eq_some hf
  acyclic := by
    refine acyclic_of_rank (fun id => id.val.toNat) fun d hd p hp => ?_
    obtain ⟨-, -, -, hlt⟩ := (hs.fitting.directories d hd).parent p hp
    exact UInt64.lt_iff_toNat_lt.1 hlt
  siblings d hd x hx y hy c e hc he hname := by
    have hxy := (hs.fitting.directories d hd).siblings x hx y hy c e hc he hname
    rw [hxy, he] at hc
    exact (Option.some.inj hc).symm

namespace Trees

/-- What a directory lists is a directory that hangs below it. -/
theorem subdirectory (h : s.Trees) {d : Directory} (hd : d ∈ s.directories) {x : NodeId}
    (hx : x ∈ d.subdirectories) : ∃ c, s.directories.get? x = some c ∧ c.parent = some d.id := by
  obtain ⟨c, hc⟩ := Option.isSome_iff_exists.1 ((h.listed d hd).1 x hx)
  refine ⟨c, hc, (h.directories c (Sorted.mem_of_get? hc) d.id).2 ⟨d, Sorted.get?_key hd, ?_⟩⟩
  rwa [Sorted.key_of_get? hc]

/-- A climb meets a directory, and then what a climb from its parent meets. -/
theorem climb_eq_cons (h : s.Trees) {d : Directory} (hd : d ∈ s.directories) :
    climb s.directories.toList (some d.id) = d :: climb s.directories.toList d.parent := by
  have hfind : s.directories.toList.find? (fun e => e.id = d.id) = some d := Sorted.get?_key hd
  have hrest : climb (others s.directories.toList d.id) d.parent
      = climb s.directories.toList d.parent := by
    -- what is above `d` is another directory, so the climb does not come back to `d`
    apply climb_congr fun q => ∃ e, s.directories.get? q = some e ∧ Relation.TransGen s.Above d e
    · rintro q ⟨e, he, habove⟩
      rw [find?_others, if_neg]
      rintro rfl
      obtain rfl := Option.some.inj ((Sorted.get?_key hd).symm.trans he)
      exact h.acyclic d hd habove
    · rintro q e p ⟨e', he', habove⟩ he hp
      rw [find?_others] at he
      split at he
      · cases he
      · obtain rfl : e = e' := Option.some.inj (Eq.trans (Eq.symm he) he')
        obtain ⟨b, hb, -⟩ := (h.directories e (Sorted.mem_of_get? he') p).1 hp
        exact ⟨b, hb, habove.tail ⟨p, hp, hb⟩⟩
    · intro p hp
      obtain ⟨e, he, -⟩ := (h.directories d hd p).1 hp
      exact ⟨e, he, .single ⟨p, hp, he⟩⟩
  rw [climb]
  simp only
  split
  · rename_i hn
    rw [hfind] at hn
    cases hn
  · rename_i e he
    obtain rfl : d = e := Option.some.inj (hfind.symm.trans he)
    rw [hrest]

/-- The way up is shorter from a parent. -/
theorem length_climb_lt (h : s.Trees) {d : Directory} (hd : d ∈ s.directories) {p : NodeId}
    (hp : d.parent = some p) :
    (climb s.directories.toList (some p)).length
      < (climb s.directories.toList (some d.id)).length := by
  rw [h.climb_eq_cons hd, hp]
  exact Nat.lt_succ_self _

/-- What holds of a directory whenever it holds of its parent holds of all directories. -/
theorem directory_induction (h : s.Trees) {motive : Directory → Prop}
    (step : ∀ d ∈ s.directories,
      (∀ p e, d.parent = some p → s.directories.get? p = some e → motive e) → motive d) :
    ∀ d ∈ s.directories, motive d := by
  suffices hall : ∀ m : Nat, ∀ d ∈ s.directories,
      (climb s.directories.toList (some d.id)).length = m → motive d from
    fun d hd => hall _ d hd rfl
  intro m
  induction m using Nat.strongRecOn with
  | ind m ih =>
    intro d hd hm
    refine step d hd fun p e hp he => ?_
    have hlt := h.length_climb_lt hd hp
    rw [← Sorted.key_of_get? he] at hlt
    exact ih _ (hm ▸ hlt) e (Sorted.mem_of_get? he) rfl

/-- A directory always has the same directories above it, up to what these contain. -/
theorem climb_of_grows (h : s.Trees) (h' : s'.Trees)
    (g : s.directories.Grows Directory.Kept s'.directories) :
    ∀ d ∈ s.directories, (climb s'.directories.toList (some d.id)).map Directory.bare
      = (climb s.directories.toList (some d.id)).map Directory.bare := by
  refine h.directory_induction fun d hd ih => ?_
  obtain ⟨d', hd', hk⟩ := g _ _ (Sorted.get?_key hd)
  have hcons' := h'.climb_eq_cons (Sorted.mem_of_get? hd')
  rw [hk.id, hk.parent] at hcons'
  rw [hcons', h.climb_eq_cons hd, List.map_cons, List.map_cons, hk.bare]
  cases hp : d.parent with
  | none => rw [climb, climb]
  | some p =>
    obtain ⟨e, he, -⟩ := (h.directories d hd p).1 hp
    have hup := ih p e hp he
    rw [Sorted.key_of_get? he] at hup
    rw [hup]

end Trees

/-! ## Names on the way up -/

/-- The names that are met going up from a directory to the top, which is left out; the top one
first. -/
def namesAbove (s : Store) (next : Option NodeId) : List String :=
  (((climb s.directories.toList next).takeWhile fun d => d.parent.isSome).map
    Directory.name).reverse

theorem relativePath_eq (s : Store) (f : FileRevision) :
    s.relativePath f = s.namesAbove f.parent ++ [f.name] := rfl

/-- The content hash and the path of a file. -/
def fileKey (s : Store) (f : FileRevision) : Option String × List String :=
  (f.hash, s.relativePath f)

namespace Trees

theorem namesAbove_top (h : s.Trees) {d : Directory} (hd : d ∈ s.directories)
    (hp : d.parent = none) : s.namesAbove (some d.id) = [] := by
  unfold namesAbove
  rw [h.climb_eq_cons hd]
  simp [hp]

theorem namesAbove_below (h : s.Trees) {d : Directory} {p : NodeId} (hd : d ∈ s.directories)
    (hp : d.parent = some p) : s.namesAbove (some d.id) = s.namesAbove (some p) ++ [d.name] := by
  unfold namesAbove
  rw [h.climb_eq_cons hd]
  simp [hp]

/-- A directory keeps the names above it for ever. -/
theorem namesAbove_of_grows (h : s.Trees) (h' : s'.Trees)
    (g : s.directories.Grows Directory.Kept s'.directories) {d : Directory}
    (hd : d ∈ s.directories) : s'.namesAbove (some d.id) = s.namesAbove (some d.id) := by
  have hbare : ∀ (s : Store) (next : Option NodeId), s.namesAbove next
      = ((((climb s.directories.toList next).map Directory.bare).takeWhile
          fun d => d.parent.isSome).map Directory.name).reverse := by
    intro s next
    rw [List.takeWhile_map, List.map_map]
    rfl
  rw [hbare, hbare, h.climb_of_grows h' g d hd]

end Trees

/-- A file keeps its relative path for ever. -/
theorem Sound.relativePath_of_grows (hs : s.Sound owner n) {m : Nat} (hs' : s'.Sound owner m)
    (g : s.Grows s') {f f' : FileRevision} (hf : f ∈ s.files) (hk : f.Kept f') :
    s'.relativePath f' = s.relativePath f := by
  obtain ⟨p, e, hp, he, -⟩ := (hs.fitting.files f hf).parent
  have hup := hs.trees.namesAbove_of_grows hs'.trees g.directories (Sorted.mem_of_get? he)
  rw [Sorted.key_of_get? he] at hup
  rw [relativePath_eq, relativePath_eq, hk.parent, hk.name, hp, hup]

/-! ## The top of a tree -/

/-- The id of the last directory that is met going up. -/
def topAbove (s : Store) (next : Option NodeId) : Option NodeId :=
  (climb s.directories.toList next).getLast?.map Directory.id

namespace Trees

theorem topAbove_top (h : s.Trees) {d : Directory} (hd : d ∈ s.directories)
    (hp : d.parent = none) : s.topAbove (some d.id) = some d.id := by
  have hnil : climb s.directories.toList d.parent = [] := by rw [hp, climb]
  unfold topAbove
  rw [h.climb_eq_cons hd, hnil]
  rfl

theorem topAbove_below (h : s.Trees) {d : Directory} {p : NodeId} (hd : d ∈ s.directories)
    (hp : d.parent = some p) : s.topAbove (some d.id) = s.topAbove (some p) := by
  obtain ⟨e, he, -⟩ := (h.directories d hd p).1 hp
  have hparent := h.climb_eq_cons (Sorted.mem_of_get? he)
  rw [Sorted.key_of_get? he] at hparent
  unfold topAbove
  rw [h.climb_eq_cons hd, hp, hparent, List.getLast?_cons_cons]

/-- A directory stays below the same top for ever. -/
theorem topAbove_of_grows (h : s.Trees) (h' : s'.Trees)
    (g : s.directories.Grows Directory.Kept s'.directories) {d : Directory}
    (hd : d ∈ s.directories) : s'.topAbove (some d.id) = s.topAbove (some d.id) := by
  have hbare : ∀ (s : Store) (next : Option NodeId), s.topAbove next
      = ((climb s.directories.toList next).map Directory.bare).getLast?.map Directory.id := by
    intro s next
    rw [List.getLast?_map, Option.map_map]
    rfl
  rw [hbare, hbare, h.climb_of_grows h' g d hd]

end Trees

/-- A file stays below the same top for ever. -/
theorem Sound.fileTop_of_grows (hs : s.Sound owner n) {m : Nat} (hs' : s'.Sound owner m)
    (g : s.Grows s') {f f' : FileRevision} (hf : f ∈ s.files) (hk : f.Kept f') :
    s'.topAbove f'.parent = s.topAbove f.parent := by
  obtain ⟨p, e, hp, he, -⟩ := (hs.fitting.files f hf).parent
  have hup := hs.trees.topAbove_of_grows hs'.trees g.directories (Sorted.mem_of_get? he)
  rw [Sorted.key_of_get? he] at hup
  rw [hk.parent, hp, hup]

/-! ## Names that lead down -/

theorem mem_childrenNamed {d c : Directory} {name : String} :
    c ∈ s.childrenNamed d name ↔
      c.id ∈ d.subdirectories ∧ s.directories.get? c.id = some c ∧ c.name = name := by
  unfold childrenNamed
  simp only [List.mem_filter, List.mem_filterMap, decide_eq_true_eq, Sorted.mem_toList]
  constructor
  · rintro ⟨⟨x, hx, hc⟩, hn⟩
    obtain rfl := Sorted.key_of_get? hc
    exact ⟨hx, hc, hn⟩
  · rintro ⟨hx, hc, hn⟩
    exact ⟨⟨c.id, hx, hc⟩, hn⟩

theorem childrenNamed_eq_nil {d : Directory} {name : String} :
    s.childrenNamed d name = [] ↔
      ∀ x ∈ d.subdirectories, ∀ c, s.directories.get? x = some c → c.name ≠ name := by
  rw [List.eq_nil_iff_forall_not_mem]
  constructor
  · intro h x hx c hc hn
    obtain rfl := Sorted.key_of_get? hc
    exact h c (mem_childrenNamed.2 ⟨hx, hc, hn⟩)
  · intro h c hc
    obtain ⟨hx, hget, hn⟩ := mem_childrenNamed.1 hc
    exact h c.id hx c hget hn

/-- The names lead from a directory down to another one. -/
def Leads (s : Store) (d : Directory) : List String → Directory → Prop
  | [], e => e = d
  | name :: rest, e => ∃ c ∈ s.childrenNamed d name, s.Leads c rest e

theorem leads_append {d e : Directory} {names more : List String} :
    s.Leads d (names ++ more) e ↔ ∃ m, s.Leads d names m ∧ s.Leads m more e := by
  induction names generalizing d with
  | nil => simp [Leads]
  | cons name rest ih =>
    simp only [List.cons_append, Leads, ih]
    constructor
    · rintro ⟨c, hc, m, hm, he⟩
      exact ⟨m, ⟨c, hc, hm⟩, he⟩
    · rintro ⟨m, ⟨c, hc, hm⟩, he⟩
      exact ⟨c, hc, m, hm, he⟩

theorem leads_single {d e : Directory} {name : String} :
    s.Leads d [name] e ↔ e ∈ s.childrenNamed d name := by
  simp [Leads]

theorem Trees.eq_of_childrenNamed (h : s.Trees) {d c c' : Directory} {name : String}
    (hd : d ∈ s.directories) (hc : c ∈ s.childrenNamed d name)
    (hc' : c' ∈ s.childrenNamed d name) : c = c' := by
  obtain ⟨hx, hget, hname⟩ := mem_childrenNamed.1 hc
  obtain ⟨hx', hget', hname'⟩ := mem_childrenNamed.1 hc'
  exact h.siblings d hd _ hx _ hx' c c' hget hget' (hname.trans hname'.symm)

/-- What has a name below a directory hangs there. -/
theorem Trees.parent_of_childrenNamed (h : s.Trees) {d c : Directory} {name : String}
    (hd : d ∈ s.directories) (hc : c ∈ s.childrenNamed d name) :
    c.parent = some d.id := by
  obtain ⟨hx, hget, -⟩ := mem_childrenNamed.1 hc
  exact (h.directories c (Sorted.mem_of_get? hget) d.id).2 ⟨d, Sorted.get?_key hd, hx⟩

theorem mem_of_childrenNamed {d c : Directory} {name : String}
    (hc : c ∈ s.childrenNamed d name) : c ∈ s.directories :=
  Sorted.mem_of_get? (mem_childrenNamed.1 hc).2.1

theorem mem_of_leads {d e : Directory} {names : List String} (hd : d ∈ s.directories)
    (h : s.Leads d names e) : e ∈ s.directories := by
  induction names generalizing d with
  | nil =>
    rw [Leads] at h
    exact h ▸ hd
  | cons name rest ih =>
    obtain ⟨c, hc, he⟩ := h
    exact ih (mem_of_childrenNamed hc) he

/-- Names lead to one directory at most. -/
theorem Trees.leads_unique (ht : s.Trees) {d e e' : Directory} {names : List String}
    (hd : d ∈ s.directories) (h : s.Leads d names e) (h' : s.Leads d names e') : e = e' := by
  induction names generalizing d with
  | nil => exact Eq.trans h (Eq.symm h')
  | cons name rest ih =>
    obtain ⟨c, hc, he⟩ := h
    obtain ⟨c', hc', he'⟩ := h'
    obtain rfl := ht.eq_of_childrenNamed hd hc hc'
    exact ih (mem_of_childrenNamed hc) he he'

/-- What is below a directory belongs to the same token. -/
theorem Sound.owner_of_leads (hs : s.Sound owner n) {d e : Directory} {names : List String}
    (hd : d ∈ s.directories) (h : s.Leads d names e) : owner e.id = owner d.id := by
  induction names generalizing d with
  | nil =>
    rw [Leads] at h
    rw [h]
  | cons name rest ih =>
    obtain ⟨c, hc, he⟩ := h
    obtain ⟨-, -, -, hown⟩ :=
      (hs.fitting.directories d hd).subdirectories c.id (mem_childrenNamed.1 hc).1
    exact (ih (mem_of_childrenNamed hc) he).trans hown

/-- The names that lead down to a directory are met again on the way up. -/
theorem Trees.namesAbove_of_leads (ht : s.Trees) {d e : Directory} {names : List String}
    (hd : d ∈ s.directories) (h : s.Leads d names e) :
    s.namesAbove (some e.id) = s.namesAbove (some d.id) ++ names := by
  induction names generalizing d with
  | nil =>
    rw [Leads] at h
    rw [h, List.append_nil]
  | cons name rest ih =>
    obtain ⟨c, hc, he⟩ := h
    obtain ⟨-, -, hname⟩ := mem_childrenNamed.1 hc
    have hmem := mem_of_childrenNamed hc
    rw [ih hmem he, ht.namesAbove_below hmem (ht.parent_of_childrenNamed hd hc), hname,
      List.append_assoc]
    rfl

/-- Different names lead to different directories. -/
theorem Trees.names_unique (ht : s.Trees) {d e : Directory} {names more : List String}
    (hd : d ∈ s.directories) (h : s.Leads d names e) (h' : s.Leads d more e) : names = more := by
  have hup := ht.namesAbove_of_leads hd h
  rw [ht.namesAbove_of_leads hd h'] at hup
  exact (List.append_cancel_left hup).symm

/-- What is below a directory has the same top. -/
theorem Trees.topAbove_of_leads (ht : s.Trees) {d e : Directory} {names : List String}
    (hd : d ∈ s.directories) (h : s.Leads d names e) :
    s.topAbove (some e.id) = s.topAbove (some d.id) := by
  induction names generalizing d with
  | nil =>
    rw [Leads] at h
    rw [h]
  | cons name rest ih =>
    obtain ⟨c, hc, he⟩ := h
    have hmem := mem_of_childrenNamed hc
    rw [ih hmem he, ht.topAbove_below hmem (ht.parent_of_childrenNamed hd hc)]

/-- Every tree has a top, from which the names above a directory lead to it. -/
theorem Trees.exists_top (ht : s.Trees) :
    ∀ d ∈ s.directories, ∃ top ∈ s.directories, top.parent = none ∧
      s.Leads top (s.namesAbove (some d.id)) d := by
  refine ht.directory_induction fun d hd ih => ?_
  cases hp : d.parent with
  | none =>
    rw [ht.namesAbove_top hd hp]
    exact ⟨d, hd, hp, rfl⟩
  | some p =>
    obtain ⟨e, he, hmem⟩ := (ht.directories d hd p).1 hp
    obtain ⟨top, htop, hnone, hup⟩ := ih p e hp he
    rw [Sorted.key_of_get? he] at hup
    rw [ht.namesAbove_below hd hp]
    exact ⟨top, htop, hnone, leads_append.2
      ⟨e, hup, leads_single.2 (mem_childrenNamed.2 ⟨hmem, Sorted.get?_key hd, rfl⟩)⟩⟩

/-- The names above a directory lead to it from its top. -/
theorem Trees.leads_of_topAbove (ht : s.Trees) {top : Directory} (htop : top ∈ s.directories) :
    ∀ d ∈ s.directories, s.topAbove (some d.id) = some top.id →
      s.Leads top (s.namesAbove (some d.id)) d := by
  intro d hd h
  obtain ⟨top', htop', hnone, hleads⟩ := ht.exists_top d hd
  rw [ht.topAbove_of_leads htop' hleads, ht.topAbove_top htop' hnone] at h
  obtain rfl := Sorted.eq_of_key_eq htop' htop (Option.some.inj h)
  exact hleads

end Store

end Cityscape
